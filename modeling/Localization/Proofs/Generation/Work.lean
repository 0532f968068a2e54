import Localization.Proofs.Generation.Moves
import Mathlib.Logic.Relation

namespace Localization.Generation

/-- What two parts of the work on an interface report together. -/
def JobReport.append (first second : JobReport) : JobReport where
  interface := first.interface
  emitted := first.emitted ++ second.emitted
  reused := first.reused ++ second.reused
  error? := second.error?.or first.error?

namespace JobReport

theorem append_nothing (r : JobReport) (i : Interface) : r.append { interface := i } = r := by
  simp [append]

theorem nothing_append {r : JobReport} {i : Interface} (h : r.interface = i) :
    { interface := i : JobReport }.append r = r := by
  simp [append, ← h]

theorem append_error (r : JobReport) (i : Interface) (error : Error) :
    r.append { interface := i, error? := some error } = { r with error? := some error } := by
  simp [append]

theorem append_reused (r later : JobReport) (entry : Locale × String) :
    r.append { later with reused := entry :: later.reused } =
      { r with reused := r.reused ++ [entry] }.append later := by
  simp [append]

theorem append_emitted (r later : JobReport) (className : String) :
    r.append { later with emitted := className :: later.emitted } =
      { r with emitted := r.emitted ++ [className] }.append later := by
  simp [append]

end JobReport

theorem interface_runLocales {σ : Type} (config : Config) (emitter : Emitter σ) (job : Job)
    (methods : List Method) (locales : List Locale) (s : Shared σ) :
    (runLocales config emitter job methods locales s).1.interface = job.interface := by
  induction locales generalizing s with
  | nil => rfl
  | cons locale rest ih =>
    simp only [runLocales]
    split
    · rfl
    · split
      · exact ih _
      · split
        · rfl
        · exact ih _

/-- The work on one interface while nothing else is going on. -/
structure Work (σ : Type) where
  task : Task
  shared : Shared σ
  deliveries : List Delivery := []

namespace Work

variable {σ : Type}

inductive Step (p : Pass) (oracle : Oracle) (emitter : Emitter σ) : Work σ → Work σ → Prop where
  | move {s s' : Shared σ} {t t' : Task} {sent : List Delivery} (deliveries : List Delivery)
      (hmove : Moves p oracle emitter s t s' t' sent) :
      Step p oracle emitter ⟨t, s, deliveries⟩ ⟨t', s', deliveries ++ sent⟩

abbrev Steps (p : Pass) (oracle : Oracle) (emitter : Emitter σ) : Work σ → Work σ → Prop :=
  Relation.ReflTransGen (Step p oracle emitter)

def start (p : Pass) (job : Job) (kept : σ) : Work σ where
  task := .ofJob job
  shared := { cache := p.cache, emitter := kept }

/-- The work on a task leads from one state to another, whatever was delivered before. -/
def Leads (p : Pass) (oracle : Oracle) (emitter : Emitter σ) (s : Shared σ) (t : Task)
    (s' : Shared σ) (t' : Task) : Prop :=
  ∃ sent, ∀ deliveries, Steps p oracle emitter ⟨t, s, deliveries⟩ ⟨t', s', deliveries ++ sent⟩

variable {p : Pass} {oracle : Oracle} {emitter : Emitter σ} {s s' s'' : Shared σ} {t t' t'' : Task}

theorem Leads.of_moves {sent : List Delivery} (h : Moves p oracle emitter s t s' t' sent) :
    Leads p oracle emitter s t s' t' :=
  ⟨sent, fun deliveries => .single (.move deliveries h)⟩

theorem Leads.trans (h : Leads p oracle emitter s t s' t')
    (h' : Leads p oracle emitter s' t' s'' t'') :
    Leads p oracle emitter s t s'' t'' := by
  obtain ⟨sent, hsteps⟩ := h
  obtain ⟨sent', hsteps'⟩ := h'
  refine ⟨sent ++ sent', fun deliveries => ?_⟩
  rw [← List.append_assoc]
  exact (hsteps deliveries).trans (hsteps' (deliveries ++ sent))

/-- Asking the cache and computing what it lacks comes to one call of the cache. -/
theorem leads_resolve (p : Pass) (oracle : Oracle) (emitter : Emitter σ) (s : Shared σ) (job : Job)
    (report : JobReport) (methods : List Method) (locale : Locale) (rest : List Locale) :
    Leads p oracle emitter s ⟨job, report, .resolving methods (locale :: rest)⟩
      (s.withCache (s.cache.resolve job.catalog locale).2)
      ⟨job, report, .binding methods locale rest
        (s.cache.resolve job.catalog locale).1.resolution⟩ := by
  cases hget : s.cache.get? { interface := job.interface, locale } with
  | some stored =>
    rw [Cache.resolve_of_get?_eq_some hget]
    exact .of_moves (.hit hget)
  | none =>
    rw [Cache.resolve_of_get?_eq_none hget]
    exact .trans (.of_moves (.miss hget)) (.of_moves .store)

/-- Step by step, the work on the locales does what it does at one go. -/
theorem leads_runLocales (p : Pass) (oracle : Oracle) (emitter : Emitter σ) (job : Job)
    (methods : List Method) (locales : List Locale) (s : Shared σ) (report : JobReport) :
    Leads p oracle emitter s ⟨job, report, .resolving methods locales⟩
      (runLocales p.config emitter job methods locales s).2
      ⟨job, report.append (runLocales p.config emitter job methods locales s).1, .finished⟩ := by
  -- The steps add to the report at its end, the run at one go puts each locale in front of the
  -- rest, so the report so far goes along.
  induction locales generalizing s report with
  | nil =>
    simp only [runLocales, JobReport.append_nothing]
    exact .of_moves .finish
  | cons locale rest ih =>
    have hresolve := leads_resolve p oracle emitter s job report methods locale rest
    rcases hcache : s.cache.resolve job.catalog locale with ⟨stored, cache⟩
    simp only [hcache] at hresolve
    simp only [runLocales, bindAt, hcache]
    refine hresolve.trans ?_
    cases hbind : bindMethods p.config job methods locale stored.resolution with
    | error error =>
      simp only [JobReport.append_error]
      exact .of_moves (.fail hbind)
    | ok artifact =>
      by_cases hmark : p.config.reuseEquivalentArtifacts ∧
          (job.interface, artifact.className) ∈ s.classes
      · simp only [if_pos hmark, JobReport.append_reused]
        exact .trans (.of_moves (.reuse hbind hmark.1 hmark.2)) (ih _ _)
      · have hfirst : p.config.reuseEquivalentArtifacts →
            (job.interface, artifact.className) ∉ (s.withCache cache).classes :=
          fun hreuse hmem => hmark ⟨hreuse, hmem⟩
        simp only [if_neg hmark]
        refine .trans (.of_moves (.mark hbind hfirst)) ?_
        rcases hemit : emitter.emit s.emitter artifact with ⟨error | ⟨⟩, kept⟩
        · simp only [JobReport.append_error]
          exact .of_moves (.reject hemit)
        · simp only [JobReport.append_emitted]
          exact .trans (.of_moves (.deliver hemit)) (ih _ _)

theorem leads_runJob (p : Pass) (oracle : Oracle) (emitter : Emitter σ) (s : Shared σ) (job : Job) :
    Leads p oracle emitter s (.ofJob job) (runJob p.config p.locales oracle emitter s job).2
      ⟨job, (runJob p.config p.locales oracle emitter s job).1, .finished⟩ := by
  cases horacle : oracle job.interface with
  | error error =>
    simp only [runJob, horacle]
    exact .of_moves (.refuse horacle)
  | ok methods =>
    have hrun := leads_runLocales p oracle emitter job methods p.locales s
      { interface := job.interface }
    have hinterface := interface_runLocales p.config emitter job methods p.locales s
    rw [JobReport.nothing_append hinterface] at hrun
    simp only [runJob, horacle]
    exact .trans (.of_moves (.take horacle)) hrun

theorem Step.right_unique : Relator.RightUnique (Step p oracle emitter) := by
  intro w v v' hv hv'
  cases hv with
  | move deliveries hmove =>
    cases hv' with
    | move deliveries hmove' =>
      obtain ⟨rfl, rfl, rfl⟩ := hmove.right_unique hmove'
      rfl

theorem eq_of_steps_of_isFinished {w v : Work σ} (h : Steps p oracle emitter w v)
    (hfinished : w.task.isFinished) : w = v := by
  rcases h.cases_head with heq | ⟨v', hstep, -⟩
  · exact heq
  · cases hstep with
    | move deliveries hmove => simp [hmove.isFinished_eq_false] at hfinished

/-- There is only one end. -/
theorem eq_of_steps {start w v : Work σ} (hw : Steps p oracle emitter start w)
    (hv : Steps p oracle emitter start v) (hwf : w.task.isFinished) (hvf : v.task.isFinished) :
    w = v := by
  rcases Relation.ReflTransGen.total_of_right_unique Step.right_unique hw hv with h | h
  · exact eq_of_steps_of_isFinished h hwf
  · exact (eq_of_steps_of_isFinished h hvf).symm

/-- A state that the work on a job can get to when the pass has nothing else to do. -/
def Alone (p : Pass) (job : Job) (oracle : Oracle) (emitter : Emitter σ) (kept : σ) (w : Work σ) :
    Prop :=
  Steps p oracle emitter (start p job kept) w

namespace Alone

variable {job : Job} {kept : σ} {w : Work σ}

theorem tail {deliveries sent : List Delivery}
    (h : Alone p job oracle emitter kept ⟨t, s, deliveries⟩)
    (hmove : Moves p oracle emitter s t s' t' sent) :
    Alone p job oracle emitter kept ⟨t', s', deliveries ++ sent⟩ :=
  Relation.ReflTransGen.tail h (.move deliveries hmove)

/-- What holds at the start and is kept by every step of the work holds throughout. -/
@[elab_as_elim]
theorem induction {motive : ∀ w, Alone p job oracle emitter kept w → Prop}
    (start : motive _ .refl)
    (step : ∀ s t deliveries s' t' sent (h : Alone p job oracle emitter kept ⟨t, s, deliveries⟩)
      (hmove : Moves p oracle emitter s t s' t' sent), motive _ h → motive _ (h.tail hmove))
    (h : Alone p job oracle emitter kept w) : motive w h := by
  unfold Alone at h
  induction h with
  | refl => exact start
  | tail hsteps hstep ih =>
    cases hstep with
    | move deliveries hmove => exact step _ _ _ _ _ _ hsteps hmove ih

theorem job_eq (h : Alone p job oracle emitter kept w) : w.task.job = job := by
  induction h using Alone.induction with
  | start => rfl
  | step s t deliveries s' t' sent _ hmove ih => exact hmove.job_eq.trans ih

theorem owned (h : Alone p job oracle emitter kept w) : w.task.Owned := by
  induction h using Alone.induction with
  | start => exact Task.owned_ofJob job
  | step s t deliveries s' t' sent _ hmove _ => exact hmove.owned

theorem interface_of_mem_deliveries (h : Alone p job oracle emitter kept w) {d : Delivery}
    (hmem : d ∈ w.deliveries) : d.artifact.interface = job.interface := by
  induction h using Alone.induction with
  | start => cases hmem
  | step s t deliveries s' t' sent halone hmove ih =>
    rcases List.mem_append.1 hmem with hmem | hmem
    · exact ih hmem
    · obtain ⟨⟨methods, rest, hstage⟩, -⟩ := hmove.of_mem_sent hmem
      exact (halone.owned _ _ _ hstage).trans (congrArg Job.interface halone.job_eq)

/-- Finished work has come to what the job's run at one go comes to. -/
theorem eq_runJob (h : Alone p job oracle emitter kept w) (hfinished : w.task.isFinished) :
    w.task = ⟨job, (runJob p.config p.locales oracle emitter (start p job kept).shared job).1,
        .finished⟩ ∧
      w.shared = (runJob p.config p.locales oracle emitter (start p job kept).shared job).2 := by
  obtain ⟨sent, hsteps⟩ := leads_runJob p oracle emitter (start p job kept).shared job
  have heq := eq_of_steps h (hsteps []) hfinished rfl
  exact ⟨congrArg Work.task heq, congrArg Work.shared heq⟩

theorem run_eq (h : Alone p job oracle emitter kept w) (hfinished : w.task.isFinished) :
    (p.run [job] oracle emitter kept).1 =
      { jobs := [w.task.report], cache := w.shared.cache.stats } := by
  obtain ⟨htask, hshared⟩ := h.eq_runJob hfinished
  rw [htask, hshared]
  rfl

end Alone

end Work

end Localization.Generation
