import Localization.Generation.History
import Localization.Proofs.Generation.Work

namespace Localization.Generation

/-- A pass starts on a valid configuration, with the locales that it lists and an empty cache. -/
theorem Pass.eq_of_start {config : Config} {p : Pass} (h : Pass.start config = .ok p) :
    config.faults = [] ∧ config.parsedLocales = .ok p.locales ∧ p.config = config ∧
      p.cache = {} := by
  unfold Pass.start at h
  by_cases hfaults : config.faults = []
  · rw [if_neg (not_not.2 hfaults)] at h
    cases hlocales : config.parsedLocales with
    | error error =>
      rw [hlocales] at h
      cases h
    | ok locales =>
      rw [hlocales] at h
      cases h
      exact ⟨hfaults, rfl, rfl, rfl⟩
  · rw [if_pos hfaults] at h
    cases h

/-- A pass keeps the configuration that it was started with, and the locales. -/
theorem Pass.History.eq_of_config {config : Config} {events : List Event} {p : Pass}
    (h : Pass.History config events p) :
    p.config = config ∧ config.faults = [] ∧ config.parsedLocales = .ok p.locales := by
  induction h with
  | start hstart =>
    obtain ⟨hvalid, hlocales, hconfig, -⟩ := Pass.eq_of_start hstart
    exact ⟨hconfig, hvalid, hlocales⟩
  | @bind _ p _ job oracle locale ih =>
    have hkept : (p.bind job oracle locale).2.config = p.config ∧
        (p.bind job oracle locale).2.locales = p.locales := by
      cases horacle : oracle job.interface <;> simp [Pass.bind, horacle]
    rw [hkept.1, hkept.2]
    exact ih
  | run _ _ _ ih => exact ih

theorem Config.workers_pos {config : Config} (h : config.faults = []) : 0 < config.workers := by
  by_contra hnot
  simp [Config.faults, Nat.eq_zero_of_not_pos hnot] at h

theorem Task.computed?_of_idle {t : Task} (h : t.isInHand = false) : t.computed? = none := by
  obtain ⟨job, report, stage⟩ := t
  cases stage with
  | computing => cases h
  | _ => rfl

namespace Crew

variable {σ : Type} {p : Pass} {jobs : List Job} {oracle : Oracle} {emitter : Emitter σ} {kept : σ}
  {c c' : Crew σ}

abbrev Steps (p : Pass) (oracle : Oracle) (emitter : Emitter σ) : Crew σ → Crew σ → Prop :=
  Relation.ReflTransGen (Step p oracle emitter)

theorem Reachable.steps (h : Reachable p jobs oracle emitter kept c)
    (hsteps : Steps p oracle emitter c c') : Reachable p jobs oracle emitter kept c' := by
  induction hsteps with
  | refl => exact h
  | tail _ hstep ih => exact ih.step hstep

theorem Reachable.exists_run (h : Reachable p jobs oracle emitter kept c) :
    ∃ events, Run p jobs emitter kept events c := by
  induction h with
  | start => exact ⟨_, .start⟩
  | step _ hstep ih =>
    obtain ⟨events, hrun⟩ := ih
    cases hstep with
    | move before after hmove hfree hlock =>
      exact ⟨_, hrun.move before after oracle hmove hfree hlock⟩

theorem Run.map_job_eq {events : List Event} (h : Run p jobs emitter kept events c) :
    c.tasks.map (·.job) = jobs := by
  induction h with
  | start => exact List.map_map.trans (List.map_id jobs)
  | move before after oracle _ hmove hfree hlock ih => simpa [hmove.job_eq] using ih

theorem Reachable.map_job_eq (h : Reachable p jobs oracle emitter kept c) :
    c.tasks.map (·.job) = jobs := by
  obtain ⟨events, hrun⟩ := h.exists_run
  exact hrun.map_job_eq

/-- A bound for the steps that are left, for a pass with so many locales. -/
def remaining (locales : Nat) (c : Crew σ) : Nat :=
  (c.tasks.map (·.stage.remaining locales)).sum

theorem Step.remaining_lt (h : Step p oracle emitter c c') :
    c'.remaining p.locales.length < c.remaining p.locales.length := by
  cases h with
  | move before after hmove hfree hlock =>
    have hless := hmove.remaining_lt
    simp only [remaining, List.map_append, List.map_cons, List.sum_append, List.sum_cons]
    omega

/-- No order of the steps goes on for ever. -/
theorem wellFounded_step (p : Pass) (oracle : Oracle) (emitter : Emitter σ) :
    WellFounded fun c' c : Crew σ => Step p oracle emitter c c' :=
  Subrelation.wf (fun hstep => hstep.remaining_lt)
    (InvImage.wf (remaining p.locales.length) Nat.lt_wfRel.wf)

theorem exists_step_of_mem {t : Task} (hmem : t ∈ c.tasks) (hopen : t.isFinished = false)
    (hfree : t.isWaiting → c.tasks.countP Task.isInHand < p.config.workers)
    (hlock : t.wanted? = none ∨ ∀ other ∈ c.tasks, other.computed? = none) :
    ∃ c', Step p oracle emitter c c' := by
  obtain ⟨tasks, s, deliveries⟩ := c
  obtain ⟨before, after, rfl⟩ := List.append_of_mem hmem
  obtain ⟨s', t', sent, hmove⟩ := Moves.exists_of_open p oracle emitter s hopen
  refine ⟨_, .move before after hmove (fun hwaiting => ?_) fun key hwanted other hother => ?_⟩
  · have hcount := hfree hwaiting
    simp only [List.countP_append, List.countP_cons] at hcount ⊢
    omega
  · rcases hlock with hnone | hnone
    · rw [hnone] at hwanted
      cases hwanted
    · rw [hnone other (List.perm_middle.mem_iff.2 (List.mem_cons_of_mem _ hother))]
      exact (Option.some_ne_none key).symm

/-- Somebody can always go on: who is computing, or else who has a task in hand, or else whoever
takes one that waits. -/
theorem exists_step (hworkers : 0 < p.config.workers) (oracle : Oracle) (emitter : Emitter σ)
    (hopen : c.isFinished = false) :
    ∃ c', Step p oracle emitter c c' := by
  by_cases hcomputing : ∃ t ∈ c.tasks, t.computed? ≠ none
  · obtain ⟨⟨job, report, stage⟩, hmem, hcomputed⟩ := hcomputing
    cases stage with
    | computing => exact exists_step_of_mem hmem rfl (fun h => by cases h) (.inl rfl)
    | _ => exact absurd rfl hcomputed
  · have hnone : ∀ t ∈ c.tasks, t.computed? = none := by simpa using hcomputing
    by_cases hbusy : ∃ t ∈ c.tasks, t.isInHand
    · obtain ⟨t, hmem, hinhand⟩ := hbusy
      simp only [Task.isInHand, Bool.and_eq_true, Bool.not_eq_true'] at hinhand
      exact exists_step_of_mem hmem hinhand.2 (fun h => by simp [hinhand.1] at h) (.inr hnone)
    · have hcount : c.tasks.countP Task.isInHand = 0 := by simpa using hbusy
      obtain ⟨t, hmem, hunfinished⟩ : ∃ t ∈ c.tasks, t.isFinished = false := by
        simpa [isFinished] using hopen
      exact exists_step_of_mem hmem hunfinished (fun _ => hcount ▸ hworkers) (.inr hnone)

/-- Every run can be brought to its end. -/
theorem exists_finished (hworkers : 0 < p.config.workers) (oracle : Oracle) (emitter : Emitter σ)
    (c : Crew σ) : ∃ c', Steps p oracle emitter c c' ∧ c'.isFinished := by
  induction c using (wellFounded_step p oracle emitter).induction with
  | h c ih =>
    cases hopen : c.isFinished with
    | true => exact ⟨c, .refl, hopen⟩
    | false =>
      obtain ⟨c', hstep⟩ := exists_step hworkers oracle emitter hopen
      obtain ⟨c'', hsteps, hfinished⟩ := ih c' hstep
      exact ⟨c'', .head hstep hsteps, hfinished⟩

/-- While all others are idle, the work on one task is as if it were alone. -/
theorem steps_of_steps (hworkers : 0 < p.config.workers) {before after : List Task}
    (hidle : ∀ t ∈ before ++ after, t.isInHand = false) {w v : Work σ}
    (h : w.Steps p oracle emitter v) :
    Steps p oracle emitter ⟨before ++ w.task :: after, w.shared, w.deliveries⟩
      ⟨before ++ v.task :: after, v.shared, v.deliveries⟩ := by
  have hnone : (before ++ after).countP Task.isInHand = 0 :=
    List.countP_eq_zero.2 fun t ht => by simp [hidle t ht]
  induction h with
  | refl => exact .refl
  | tail _ hstep ih =>
    cases hstep with
    | move deliveries hmove =>
      refine ih.tail
        (.move before after hmove (fun _ => hnone ▸ hworkers) fun key _ other hother => ?_)
      rw [Task.computed?_of_idle (hidle other hother)]
      exact (Option.some_ne_none key).symm

/-- Running the jobs one after the other is one of the orders. -/
theorem steps_runJobs (hworkers : 0 < p.config.workers) (oracle : Oracle) (emitter : Emitter σ)
    (jobs : List Job) (done : List Task) (hdone : ∀ t ∈ done, t.isFinished) (s : Shared σ)
    (deliveries : List Delivery) :
    ∃ tasks deliveries',
      Steps p oracle emitter ⟨done ++ jobs.map Task.ofJob, s, deliveries⟩
        ⟨done ++ tasks, (runJobs p.config p.locales oracle emitter jobs s).2, deliveries'⟩ ∧
      (∀ t ∈ tasks, t.isFinished) ∧
      tasks.map (·.report) = (runJobs p.config p.locales oracle emitter jobs s).1 := by
  induction jobs generalizing done s deliveries with
  | nil => exact ⟨[], deliveries, .refl, by simp, rfl⟩
  | cons job rest ih =>
    obtain ⟨sent, hsteps⟩ := Work.leads_runJob p oracle emitter s job
    rcases hrun : runJob p.config p.locales oracle emitter s job with ⟨report, s'⟩
    simp only [hrun] at hsteps
    have hidle : ∀ t ∈ done ++ rest.map Task.ofJob, t.isInHand = false := by
      intro t ht
      rcases List.mem_append.1 ht with ht | ht
      · simp [Task.isInHand, hdone t ht]
      · obtain ⟨job, -, rfl⟩ := List.mem_map.1 ht
        rfl
    have hfirst := steps_of_steps hworkers hidle (hsteps deliveries)
    obtain ⟨tasks, deliveries', hrest, hfinished, hreports⟩ :=
      ih (done ++ [⟨job, report, .finished⟩])
        (List.forall_mem_append.2 ⟨hdone, by simp [Task.isFinished]⟩) s' (deliveries ++ sent)
    refine ⟨⟨job, report, .finished⟩ :: tasks, deliveries', ?_, ?_, ?_⟩
    · simp only [runJobs, hrun]
      simp only [List.append_assoc, List.singleton_append] at hrest
      exact hfirst.trans hrest
    · exact List.forall_mem_cons.2 ⟨rfl, hfinished⟩
    · simp [runJobs, hrun, hreports]

/-- A run of the pass is one that its workers can bring about. -/
theorem exists_report_eq_run (hworkers : 0 < p.config.workers) (jobs : List Job) (oracle : Oracle)
    (emitter : Emitter σ) (kept : σ) :
    ∃ c, Reachable p jobs oracle emitter kept c ∧ c.isFinished ∧
      c.report = (p.run jobs oracle emitter kept).1 := by
  obtain ⟨tasks, deliveries, hsteps, hfinished, hreports⟩ :=
    steps_runJobs hworkers oracle emitter jobs [] (by simp) (start p jobs kept).shared []
  refine ⟨_, Reachable.start.steps hsteps, ?_, ?_⟩
  · simpa [isFinished] using hfinished
  · simp only [report, List.nil_append, hreports]
    rfl

end Crew

end Localization.Generation
