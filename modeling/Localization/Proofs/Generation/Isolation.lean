import Localization.Proofs.Generation.Progress

namespace Localization.Generation

variable {σ τ : Type} {p : Pass} {oracle oracle' : Oracle} {emitter : Emitter σ}
  {emitter' : Emitter τ} {kept : σ} {answer answer' : Artifact → Except Error Unit}

/-- The emitter's answers do not depend on what it was given before. -/
def Emitter.Answers (emitter : Emitter σ) (answer : Artifact → Except Error Unit) : Prop :=
  ∀ kept a, (emitter.emit kept a).1 = answer a

theorem Emitter.Answers.congr (h : emitter.Answers answer) (h' : emitter'.Answers answer')
    {i : Interface} (hanswer : ∀ a, a.interface = i → answer a = answer' a) (kept : σ) (kept' : τ)
    (a : Artifact) (ha : a.interface = i) :
    (emitter.emit kept a).1 = (emitter'.emit kept' a).1 := by
  rw [h, h', hanswer a ha]

/-- The work on a job goes the same way under an oracle and an emitter that treat its interface
alike. -/
theorem Work.Alone.simulate {job : Job} {w : Work σ} (h : Alone p job oracle emitter kept w)
    (horacle : oracle job.interface = oracle' job.interface)
    (hanswer : ∀ kept kept' a, a.interface = job.interface →
      (emitter.emit kept a).1 = (emitter'.emit kept' a).1) (kept' : τ) :
    ∃ v : Work τ, Alone p job oracle' emitter' kept' v ∧ v.task = w.task ∧
      w.shared.view job.interface = v.shared.view job.interface := by
  induction h using Work.Alone.induction with
  | start => exact ⟨_, .refl, rfl, rfl⟩
  | step s t deliveries s' t' sent halone hmove ih =>
    obtain ⟨⟨_, r, deliveries'⟩, halone', rfl, hview⟩ := ih
    obtain rfl := halone.job_eq
    obtain ⟨r', spent, hmove', hview', -⟩ := hmove.simulate halone.owned hview horacle hanswer
    exact ⟨_, halone'.tail hmove', rfl, hview'⟩

/-- What the pass reports on a single job is the same under an oracle and an emitter that treat its
interface alike. -/
theorem Pass.jobs_run_congr {job : Job} (h : emitter.Answers answer) (h' : emitter'.Answers answer')
    (horacle : oracle job.interface = oracle' job.interface)
    (hanswer : ∀ a, a.interface = job.interface → answer a = answer' a) (kept : σ) (kept' : τ) :
    (p.run [job] oracle emitter kept).1.jobs = (p.run [job] oracle' emitter' kept').1.jobs := by
  obtain ⟨sent, hsteps⟩ := Work.leads_runJob p oracle emitter (Work.start p job kept).shared job
  have halone : Work.Alone p job oracle emitter kept _ := hsteps []
  obtain ⟨v, halone', htask, -⟩ :=
    halone.simulate horacle (h.congr h' hanswer) kept'
  rw [halone.run_eq rfl, halone'.run_eq (htask ▸ rfl), htask]

/-- Where one element of a list comes to yield more, the list comes to yield that much more. -/
theorem perm_flatMap_middle {α β : Type} {f : α → List β} {before after : List α} {a a' : α}
    {all more : List β} (h : all.Perm ((before ++ a :: after).flatMap f))
    (ha : f a' = f a ++ more) : (all ++ more).Perm ((before ++ a' :: after).flatMap f) := by
  have hmiddle (x : α) : ((before ++ x :: after).flatMap f).Perm
      (f x ++ (before ++ after).flatMap f) :=
    List.perm_middle.flatMap_right f
  have hmore : (f a ++ (before ++ after).flatMap f ++ more).Perm
      (f a' ++ (before ++ after).flatMap f) := by
    rw [ha, List.append_assoc, List.append_assoc]
    exact List.perm_append_comm.append_left (f a)
  exact ((h.trans (hmiddle a)).append_right more).trans (hmore.trans (hmiddle a').symm)

namespace Crew

/-- A run of interfaces that differ falls into works that know nothing of each other. -/
structure Split (p : Pass) (jobs : List Job) (oracle : Oracle) (emitter : Emitter σ) (kept : σ)
    (works : List (Work σ)) (c : Crew σ) : Prop where
  jobs_eq : works.map (·.task.job) = jobs
  tasks : works.map (·.task) = c.tasks
  alone : ∀ w ∈ works, w.Alone p w.task.job oracle emitter kept
  view : ∀ w ∈ works, c.shared.view w.task.job.interface = w.shared.view w.task.job.interface
  deliveries : c.deliveries.Perm (works.flatMap (·.deliveries))
  stats : c.shared.cache.stats = (works.map (·.shared.cache.stats)).sum

variable {jobs : List Job} {c c' : Crew σ} {works : List (Work σ)}

theorem split_start (hcache : p.cache = {}) (jobs : List Job) (oracle : Oracle)
    (emitter : Emitter σ) (kept : σ) :
    Split p jobs oracle emitter kept (jobs.map (Work.start p · kept)) (start p jobs kept) where
  jobs_eq := List.map_map.trans (List.map_id jobs)
  tasks := by simp [Work.start, start]
  alone w hw := by
    obtain ⟨job, -, rfl⟩ := List.mem_map.1 hw
    exact .refl
  view w hw := by
    obtain ⟨job, -, rfl⟩ := List.mem_map.1 hw
    rfl
  deliveries := by simp [Work.start, start, List.flatMap_map]
  stats := by
    have hzero : ∀ n ∈ (jobs.map (Work.start p · kept)).map (·.shared.cache.stats), n = 0 := by
      simp [Work.start, hcache, Cache.stats, Cache.size, Cache.Stats.zero_def]
    rw [List.sum_eq_zero hzero]
    simp [start, hcache, Cache.stats, Cache.size, Cache.Stats.zero_def]

theorem sum_stats_eq {before after : List (Work σ)} {w w' : Work σ} {all spent : Cache.Stats}
    (h : all = ((before ++ w :: after).map (·.shared.cache.stats)).sum)
    (hw : w'.shared.cache.stats = w.shared.cache.stats + spent) :
    all + spent = ((before ++ w' :: after).map (·.shared.cache.stats)).sum := by
  have hmiddle (v : Work σ) : ((before ++ v :: after).map (·.shared.cache.stats)).sum =
      v.shared.cache.stats + ((before ++ after).map (·.shared.cache.stats)).sum :=
    (List.perm_middle.map _).sum_eq
  rw [h, hmiddle w, hmiddle w', hw, add_right_comm]

theorem Split.interface_ne {before after : List (Work σ)} {w : Work σ}
    (h : Split p jobs oracle emitter kept (before ++ w :: after) c)
    (hdistinct : (jobs.map Job.interface).Nodup) {v : Work σ} (hv : v ∈ before ++ after) :
    v.task.job.interface ≠ w.task.job.interface := by
  intro heq
  rw [← h.jobs_eq, List.map_map, List.map_append, List.map_cons, List.nodup_middle,
    List.nodup_cons, ← List.map_append] at hdistinct
  exact hdistinct.1 (List.mem_map.2 ⟨v, hv, heq⟩)

/-- A step of the run is a step of one of the works. -/
theorem Split.step (h : Split p jobs oracle emitter kept works c)
    (hdistinct : (jobs.map Job.interface).Nodup) (hanswers : emitter.Answers answer)
    (hstep : Step p oracle emitter c c') :
    ∃ works', Split p jobs oracle emitter kept works' c' := by
  cases hstep with
  | @move s s' t t' deliveries sent before after hmove hfree hlock =>
    obtain ⟨worksBefore, rest, rfl, rfl, hrest⟩ := List.map_eq_append_iff.1 h.tasks
    obtain ⟨⟨t, r, own⟩, worksAfter, rfl, rfl, rfl⟩ := List.map_eq_cons_iff.1 hrest
    have hmem : (⟨t, r, own⟩ : Work σ) ∈ worksBefore ++ ⟨t, r, own⟩ :: worksAfter := by simp
    have hothers : ∀ w ∈ worksBefore ++ worksAfter, w ∈ worksBefore ++ ⟨t, r, own⟩ :: worksAfter :=
      fun w hw => List.perm_middle.mem_iff.2 (List.mem_cons_of_mem _ hw)
    have halone := h.alone _ hmem
    -- What the work sees alone is what it sees in the run, so it can take the step alone as well.
    obtain ⟨r', spent, hmove', hview, hstats, hstats'⟩ :=
      hmove.simulate halone.owned (h.view _ hmem) rfl (hanswers.congr hanswers fun _ _ => rfl)
    refine ⟨worksBefore ++ ⟨t', r', own ++ sent⟩ :: worksAfter, ?_, ?_, ?_, ?_,
      perm_flatMap_middle h.deliveries rfl, hstats.trans (sum_stats_eq h.stats hstats')⟩
    · simpa [hmove.job_eq] using h.jobs_eq
    · simp
    · intro w hw
      rcases List.mem_cons.1 (List.perm_middle.mem_iff.1 hw) with rfl | hw
      · exact hmove.job_eq ▸ halone.tail hmove'
      · exact h.alone w (hothers w hw)
    · intro w hw
      rcases List.mem_cons.1 (List.perm_middle.mem_iff.1 hw) with rfl | hw
      · exact hmove.job_eq ▸ hview
      · exact (hmove.view_of_ne (h.interface_ne hdistinct hw)).trans (h.view w (hothers w hw))

theorem Reachable.split (h : Reachable p jobs oracle emitter kept c) (hcache : p.cache = {})
    (hdistinct : (jobs.map Job.interface).Nodup) (hanswers : emitter.Answers answer) :
    ∃ works, Split p jobs oracle emitter kept works c := by
  induction h with
  | start => exact ⟨_, split_start hcache jobs oracle emitter kept⟩
  | step _ hstep ih =>
    obtain ⟨works, hsplit⟩ := ih
    exact hsplit.step hdistinct hanswers hstep

/-- In the end each work has come to the end that its job alone comes to. -/
theorem Split.forall₂_finished (h : Split p jobs oracle emitter kept works c)
    (hfinished : c.isFinished) :
    List.Forall₂ (fun job w => w.Alone p job oracle emitter kept ∧ w.task.isFinished)
      jobs works := by
  rw [← h.jobs_eq, List.forall₂_map_left_iff, List.forall₂_same]
  intro w hmem
  exact ⟨h.alone w hmem, List.all_eq_true.1 hfinished _ (h.tasks ▸ List.mem_map_of_mem hmem)⟩

theorem Split.works_unique {works' : List (Work σ)} (h : Split p jobs oracle emitter kept works c)
    (h' : Split p jobs oracle emitter kept works' c') (hfinished : c.isFinished)
    (hfinished' : c'.isFinished) : works = works' :=
  List.right_unique_forall₂'
    (fun _ _ _ hw hv => Work.eq_of_steps hw.1 hv.1 hw.2 hv.2)
    (h.forall₂_finished hfinished) (h'.forall₂_finished hfinished')

theorem Split.report_unique (h : Split p jobs oracle emitter kept works c)
    (h' : Split p jobs oracle emitter kept works c') : c.report = c'.report := by
  simp only [report, ← h.tasks, ← h'.tasks, h.stats, h'.stats]

/-- What a finished run reports on its jobs, by the runs of the single ones. -/
theorem Split.forall₂_report (h : Split p jobs oracle emitter kept works c)
    (hfinished : c.isFinished) :
    List.Forall₂ (fun job entry => (p.run [job] oracle emitter kept).1.jobs = [entry]) jobs
      c.report.jobs := by
  have hreports : c.report.jobs = works.map (·.task.report) := by
    simp only [report, ← h.tasks, List.map_map, Function.comp_def]
  rw [hreports, List.forall₂_map_right_iff]
  exact (h.forall₂_finished hfinished).imp fun job w hw => by rw [hw.1.run_eq hw.2]

theorem Split.exists_entry (h : Split p jobs oracle emitter kept works c) (hfinished : c.isFinished)
    {i : Nat} {job : Job} (hjob : jobs[i]? = some job) :
    ∃ entry, c.report.jobs[i]? = some entry ∧
      (p.run [job] oracle emitter kept).1.jobs = [entry] := by
  have hentries := h.forall₂_report hfinished
  obtain ⟨hi, rfl⟩ := List.getElem?_eq_some_iff.1 hjob
  have hi' : i < c.report.jobs.length := hentries.length_eq ▸ hi
  exact ⟨c.report.jobs[i], List.getElem?_eq_getElem hi', hentries.get hi hi'⟩

theorem Split.cache_report (h : Split p jobs oracle emitter kept works c)
    (hfinished : c.isFinished) :
    c.report.cache = (jobs.map fun job => (p.run [job] oracle emitter kept).1.cache).sum := by
  have hstats : List.Forall₂ (fun job w =>
      (p.run [job] oracle emitter kept).1.cache = w.shared.cache.stats) jobs works :=
    (h.forall₂_finished hfinished).imp fun job w hw => by rw [hw.1.run_eq hw.2]
  have hmap : (jobs.map fun job => (p.run [job] oracle emitter kept).1.cache) =
      works.map (·.shared.cache.stats) := by
    rw [← List.forall₂_eq_eq_eq, List.forall₂_map_left_iff, List.forall₂_map_right_iff]
    exact hstats
  exact h.stats.trans (congrArg List.sum hmap.symm)

theorem Run.emitter_eq {events : List Event} (h : Run p jobs emitter kept events c) :
    c.shared.emitter =
      c.deliveries.foldl (fun kept d => (emitter.emit kept d.artifact).2) kept := by
  induction h with
  | start => rfl
  | move before after oracle _ hmove hfree hlock ih =>
    rw [List.foldl_append, ← ih]
    exact hmove.emitter_eq

theorem Reachable.emitter_eq (h : Reachable p jobs oracle emitter kept c) :
    c.shared.emitter =
      c.deliveries.foldl (fun kept d => (emitter.emit kept d.artifact).2) kept := by
  obtain ⟨events, hrun⟩ := h.exists_run
  exact hrun.emitter_eq

theorem Reachable.answer_eq (h : Reachable p jobs oracle emitter kept c)
    (hanswers : emitter.Answers answer) {d : Delivery} (hmem : d ∈ c.deliveries) :
    d.answer = answer d.artifact := by
  induction h with
  | start => cases hmem
  | step _ hstep ih =>
    cases hstep with
    | move before after hmove hfree hlock =>
      rcases List.mem_append.1 hmem with hmem | hmem
      · exact ih hmem
      · exact (hmove.of_mem_sent hmem).2.symm.trans (hanswers _ d.artifact)

/-- Interfaces do not get in each other's way. However a fresh pass's workers go about a run, they
get to an end, and then the report is that of the run one after the other: for each job, in their
order, what a run of that job alone reports, with the sum of the counters of those runs. The
artifacts that the emitter is given differ in their order only. What is reported on a job stays the
same in any other run that treats the job's interface alike, whatever fails there. -/
theorem report_eq_single_runs {config : Config} (hstart : Pass.start config = .ok p)
    (hdistinct : (jobs.map Job.interface).Nodup) (hanswers : emitter.Answers answer)
    (oracle : Oracle) (kept : σ) :
    WellFounded (fun c' c : Crew σ => Step p oracle emitter c c') ∧
      (∀ c : Crew σ, ∃ c', Steps p oracle emitter c c' ∧ c'.isFinished) ∧
      ∀ c, Reachable p jobs oracle emitter kept c → c.isFinished →
        c.report = (p.run jobs oracle emitter kept).1 ∧
        List.Forall₂ (fun job entry => (p.run [job] oracle emitter kept).1.jobs = [entry]) jobs
          c.report.jobs ∧
        c.report.cache = (jobs.map fun job => (p.run [job] oracle emitter kept).1.cache).sum ∧
        c.shared.emitter =
          c.deliveries.foldl (fun kept d => (emitter.emit kept d.artifact).2) kept ∧
        (∀ c', Reachable p jobs oracle emitter kept c' → c'.isFinished →
          c'.deliveries.Perm c.deliveries) ∧
        ∀ (τ : Type) (jobs' : List Job) (oracle' : Oracle) (emitter' : Emitter τ)
          (answer' : Artifact → Except Error Unit) (kept' : τ) (c' : Crew τ),
          (jobs'.map Job.interface).Nodup → emitter'.Answers answer' →
          Reachable p jobs' oracle' emitter' kept' c' → c'.isFinished →
          ∀ (i : Nat) (job : Job), jobs[i]? = some job → jobs'[i]? = some job →
            oracle job.interface = oracle' job.interface →
            (∀ a, a.interface = job.interface → answer a = answer' a) →
            c'.report.jobs[i]? = c.report.jobs[i]? := by
  obtain ⟨hvalid, -, rfl, hcache⟩ := Pass.eq_of_start hstart
  have hworkers := Config.workers_pos hvalid
  refine ⟨wellFounded_step p oracle emitter, exists_finished hworkers oracle emitter, ?_⟩
  intro c hc hfinished
  obtain ⟨works, hsplit⟩ := hc.split hcache hdistinct hanswers
  refine ⟨?_, hsplit.forall₂_report hfinished, hsplit.cache_report hfinished, hc.emitter_eq, ?_, ?_⟩
  · obtain ⟨c', hc', hfinished', hreport⟩ := exists_report_eq_run hworkers jobs oracle emitter kept
    obtain ⟨works', hsplit'⟩ := hc'.split hcache hdistinct hanswers
    obtain rfl := hsplit.works_unique hsplit' hfinished hfinished'
    exact (hsplit.report_unique hsplit').trans hreport
  · intro c' hc' hfinished'
    obtain ⟨works', hsplit'⟩ := hc'.split hcache hdistinct hanswers
    obtain rfl := hsplit.works_unique hsplit' hfinished hfinished'
    exact hsplit'.deliveries.trans hsplit.deliveries.symm
  · intro τ jobs' oracle' emitter' answer' kept' c' hdistinct' hanswers' hc' hfinished' i job hi hi'
      horacle hanswer
    obtain ⟨works', hsplit'⟩ := hc'.split hcache hdistinct' hanswers'
    obtain ⟨entry, hentry, hrun⟩ := hsplit.exists_entry hfinished hi
    obtain ⟨entry', hentry', hrun'⟩ := hsplit'.exists_entry hfinished' hi'
    have hcongr := Pass.jobs_run_congr (p := p) hanswers hanswers' horacle hanswer kept kept'
    rw [hrun, hrun', List.singleton_inj] at hcongr
    rw [hentry, hentry', hcongr]

/-- Of three interfaces the oracle does not know one and the emitter refuses another. Whoever of two
workers takes what when, the first interface comes out the same. -/
theorem report_with_failing_neighbours :
    let config : Config := { locales := ["default", "az"], workers := 2 }
    let oracle := Oracle.ofList
      [(⟨"Menu"⟩, [{ name := "title", default? := some (.text "Home") }]), (⟨"Dialog"⟩, [])]
    let emitter : Emitter Unit :=
      { emit := fun _ a =>
          (if a.className = "Dialog_default" then .error (.notEmitted a.className "disk full")
            else .ok (), ()) }
    let jobs : List Job := [⟨.messages, .empty ⟨"Menu"⟩⟩, ⟨.messages, .empty ⟨"Status"⟩⟩,
      ⟨.constants, .empty ⟨"Dialog"⟩⟩]
    ∃ p, Pass.start config = .ok p ∧
      ∃ c, Reachable p jobs oracle emitter () c ∧ c.isFinished ∧
        c.report.jobs =
          [{ interface := ⟨"Menu"⟩, emitted := ["Menu_default"],
             reused := [({ language := "az" }, "Menu_default")] },
           { interface := ⟨"Status"⟩,
             error? := some (.unknownMethods ⟨"Status"⟩ "interface is not declared") },
           { interface := ⟨"Dialog"⟩,
             error? := some (.notEmitted "Dialog_default" "disk full") }] := by
  intro config oracle emitter jobs
  have hstart : Pass.start config = .ok ⟨config, [.root, { language := "az" }], {}⟩ := rfl
  have hdistinct : (jobs.map Job.interface).Nodup := by decide
  have hanswers : emitter.Answers fun a => (emitter.emit () a).1 := fun _ _ => rfl
  refine ⟨_, hstart, ?_⟩
  obtain ⟨-, hend, hreport⟩ := report_eq_single_runs hstart hdistinct hanswers oracle ()
  obtain ⟨c, hsteps, hfinished⟩ := hend (start _ jobs ())
  have hreachable := Reachable.start.steps hsteps
  refine ⟨c, hreachable, hfinished, ?_⟩
  rw [(hreport c hreachable hfinished).1]
  decide

end Crew

end Localization.Generation
