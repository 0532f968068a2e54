import Localization.Proofs.Generation.Binding
import Localization.Proofs.Generation.Isolation

namespace Localization.Generation

/-- The artifact whose class is marked and that the emitter does not have yet. -/
def Stage.pending : Stage → List Artifact
  | .emitting _ artifact _ => [artifact]
  | _ => []

/-- What a stage has to do with the job, when some of the locales were handled before. -/
def Stage.Follows (job : Job) (oracle : Oracle) (locales handled : List Locale) : Stage → Prop
  | .waiting => handled = []
  | .resolving methods rest =>
    oracle job.interface = .ok methods ∧ locales = handled ++ rest
  | .computing methods locale rest =>
    oracle job.interface = .ok methods ∧ locales = handled ++ locale :: rest
  | .binding methods locale rest resolution =>
    oracle job.interface = .ok methods ∧ resolution = job.catalog.resolve locale ∧
      locales = handled ++ locale :: rest
  | .emitting methods _ rest =>
    oracle job.interface = .ok methods ∧ locales = handled ++ rest
  | .finished => True

/-- Among some artifacts there is one for an earlier locale with the class that binding a locale
gives. -/
def Served (p : Pass) (job : Job) (oracle : Oracle) (artifacts : List Artifact) (locale : Locale)
    (className : String) : Prop :=
  ∃ before after a b, p.locales = before ++ locale :: after ∧ a ∈ artifacts ∧
    a.requested ∈ before ∧ a.className = className ∧ (p.bind job oracle locale).1 = .ok b ∧
    b.className = className

theorem Served.mono {p : Pass} {job : Job} {oracle : Oracle} {artifacts more : List Artifact}
    {locale : Locale} {className : String} (h : Served p job oracle artifacts locale className)
    (hsub : artifacts ⊆ more) : Served p job oracle more locale className := by
  obtain ⟨before, after, a, b, hlocales, hmem, hrest⟩ := h
  exact ⟨before, after, a, b, hlocales, hsub hmem, hrest⟩

namespace Work

variable {σ : Type} {p : Pass} {job : Job} {oracle : Oracle} {emitter : Emitter σ}
  {handled : List Locale} {s s' : Shared σ} {t t' : Task} {deliveries sent : List Delivery}

/-- The artifacts whose classes were marked. -/
def artifacts (w : Work σ) : List Artifact :=
  w.deliveries.map (·.artifact) ++ w.task.stage.pending

/-- The work on a job does what it reports: the cache has the job's own resolutions, the marked
classes are those of its artifacts, each class of one artifact, each artifact is what binding its
locale gives, and each reuse is of one for an earlier locale. -/
structure Faithful (p : Pass) (job : Job) (oracle : Oracle) (handled : List Locale) (w : Work σ) :
    Prop where
  stage : w.task.stage.Follows job oracle p.locales handled
  cached : ∀ locale resolution,
    (w.shared.view job.interface).resolution? locale = some resolution →
      resolution = job.catalog.resolve locale
  marked : ∀ className,
    (w.shared.view job.interface).IsMarked className ↔ className ∈ w.artifacts.map (·.className)
  nodup : (w.artifacts.map (·.className)).Nodup
  bound : ∀ a ∈ w.artifacts, a.requested ∈ handled ∧ (p.bind job oracle a.requested).1 = .ok a
  reused : ∀ e ∈ w.task.report.reused,
    Served p job oracle (w.deliveries.map (·.artifact)) e.1 e.2

namespace Faithful

theorem start (hcache : p.cache = {}) (job : Job) (oracle : Oracle) (kept : σ) :
    Faithful p job oracle [] (Work.start p job kept) where
  stage := rfl
  cached locale resolution hget := by
    simp [Work.start, Shared.view, hcache, Cache.get?] at hget
  marked className := by simp [Work.start, Shared.view, artifacts, Task.ofJob, Stage.pending]
  nodup := by simp [Work.start, artifacts, Task.ofJob, Stage.pending]
  bound := by simp [Work.start, artifacts, Task.ofJob, Stage.pending]
  reused := by simp [Work.start, Task.ofJob]

/-- It is all the same whether the emitter has the last artifact yet. -/
theorem congr {w w' : Work σ} (h : Faithful p job oracle handled w)
    (hstage : w'.task.stage.Follows job oracle p.locales handled)
    (hartifacts : w'.artifacts = w.artifacts)
    (hview : w'.shared.view job.interface = w.shared.view job.interface)
    (hreused : w'.task.report.reused = w.task.report.reused)
    (hdeliveries : w.deliveries ⊆ w'.deliveries) : Faithful p job oracle handled w' := by
  refine ⟨hstage, ?_, ?_, ?_, ?_, ?_⟩
  · rw [hview]
    exact h.cached
  · rw [hview, hartifacts]
    exact h.marked
  · rw [hartifacts]
    exact h.nodup
  · rw [hartifacts]
    exact h.bound
  · rw [hreused]
    exact fun e he => (h.reused e he).mono (List.map_subset _ hdeliveries)

/-- A step that marks, delivers and reuses nothing. -/
theorem of_quiet (h : Faithful p job oracle handled ⟨t, s, deliveries⟩)
    (hstage : t'.stage.Follows job oracle p.locales handled)
    (hpending : t'.stage.pending = t.stage.pending)
    (hview : s'.view job.interface = s.view job.interface)
    (hreused : t'.report.reused = t.report.reused) :
    Faithful p job oracle handled ⟨t', s', deliveries ++ []⟩ :=
  h.congr hstage (by simp [artifacts, hpending]) hview hreused (by simp)

theorem of_store {report : JobReport} {methods : List Method} {locale : Locale} {rest : List Locale}
    (h : Faithful p job oracle handled
      ⟨⟨job, report, .computing methods locale rest⟩, s, deliveries⟩) :
    Faithful p job oracle handled
      ⟨⟨job, report, .binding methods locale rest (job.catalog.resolve locale)⟩,
        s.withCache
          (s.cache.store { interface := job.interface, locale } (job.catalog.resolve locale)).2,
        deliveries ++ []⟩ := by
  rw [List.append_nil]
  refine ⟨⟨h.stage.1, rfl, h.stage.2⟩, ?_, ?_, h.nodup, h.bound, h.reused⟩
  · intro other resolution hget
    simp only [Shared.view_store_self, View.keep] at hget
    by_cases hlocale : other = locale
    · rw [if_pos hlocale] at hget
      cases hget
      rw [hlocale]
    · rw [if_neg hlocale] at hget
      exact h.cached other resolution hget
  · rw [Shared.view_store_self]
    exact h.marked

theorem of_reuse {report : JobReport} {methods : List Method} {locale : Locale} {rest : List Locale}
    {artifact : Artifact}
    (h : Faithful p job oracle handled
      ⟨⟨job, report, .binding methods locale rest (job.catalog.resolve locale)⟩, s, deliveries⟩)
    (hbind : (p.bind job oracle locale).1 = .ok artifact)
    (hmark : (job.interface, artifact.className) ∈ s.classes) :
    Faithful p job oracle (handled ++ [locale])
      ⟨⟨job, { report with reused := report.reused ++ [(locale, artifact.className)] },
        .resolving methods rest⟩, s, deliveries ++ []⟩ := by
  obtain ⟨hmethods, -, hlocales⟩ := h.stage
  rw [List.append_nil]
  refine ⟨⟨hmethods, by simp [hlocales]⟩, h.cached, h.marked, h.nodup, ?_, ?_⟩
  · intro a ha
    exact (h.bound a ha).imp (List.mem_append_left [locale]) id
  · intro e he
    rcases List.mem_append.1 he with he | he
    · exact h.reused e he
    · obtain rfl := List.mem_singleton.1 he
      obtain ⟨a, ha, hclass⟩ := List.mem_map.1 ((h.marked artifact.className).1 hmark)
      have hrequested := (h.bound a ha).1
      -- Nothing is pending while a locale is bound, so the emitter has the artifact.
      simp only [artifacts, Stage.pending, List.append_nil] at ha
      exact ⟨handled, rest, a, artifact, hlocales, ha, hrequested, hclass, hbind, rfl⟩

theorem of_mark {report : JobReport} {methods : List Method} {locale : Locale} {rest : List Locale}
    {artifact : Artifact}
    (h : Faithful p job oracle handled
      ⟨⟨job, report, .binding methods locale rest (job.catalog.resolve locale)⟩, s, deliveries⟩)
    (hreuse : p.config.reuseEquivalentArtifacts)
    (hbind : (p.bind job oracle locale).1 = .ok artifact) (hrequested : artifact.requested = locale)
    (hmark : (job.interface, artifact.className) ∉ s.classes) :
    Faithful p job oracle (handled ++ [locale])
      ⟨⟨job, report, .emitting methods artifact rest⟩,
        s.mark p.config job.interface artifact.className, deliveries ++ []⟩ := by
  obtain ⟨hmethods, -, hlocales⟩ := h.stage
  have hartifacts : artifacts ⟨⟨job, report, .emitting methods artifact rest⟩,
        s.mark p.config job.interface artifact.className, deliveries⟩ =
      artifacts ⟨⟨job, report, .binding methods locale rest (job.catalog.resolve locale)⟩, s,
        deliveries⟩ ++ [artifact] := by
    simp [artifacts, Stage.pending]
  rw [List.append_nil]
  refine ⟨⟨hmethods, by simp [hlocales]⟩, ?_, ?_, ?_, ?_, h.reused⟩
  · rw [Shared.view_mark_self]
    exact h.cached
  · intro className
    have hbefore := h.marked className
    rw [hartifacts, Shared.view_mark_self]
    simp only [View.mark, hbefore, hreuse, true_and, List.map_append, List.mem_append,
      List.map_singleton, List.mem_singleton]
    exact Or.comm
  · rw [hartifacts, List.map_append, List.map_singleton]
    have hnew := mt (h.marked artifact.className).2 hmark
    exact h.nodup.append (List.nodup_singleton _) (List.disjoint_singleton.2 hnew)
  · intro a ha
    rw [hartifacts] at ha
    rcases List.mem_append.1 ha with ha | ha
    · exact (h.bound a ha).imp (List.mem_append_left [locale]) id
    · obtain rfl := List.mem_singleton.1 ha
      rw [hrequested]
      exact ⟨by simp, hbind⟩

theorem step (h : Faithful p job oracle handled ⟨t, s, deliveries⟩) (hjob : t.job = job)
    (hcache : p.cache = {}) (hreuse : p.config.reuseEquivalentArtifacts)
    (hmove : Moves p oracle emitter s t s' t' sent) :
    ∃ handled', Faithful p job oracle handled' ⟨t', s', deliveries ++ sent⟩ := by
  obtain ⟨job', report, stage⟩ := t
  obtain rfl : job' = job := hjob
  cases hmove with
  | refuse horacle => exact ⟨handled, h.of_quiet trivial rfl rfl rfl⟩
  | take horacle =>
    obtain rfl : handled = [] := h.stage
    exact ⟨[], h.of_quiet ⟨horacle, rfl⟩ rfl rfl rfl⟩
  | finish => exact ⟨handled, h.of_quiet trivial rfl rfl rfl⟩
  | hit hget =>
    have hresolution := h.cached _ _ (Option.map_eq_some_iff.2 ⟨_, hget, rfl⟩)
    exact ⟨handled, h.of_quiet ⟨h.stage.1, hresolution, h.stage.2⟩ rfl rfl rfl⟩
  | miss hget => exact ⟨handled, h.of_quiet h.stage rfl rfl rfl⟩
  | store =>
    exact ⟨handled, h.of_store⟩
  | fail hbind => exact ⟨handled, h.of_quiet trivial rfl rfl rfl⟩
  | reuse hbind _ hmark =>
    obtain ⟨hmethods, rfl, -⟩ := h.stage
    exact ⟨_, h.of_reuse ((Pass.bind_of_fresh hcache hmethods _).trans hbind) hmark⟩
  | mark hbind hmark =>
    obtain ⟨hmethods, rfl, -⟩ := h.stage
    obtain ⟨-, -, -, hrequested, -⟩ := bindMethods_eq_ok_iff.1 hbind
    exact ⟨_, h.of_mark hreuse ((Pass.bind_of_fresh hcache hmethods _).trans hbind) hrequested
      (hmark hreuse)⟩
  | deliver hemit =>
    exact ⟨handled, h.congr h.stage (by simp [artifacts, Stage.pending]) rfl rfl (by simp)⟩
  | reject hemit =>
    exact ⟨handled, h.congr trivial (by simp [artifacts, Stage.pending]) rfl rfl (by simp)⟩

end Faithful

theorem Alone.faithful {kept : σ} {w : Work σ} (h : Alone p job oracle emitter kept w)
    (hcache : p.cache = {}) (hreuse : p.config.reuseEquivalentArtifacts) :
    ∃ handled, Faithful p job oracle handled w := by
  induction h using Alone.induction with
  | start => exact ⟨[], .start hcache job oracle kept⟩
  | step s t deliveries s' t' sent halone hmove ih =>
    obtain ⟨handled, hfaithful⟩ := ih
    exact hfaithful.step halone.job_eq hcache hreuse hmove

/-- What is delivered is of one class once. -/
theorem Faithful.eq_of_className_eq {w : Work σ} (h : Faithful p job oracle handled w)
    {a b : Artifact} (ha : a ∈ w.deliveries.map (·.artifact))
    (hb : b ∈ w.deliveries.map (·.artifact)) (hclass : a.className = b.className) : a = b :=
  List.inj_on_of_nodup_map h.nodup (List.mem_append_left _ ha) (List.mem_append_left _ hb) hclass

end Work

namespace Crew

variable {σ : Type} {p : Pass} {jobs : List Job} {oracle : Oracle} {emitter : Emitter σ} {kept : σ}
  {c : Crew σ} {works : List (Work σ)}

/-- What a run delivers for an interface comes from the work on it. -/
theorem Split.mem_deliveries (h : Split p jobs oracle emitter kept works c)
    (hdistinct : (jobs.map Job.interface).Nodup) {w : Work σ} (hw : w ∈ works) {d : Delivery} :
    d ∈ w.deliveries ↔ d ∈ c.deliveries ∧ d.artifact.interface = w.task.job.interface := by
  rw [h.deliveries.mem_iff, List.mem_flatMap]
  constructor
  · intro hd
    exact ⟨⟨w, hw, hd⟩, (h.alone w hw).interface_of_mem_deliveries hd⟩
  · rintro ⟨⟨v, hv, hd⟩, hinterface⟩
    have hnodup : (works.map fun w => w.task.job.interface).Nodup := by
      rw [← h.jobs_eq, List.map_map] at hdistinct
      exact hdistinct
    have hsame := ((h.alone v hv).interface_of_mem_deliveries hd).symm.trans hinterface
    exact List.inj_on_of_nodup_map hnodup hv hw hsame ▸ hd

/-- Whenever a run has reported that a locale is served by the class of an earlier artifact, just
one artifact of the interface with that class was delivered, and it is for an earlier locale. It is
what binding the locale gives, in its effective locale and its methods, unless one of the effective
locales is root and the other the language `default`. -/
theorem reused_artifact_agrees_iff {config : Config} (hstart : Pass.start config = .ok p)
    (hreuse : config.reuseEquivalentArtifacts) (hdistinct : (jobs.map Job.interface).Nodup)
    (haccepts : emitter.Answers fun _ => .ok ()) (hc : Reachable p jobs oracle emitter kept c)
    {t : Task} (ht : t ∈ c.tasks) {locale : Locale} {className : String}
    (hreused : (locale, className) ∈ t.report.reused) :
    ∃ before after a b, p.locales = before ++ locale :: after ∧ a.requested ∈ before ∧
      ⟨a, .ok ()⟩ ∈ c.deliveries ∧ a.interface = t.job.interface ∧ a.className = className ∧
      (∀ d ∈ c.deliveries, d.artifact.interface = t.job.interface →
        d.artifact.className = className → d.artifact = a) ∧
      (p.bind t.job oracle locale).1 = .ok b ∧ b.className = className ∧
      (a.effective = b.effective ∧ a.methods = b.methods ↔ ¬a.effective.Clash b.effective) := by
  obtain ⟨-, -, rfl, hcache⟩ := Pass.eq_of_start hstart
  obtain ⟨works, hsplit⟩ := hc.split hcache hdistinct haccepts
  obtain ⟨w, hw, rfl⟩ := List.mem_map.1 (hsplit.tasks ▸ ht)
  obtain ⟨handled, hfaithful⟩ := (hsplit.alone w hw).faithful hcache hreuse
  obtain ⟨before, after, a, b, hlocales, ha, hrequested, hclass, hb, hclass'⟩ :=
    hfaithful.reused _ hreused
  obtain ⟨d, hd, rfl⟩ := List.mem_map.1 ha
  obtain ⟨hdelivered, hinterface⟩ := (hsplit.mem_deliveries hdistinct hw).1 hd
  have hanswer : d = ⟨d.artifact, .ok ()⟩ := by
    rw [← hc.answer_eq haccepts hdelivered]
  have hbound := (hfaithful.bound d.artifact (List.mem_append_left _ ha)).2
  have hearlier : d.artifact.requested ∈ p.locales := hlocales ▸ List.mem_append_left _ hrequested
  have hlater : locale ∈ p.locales := hlocales ▸ by simp
  refine ⟨before, after, d.artifact, b, hlocales, hrequested, hanswer ▸ hdelivered, hinterface,
    hclass, ?_, hb, hclass', ?_⟩
  · intro other hother hinterface' hclass''
    have hmem := (hsplit.mem_deliveries hdistinct hw).2 ⟨hother, hinterface'⟩
    exact hfaithful.eq_of_className_eq (List.mem_map_of_mem hmem) ha (hclass''.trans hclass.symm)
  · exact artifacts_agree_iff hcache (Pass.canonical_of_mem_locales hstart hearlier)
      (Pass.canonical_of_mem_locales hstart hlater) hbound hb (hclass.trans hclass'.symm)

/-- With bundles for root and `az`, the locale `az_Cyrl` is served by the artifact for `az`. -/
theorem reused_artifact_agrees_az :
    let config : Config := { locales := ["default", "az", "az_Cyrl"] }
    let oracle := Oracle.ofList [(⟨"Menu"⟩, [{ name := "title" }])]
    let made : Except Localization.Error Catalog := do
      let root ← Bundle.ofDeclarations ⟨"Menu"⟩ .root none [.default "title" (.text "Home")]
      let az ← Bundle.ofDeclarations ⟨"Menu"⟩ { language := "az" } none
        [.default "title" (.text "Ev")]
      Catalog.ofList ⟨"Menu"⟩ [root, az]
    ∃ catalog p, made = .ok catalog ∧ Pass.start config = .ok p ∧
      ∃ c, Reachable p [⟨.constants, catalog⟩] oracle Emitter.collecting [] c ∧
        ∃ a b, ⟨a, .ok ()⟩ ∈ c.deliveries ∧ a.className = "Menu_az" ∧
          (p.bind ⟨.constants, catalog⟩ oracle { language := "az", script := "Cyrl" }).1 = .ok b ∧
          a.effective = b.effective ∧ a.methods = b.methods := by
  intro config oracle made
  let locales : List Locale := [.root, { language := "az" }, { language := "az", script := "Cyrl" }]
  have hstart : Pass.start config = .ok ⟨config, locales, {}⟩ := rfl
  obtain ⟨catalog, hmade, hrun, b', hbind', heffective⟩ : ∃ catalog, made = .ok catalog ∧
      ((⟨config, locales, {}⟩ : Pass).run [⟨.constants, catalog⟩] oracle
          Emitter.collecting []).1.jobs =
        [{ interface := ⟨"Menu"⟩
           emitted := ["Menu_default", "Menu_az"]
           reused := [({ language := "az", script := "Cyrl" }, "Menu_az")] }] ∧
      ∃ b, ((⟨config, locales, {}⟩ : Pass).bind ⟨.constants, catalog⟩ oracle
          { language := "az", script := "Cyrl" }).1 = .ok b ∧ b.effective = { language := "az" } :=
    ⟨_, rfl, rfl, _, rfl, rfl⟩
  have hdistinct : ([(⟨.constants, catalog⟩ : Job)].map Job.interface).Nodup :=
    List.nodup_singleton _
  obtain ⟨c, hc, -, hreport⟩ := exists_report_eq_run (p := ⟨config, locales, {}⟩) (by decide)
    [⟨.constants, catalog⟩] oracle Emitter.collecting []
  obtain ⟨t, htasks, hjob⟩ := List.map_eq_singleton_iff.1 hc.map_job_eq
  have hentry : ({ language := "az", script := "Cyrl" }, "Menu_az") ∈ t.report.reused := by
    have hjobs := (congrArg Report.jobs hreport).trans hrun
    simp only [report, htasks, List.map_singleton, List.singleton_inj] at hjobs
    simp [hjobs]
  obtain ⟨before, after, a, b, -, -, hdelivered, -, hclass, -, hbind, -, hagree⟩ :=
    reused_artifact_agrees_iff hstart rfl hdistinct (fun _ _ => rfl) hc
      (htasks ▸ List.mem_singleton_self t) hentry
  rw [hjob] at hbind
  obtain rfl : b = b' := Except.ok.inj (hbind.symm.trans hbind')
  have hclash : ¬a.effective.Clash b.effective := by
    rw [heffective]
    rintro (⟨-, h⟩ | ⟨-, h⟩) <;> revert h <;> decide
  exact ⟨catalog, _, hmade, hstart, c, hc, a, b, hdelivered, hclass, hbind, hagree.2 hclash⟩

/-- The artifact for root is taken to serve the language `default` too, which has a bundle of its
own. -/
theorem reused_artifact_differs_default_AZ :
    let config : Config := { locales := ["default", "default_AZ"] }
    let oracle := Oracle.ofList [(⟨"Menu"⟩, [{ name := "title" }])]
    let made : Except Localization.Error Catalog := do
      let root ← Bundle.ofDeclarations ⟨"Menu"⟩ .root none [.default "title" (.text "Home")]
      let namesake ← Bundle.ofDeclarations ⟨"Menu"⟩ { language := "default" } none
        [.default "title" (.text "Other")]
      Catalog.ofList ⟨"Menu"⟩ [root, namesake]
    ∃ catalog p, made = .ok catalog ∧ Pass.start config = .ok p ∧
      ∃ a b p',
        p.run [⟨.constants, catalog⟩] oracle Emitter.collecting [] =
          ({ jobs :=
              [{ interface := ⟨"Menu"⟩
                 emitted := ["Menu_default"]
                 reused := [({ language := "default", region := "AZ" }, "Menu_default")] }]
             cache := ⟨2, 0, 2, 2⟩ }, [a], p') ∧
        (p.bind ⟨.constants, catalog⟩ oracle { language := "default", region := "AZ" }).1 = .ok b ∧
        a.effective ≠ b.effective ∧ a.methods ≠ b.methods := by
  intro config oracle made
  refine ⟨_, ⟨config, [.root, { language := "default", region := "AZ" }], {}⟩, rfl, rfl, _, _, _,
    rfl, rfl, ?_, ?_⟩ <;> decide

end Crew

end Localization.Generation
