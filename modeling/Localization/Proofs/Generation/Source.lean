import Localization.Proofs.Generation.Emission

namespace Localization

namespace Generation

theorem firstAsked?_append (events more : List Event) (key : Cache.Key) :
    firstAsked? (events ++ more) key = (firstAsked? events key).or (firstAsked? more key) :=
  List.findSome?_append

theorem firstAsked?_mono {events : List Event} {key : Cache.Key} {source : Job}
    (h : firstAsked? events key = some source) (more : List Event) :
    firstAsked? (events ++ more) key = some source := by
  rw [firstAsked?_append, h]
  rfl

/-- Who was asked for first was asked for, and for this interface. -/
theorem of_firstAsked? {events : List Event} {key : Cache.Key} {source : Job}
    (h : firstAsked? events key = some source) :
    source.interface = key.interface ∧ .asked source key.locale ∈ events := by
  obtain ⟨event, hmem, hsome⟩ := List.exists_of_findSome?_eq_some h
  cases event with
  | asked job locale =>
    simp only [Option.ite_none_right_eq_some] at hsome
    obtain ⟨⟨hinterface, rfl⟩, ⟨⟩⟩ := hsome
    exact ⟨hinterface, hmem⟩
  | told => cases hsome
  | bound => cases hsome

theorem firstAsked?_told (job : Job) (answer : Except Error (List Method))
    (key : Cache.Key) : firstAsked? [.told job answer] key = none := rfl

theorem firstAsked?_asked (job : Job) (locale : Locale) (key : Cache.Key) :
    firstAsked? [.asked job locale] key =
      if key = { interface := job.interface, locale } then some job else none := by
  obtain ⟨interface, requested⟩ := key
  have hkey : job.interface = interface ∧ locale = requested ↔
      ({ interface, locale := requested } : Cache.Key) =
        { interface := job.interface, locale } := by
    rw [Cache.Key.mk.injEq, eq_comm, eq_comm (a := locale)]
  by_cases h : job.interface = interface ∧ locale = requested
  · simp only [firstAsked?, List.findSome?_cons, if_pos h, if_pos (hkey.1 h)]
  · simp only [firstAsked?, List.findSome?_cons, if_neg h, if_neg (mt hkey.2 h)]
    rfl

/-- Only a task that is about to ask the cache adds to what was asked for. -/
theorem firstAsked?_events (t : Task) (config : Config) (oracle : Oracle) (key : Cache.Key) :
    firstAsked? (t.events config oracle) key =
      if t.wanted? = some key then some t.job else none := by
  obtain ⟨job, report, stage⟩ := t
  cases stage with
  | resolving methods locales =>
    cases locales with
    | nil => rfl
    | cons locale rest =>
      simp only [Task.events, Task.wanted?, firstAsked?_asked, Option.some.injEq, eq_comm]
  | _ => rfl

/-- The result is what binding the job gives for what is resolved from the job of its interface that
the locale was asked for first. -/
def Explained (config : Config) (events : List Event) (job : Job) (locale : Locale)
    (result : Except Error Artifact) : Prop :=
  ∃ source methods, firstAsked? events { interface := job.interface, locale } = some source ∧
    .told job (.ok methods) ∈ events ∧
    result = bindMethods config job methods locale (source.catalog.resolve locale)

theorem Explained.mono {config : Config} {events : List Event} {job : Job} {locale : Locale}
    {result : Except Error Artifact} (h : Explained config events job locale result)
    (more : List Event) : Explained config (events ++ more) job locale result := by
  obtain ⟨source, methods, hfirst, htold, hresult⟩ := h
  exact ⟨source, methods, firstAsked?_mono hfirst more, List.mem_append_left _ htold, hresult⟩

/-- The methods that a task works with were told, a key that it computes was asked for first for its
job, and what it binds comes from the job for which the key was. -/
def Task.Grounded (events : List Event) (t : Task) : Prop :=
  match t.stage with
  | .resolving methods _ => .told t.job (.ok methods) ∈ events
  | .computing methods locale _ =>
    .told t.job (.ok methods) ∈ events ∧
      firstAsked? events { interface := t.job.interface, locale } = some t.job
  | .binding methods locale _ resolution =>
    .told t.job (.ok methods) ∈ events ∧
      ∃ source, firstAsked? events { interface := t.job.interface, locale } = some source ∧
        resolution = source.catalog.resolve locale
  | .emitting methods _ _ => .told t.job (.ok methods) ∈ events
  | _ => True

theorem Task.computed?_of_wanted {t : Task} {key : Cache.Key} (h : t.wanted? = some key) :
    t.computed? = none := by
  obtain ⟨job, report, stage⟩ := t
  cases stage with
  | computing => cases h
  | _ => rfl

namespace Task.Grounded

variable {events : List Event} {t : Task}

theorem mono (h : t.Grounded events) (more : List Event) : t.Grounded (events ++ more) := by
  obtain ⟨job, report, stage⟩ := t
  cases stage with
  | resolving | emitting => exact List.mem_append_left _ h
  | computing => exact ⟨List.mem_append_left _ h.1, firstAsked?_mono h.2 more⟩
  | binding =>
    obtain ⟨htold, source, hfirst, hresolution⟩ := h
    exact ⟨List.mem_append_left _ htold, source, firstAsked?_mono hfirst more, hresolution⟩
  | waiting | finished => trivial

theorem firstAsked?_computed (h : t.Grounded events) {key : Cache.Key}
    (hcomputed : t.computed? = some key) : firstAsked? events key = some t.job := by
  obtain ⟨job, report, stage⟩ := t
  cases stage with
  | computing =>
    cases hcomputed
    exact h.2
  | _ => cases hcomputed

theorem explained (h : t.Grounded events) {config : Config} {oracle : Oracle} {job : Job}
    {locale : Locale} {result : Except Error Artifact}
    (hbound : .bound job locale result ∈ t.events config oracle) :
    Explained config events job locale result := by
  obtain ⟨own, report, stage⟩ := t
  cases stage with
  | binding methods requested rest resolution =>
    cases List.mem_singleton.1 hbound
    obtain ⟨htold, source, hfirst, rfl⟩ := h
    exact ⟨source, methods, hfirst, htold, rfl⟩
  | resolving methods locales => cases locales <;> simp [Task.events] at hbound
  | _ => simp [Task.events] at hbound

end Task.Grounded

namespace Moves

variable {σ : Type} {p : Pass} {oracle : Oracle} {emitter : Emitter σ} {s s' : Shared σ}
  {t t' : Task} {sent : List Delivery}

/-- A step stores nothing but what it computed. -/
theorem resolution_get? (h : Moves p oracle emitter s t s' t' sent) (key : Cache.Key) :
    (s'.cache.get? key).map (·.resolution) =
      if t.computed? = some key then some (t.job.catalog.resolve key.locale)
      else (s.cache.get? key).map (·.resolution) := by
  cases h with
  | @store job _ methods locale rest =>
    simp only [Task.computed?, Option.some.injEq]
    split
    · rename_i hkey
      subst hkey
      simp only [Shared.withCache, Cache.get?_store_self]
      rfl
    · rename_i hkey
      simp only [Shared.withCache, Cache.get?_store_of_ne _ (Ne.symm hkey)]
  | _ => rfl

/-- Who asks the cache is answered or computes the key. -/
theorem of_wanted (h : Moves p oracle emitter s t s' t' sent) {key : Cache.Key}
    (hwanted : t.wanted? = some key) :
    (s.cache.get? key).isSome ∨ t'.computed? = some key := by
  cases h with
  | hit hget =>
    cases hwanted
    exact .inl (Option.isSome_of_eq_some hget)
  | miss hget =>
    cases hwanted
    exact .inr rfl
  | _ => cases hwanted

/-- A task stays grounded if the cache tells it what the job resolves to that a key was asked for
first. -/
theorem grounded (h : Moves p oracle emitter s t s' t' sent) {events : List Event}
    (hgrounded : t.Grounded events)
    (hcached : ∀ key, t.wanted? = some key → (s.cache.get? key).map (·.resolution) =
      (firstAsked? events key).map (·.catalog.resolve key.locale)) :
    t'.Grounded (events ++ t.events p.config oracle) := by
  cases h with
  | refuse | finish | fail | reject => trivial
  | take horacle => simp [Task.Grounded, Task.events, horacle]
  | hit hget =>
    have hfirst := hcached _ rfl
    rw [hget] at hfirst
    obtain ⟨source, hsource, hresolution⟩ := Option.map_eq_some_iff.1 hfirst.symm
    exact ⟨List.mem_append_left _ hgrounded, source, firstAsked?_mono hsource _,
      hresolution.symm⟩
  | miss hget =>
    have hfirst := hcached _ rfl
    rw [hget] at hfirst
    have hnone := Option.map_eq_none_iff.1 hfirst.symm
    refine ⟨List.mem_append_left _ hgrounded, ?_⟩
    rw [firstAsked?_append, hnone, firstAsked?_events]
    exact if_pos rfl
  | store =>
    obtain ⟨htold, hfirst⟩ := hgrounded
    exact ⟨List.mem_append_left _ htold, _, firstAsked?_mono hfirst _, rfl⟩
  | reuse | mark => exact List.mem_append_left _ hgrounded.1
  | deliver => exact List.mem_append_left _ hgrounded

end Moves

/-- The cache has for each key, unless one of the tasks is computing it, what is resolved from the
job that it was asked for first, and every binding is explained by that. -/
structure Sourced (config : Config) (events : List Event) (tasks : List Task) (cache : Cache) :
    Prop where
  grounded : ∀ t ∈ tasks, t.Grounded events
  cached : ∀ key, (∀ t ∈ tasks, t.computed? ≠ some key) →
    (cache.get? key).map (·.resolution) =
      (firstAsked? events key).map (·.catalog.resolve key.locale)
  bound : ∀ job locale result, .bound job locale result ∈ events →
    Explained config events job locale result

namespace Sourced

variable {σ : Type} {p : Pass} {events : List Event}

theorem move {oracle : Oracle} {emitter : Emitter σ} {s s' : Shared σ} {t t' : Task}
    {sent : List Delivery} {before after : List Task}
    (h : Sourced p.config events (before ++ t :: after) s.cache)
    (hmove : Moves p oracle emitter s t s' t' sent)
    (hlock : ∀ key, t.wanted? = some key →
      ∀ other ∈ before ++ after, other.computed? ≠ some key) :
    Sourced p.config (events ++ t.events p.config oracle) (before ++ t' :: after) s'.cache := by
  obtain ⟨hgrounded, hothers⟩ := Crew.forall_mem_middle.1 h.grounded
  refine ⟨?_, fun key hidle => ?_, fun job locale result hmem => ?_⟩
  · refine Crew.forall_mem_middle.2 ⟨hmove.grounded hgrounded fun key hwanted => ?_,
      fun u hu => (hothers u hu).mono _⟩
    -- Nobody is computing the key that is asked for, so the cache speaks for it.
    refine h.cached key (Crew.forall_mem_middle.2 ⟨?_, hlock key hwanted⟩)
    rw [Task.computed?_of_wanted hwanted]
    exact (Option.some_ne_none key).symm
  · obtain ⟨hself, hidle⟩ := Crew.forall_mem_middle.1 hidle
    rw [hmove.resolution_get?, firstAsked?_append, firstAsked?_events]
    by_cases hcomputed : t.computed? = some key
    · rw [if_pos hcomputed, hgrounded.firstAsked?_computed hcomputed]
      rfl
    · have hbefore := h.cached key (Crew.forall_mem_middle.2 ⟨hcomputed, hidle⟩)
      rw [if_neg hcomputed, hbefore]
      by_cases hwanted : t.wanted? = some key
      · -- The step finds something under the key, which was asked for before.
        have hfound := (hmove.of_wanted hwanted).resolve_right hself
        rw [← Option.isSome_map, hbefore, Option.isSome_map] at hfound
        obtain ⟨source, hsource⟩ := Option.isSome_iff_exists.1 hfound
        rw [hsource]
        rfl
      · rw [if_neg hwanted, Option.or_none]
  · rcases List.mem_append.1 hmem with hmem | hmem
    · exact (h.bound job locale result hmem).mono _
    · exact (hgrounded.explained hmem).mono _

theorem start {cache : Cache} (h : Sourced p.config events [] cache) (jobs : List Job) :
    Sourced p.config events (jobs.map Task.ofJob) cache where
  grounded t ht := by
    obtain ⟨job, -, rfl⟩ := List.mem_map.1 ht
    trivial
  cached key _ := h.cached key (by simp)
  bound := h.bound

theorem finish {tasks : List Task} {cache : Cache} (h : Sourced p.config events tasks cache)
    (hfinished : ∀ t ∈ tasks, t.isFinished) : Sourced p.config events [] cache where
  grounded t ht := by cases ht
  cached key _ := by
    refine h.cached key fun t ht => ?_
    rw [Task.computed?_of_idle (by simp [Task.isInHand, hfinished t ht])]
    exact (Option.some_ne_none key).symm
  bound := h.bound

theorem run {jobs : List Job} {emitter : Emitter σ} {kept : σ} {more : List Event} {c : Crew σ}
    (h : Sourced p.config events [] p.cache) (hrun : Crew.Run p jobs emitter kept more c) :
    Sourced p.config (events ++ more) c.tasks c.shared.cache := by
  induction hrun with
  | start =>
    rw [List.append_nil]
    exact h.start jobs
  | move before after oracle _ hmove hfree hlock ih =>
    rw [← List.append_assoc]
    exact ih.move hmove hlock

/-- The cache resolves a locale for a job as for the one that the locale was asked for first, which
is the job itself if there is none yet. -/
theorem resolve {config : Config} {cache : Cache} (h : Sourced config events [] cache) (job : Job)
    (locale : Locale) :
    ∃ source, (firstAsked? events { interface := job.interface, locale }).or (some job) =
        some source ∧
      (cache.resolve job.catalog locale).1.resolution = source.catalog.resolve locale ∧
      ∀ key, ((cache.resolve job.catalog locale).2.get? key).map (·.resolution) =
        ((firstAsked? events key).or
          (if key = { interface := job.interface, locale } then some job else none)).map
            (·.catalog.resolve key.locale) := by
  obtain ⟨source, hsource⟩ : ∃ source,
      (firstAsked? events { interface := job.interface, locale }).or (some job) = some source :=
    Option.isSome_iff_exists.1 (by simp)
  have hgiven : (cache.resolve job.catalog locale).1.resolution =
      source.catalog.resolve locale := by
    rw [Cache.resolution_resolve]
    change ((cache.get? { interface := job.interface, locale }).map _).getD _ = _
    rw [h.cached _ (by simp)]
    cases hfirst : firstAsked? events { interface := job.interface, locale } with
    | none =>
      rw [hfirst] at hsource
      cases hsource
      rfl
    | some first =>
      rw [hfirst] at hsource
      cases hsource
      rfl
  refine ⟨source, hsource, hgiven, fun key => ?_⟩
  rw [Cache.get?_resolve]
  change (if key = { interface := job.interface, locale } then _ else _) = _
  by_cases hkey : key = { interface := job.interface, locale }
  · rw [if_pos hkey, if_pos hkey, hgiven, hkey, hsource]
    rfl
  · rw [if_neg hkey, if_neg hkey, Option.or_none]
    exact h.cached key (by simp)

theorem bind (h : Sourced p.config events [] p.cache) (job : Job) (oracle : Oracle)
    (locale : Locale) :
    Sourced p.config (events ++ p.bindEvents job oracle locale) []
      (p.bind job oracle locale).2.cache := by
  cases horacle : oracle job.interface with
  | error error =>
    simp only [Pass.bindEvents, Pass.bind, horacle]
    refine ⟨by simp, fun key hidle => ?_, fun job' locale' result hmem => ?_⟩
    · rw [firstAsked?_append, firstAsked?_told, Option.or_none]
      exact h.cached key hidle
    · rcases List.mem_append.1 hmem with hmem | hmem
      · exact (h.bound job' locale' result hmem).mono _
      · cases List.mem_singleton.1 hmem
  | ok methods =>
    obtain ⟨source, hsource, hresolution, hcached⟩ := h.resolve job locale
    simp only [Pass.bindEvents, Pass.bind, horacle, bindAt, hresolution]
    have hasked (key : Cache.Key) (result : Except Error Artifact) :
        firstAsked? (events ++ [.told job (.ok methods), .asked job locale,
            .bound job locale result]) key =
          (firstAsked? events key).or
            (if key = { interface := job.interface, locale } then some job else none) := by
      rw [firstAsked?_append]
      exact congrArg _ (firstAsked?_asked job locale key)
    refine ⟨by simp, fun key _ => ?_, fun job' locale' result hmem => ?_⟩
    · rw [hasked]
      exact hcached key
    · rcases List.mem_append.1 hmem with hmem | hmem
      · exact (h.bound job' locale' result hmem).mono _
      · have hbound : Event.bound job' locale' result = .bound job locale
            (bindMethods p.config job methods locale (source.catalog.resolve locale)) := by
          simpa using hmem
        cases hbound
        refine ⟨source, methods, ?_, by simp, rfl⟩
        rw [hasked, if_pos rfl]
        exact hsource

end Sourced

theorem Pass.History.sourced {config : Config} {events : List Event} {p : Pass}
    (h : Pass.History config events p) : Sourced config events [] p.cache := by
  induction h with
  | start hstart =>
    obtain ⟨-, -, -, hcache⟩ := Pass.eq_of_start hstart
    rw [hcache]
    exact ⟨by simp, fun key _ => rfl, by simp⟩
  | bind h job oracle locale ih =>
    obtain ⟨rfl, -⟩ := h.eq_of_config
    exact ih.bind job oracle locale
  | run h hrun hfinished ih =>
    obtain ⟨rfl, -⟩ := h.eq_of_config
    exact (ih.run hrun).finish (List.all_eq_true.1 hfinished)

/-- Whatever a pass was used for, what it binds a job to for a locale is what the job that it was
first asked to resolve the locale for has, among those of the interface. That is what the job itself
has if all of them resolve the locale alike. -/
theorem Pass.History.bound_from_first_asked {config : Config} {events : List Event} {p : Pass}
    (h : Pass.History config events p) {job : Job} {locale : Locale}
    {result : Except Error Artifact} (hbound : .bound job locale result ∈ events) :
    ∃ source methods, firstAsked? events { interface := job.interface, locale } = some source ∧
      source.interface = job.interface ∧ .asked source locale ∈ events ∧
      .told job (.ok methods) ∈ events ∧
      result = bindMethods config job methods locale (source.catalog.resolve locale) ∧
      (∀ a, result = .ok a → a.effective = (source.catalog.resolve locale).effective ∧
        a.className = className job.interface (source.catalog.resolve locale).effective ∧
        methods.mapM (boundMethod config job (source.catalog.resolve locale)) = .ok a.methods) ∧
      ((∀ other, .asked other locale ∈ events → other.interface = job.interface →
          other.catalog.resolve locale = job.catalog.resolve locale) →
        result = bindMethods config job methods locale (job.catalog.resolve locale)) := by
  obtain ⟨source, methods, hfirst, htold, hresult⟩ := h.sourced.bound job locale result hbound
  obtain ⟨hinterface, hasked⟩ := of_firstAsked? hfirst
  refine ⟨source, methods, hfirst, hinterface, hasked, htold, hresult, fun a ha => ?_,
    fun hsame => ?_⟩
  · obtain ⟨hmethods, -, -, -, heffective, hclass⟩ :=
      bindMethods_eq_ok_iff.1 (hresult.symm.trans ha)
    exact ⟨heffective, hclass, hmethods⟩
  · rw [hresult, hsame source hasked hinterface]

/-- Two jobs for `Menu` are bound for one locale each, and the second has its own resources. -/
theorem Pass.History.bound_from_first_asked_Menu :
    let config : Config := { locales := ["ka", "az"] }
    let oracle := Oracle.ofList [(⟨"Menu"⟩, [{ name := "title" }])]
    let made : Except Localization.Error (Job × Job) := do
      let home ← Bundle.ofDeclarations ⟨"Menu"⟩ .root none [.default "title" (.text "Home")]
      let start ← Bundle.ofDeclarations ⟨"Menu"⟩ .root none [.default "title" (.text "Start")]
      let ev ← Bundle.ofDeclarations ⟨"Menu"⟩ { language := "az" } none
        [.default "title" (.text "Ev")]
      return (⟨.constants, ← Catalog.ofList ⟨"Menu"⟩ [home]⟩,
        ⟨.constants, ← Catalog.ofList ⟨"Menu"⟩ [start, ev]⟩)
    ∃ first second p a, made = .ok (first, second) ∧ Pass.start config = .ok p ∧
      ((p.bind first oracle { language := "ka" }).2.bind second oracle { language := "az" }).1 =
        .ok a ∧
      a.effective = (second.catalog.resolve { language := "az" }).effective ∧
      a.className = "Menu_az" := by
  intro config oracle made
  let fresh : Pass := ⟨config, [{ language := "ka" }, { language := "az" }], {}⟩
  have hstart : Pass.start config = .ok fresh := rfl
  obtain ⟨first, second, a, hmade, hfirst, hsecond, hbind, hclass⟩ : ∃ first second a,
      made = .ok (first, second) ∧ first.interface = ⟨"Menu"⟩ ∧ second.interface = ⟨"Menu"⟩ ∧
      ((fresh.bind first oracle { language := "ka" }).2.bind second oracle
        { language := "az" }).1 = .ok a ∧ a.className = "Menu_az" :=
    ⟨_, _, _, rfl, rfl, rfl, rfl, rfl⟩
  refine ⟨first, second, fresh, a, hmade, hstart, hbind, ?_, hclass⟩
  have hknown : oracle ⟨"Menu"⟩ = .ok [{ name := "title" }] := rfl
  have hhistory := ((Pass.History.start hstart).bind first oracle { language := "ka" }).bind second
    oracle { language := "az" }
  have hevents (p : Pass) (job : Job) (locale : Locale) (hjob : job.interface = ⟨"Menu"⟩) :
      p.bindEvents job oracle locale = [.told job (.ok [{ name := "title" }]), .asked job locale,
        .bound job locale (p.bind job oracle locale).1] := by
    simp only [Pass.bindEvents, hjob, hknown]
  have hbound : .bound second { language := "az" } (.ok a) ∈
      [] ++ fresh.bindEvents first oracle { language := "ka" } ++
        (fresh.bind first oracle { language := "ka" }).2.bindEvents second oracle
          { language := "az" } := by
    simp [hevents, hfirst, hsecond, hbind]
  obtain ⟨source, methods, -, -, hasked, -, -, hresult, -⟩ :=
    hhistory.bound_from_first_asked hbound
  have hsource : source = second := by simpa [hevents, hfirst, hsecond] using hasked
  exact hsource ▸ (hresult a rfl).1

/-- The second job for `Menu` has a bundle for `az`, but is bound to what the first has for the
locale. -/
theorem Pass.bind_second_job_Menu :
    let config : Config := { locales := ["az"] }
    let methods : List Method := [{ name := "title" }]
    let oracle := Oracle.ofList [(⟨"Menu"⟩, methods)]
    let made : Except Localization.Error (Job × Job) := do
      let home ← Bundle.ofDeclarations ⟨"Menu"⟩ .root none [.default "title" (.text "Home")]
      let start ← Bundle.ofDeclarations ⟨"Menu"⟩ .root none [.default "title" (.text "Start")]
      let ev ← Bundle.ofDeclarations ⟨"Menu"⟩ { language := "az" } none
        [.default "title" (.text "Ev")]
      return (⟨.constants, ← Catalog.ofList ⟨"Menu"⟩ [home]⟩,
        ⟨.constants, ← Catalog.ofList ⟨"Menu"⟩ [start, ev]⟩)
    ∃ first second p a b, made = .ok (first, second) ∧ Pass.start config = .ok p ∧
      ((p.bind first oracle { language := "az" }).2.bind second oracle { language := "az" }).1 =
        .ok a ∧
      bindMethods config second methods { language := "az" }
        (second.catalog.resolve { language := "az" }) = .ok b ∧
      a.effective ≠ b.effective ∧ a.className ≠ b.className ∧ a.methods ≠ b.methods := by
  intro config methods oracle made
  refine ⟨_, _, ⟨{ locales := ["az"] }, [{ language := "az" }], {}⟩, _, _, rfl, rfl, rfl, rfl, ?_,
    ?_, ?_⟩ <;> decide

end Generation

end Localization
