import Localization.Proofs.Generation.Emission

namespace Localization.Generation

/-- The artifact that the emitter accepted, if it did. -/
def Delivery.accepted? : Delivery → Option Artifact
  | ⟨artifact, .ok ()⟩ => some artifact
  | ⟨_, .error _⟩ => none

/-- The answers that an emitter gives to artifacts one after the other. -/
def Emitter.answers {σ : Type} (emitter : Emitter σ) (kept : σ) :
    List Artifact → List (Except Error Unit)
  | [] => []
  | a :: rest => (emitter.emit kept a).1 :: emitter.answers (emitter.emit kept a).2 rest

theorem Emitter.answers_append {σ : Type} (emitter : Emitter σ) (kept : σ)
    (first second : List Artifact) :
    emitter.answers kept (first ++ second) = emitter.answers kept first ++
      emitter.answers (first.foldl (fun kept a => (emitter.emit kept a).2) kept) second := by
  induction first generalizing kept with
  | nil => rfl
  | cons a rest ih => simp only [List.cons_append, answers, ih, List.foldl_cons]

theorem Moves.answers_eq {σ : Type} {p : Pass} {oracle : Oracle} {emitter : Emitter σ}
    {s s' : Shared σ} {t t' : Task} {sent : List Delivery}
    (h : Moves p oracle emitter s t s' t' sent) :
    sent.map (·.answer) = emitter.answers s.emitter (sent.map (·.artifact)) := by
  cases h with
  | deliver hemit => simp [Emitter.answers, hemit]
  | reject hemit => simp [Emitter.answers, hemit]
  | _ => rfl

/-- How many locales a report tells of. -/
def JobReport.count (r : JobReport) : Nat :=
  r.emitted.length + r.reused.length

/-- A locale that a task is done with: the artifact for it, and whether it is served by an earlier
one. -/
structure Handling where
  artifact : Artifact
  isReused : Bool

/-- A task with the locales that it is done with, in their order, and with what happened in its own
steps. -/
structure Account where
  task : Task
  handled : List Handling := []
  log : List Event := []
  sent : List Delivery := []

namespace Account

def locales (e : Account) : List Locale :=
  e.handled.map (·.artifact.requested)

def emitted (e : Account) : List Artifact :=
  (e.handled.filter (!·.isReused)).map (·.artifact)

def reused (e : Account) : List Artifact :=
  (e.handled.filter (·.isReused)).map (·.artifact)

/-- A locale came next that could not be bound, or whose artifact the emitter rejected. -/
def FailsAt (e : Account) (locale : Locale) (error : Error) : Prop :=
  .bound e.task.job locale (.error error) ∈ e.log ∨
    ∃ a, .bound e.task.job locale (.ok a) ∈ e.log ∧ ⟨a, .error error⟩ ∈ e.sent

/-- Why the work on a task ended with an error: nothing was known of the methods, or a locale
failed, the one after those that the task is done with. -/
def Stopped (p : Pass) (e : Account) (error : Error) : Prop :=
  .told e.task.job (.error error) ∈ e.log ∧ e.handled = [] ∨
    (∃ methods, .told e.task.job (.ok methods) ∈ e.log) ∧
      ∃ locale rest, p.locales = e.locales ++ locale :: rest ∧ e.FailsAt locale error

/-- What an account comes to in the end. -/
structure Settled (p : Pass) (e : Account) : Prop where
  complete : e.task.report.error? = none →
    (∃ methods, .told e.task.job (.ok methods) ∈ e.log) ∧ p.locales = e.locales
  stopped : ∀ error, e.task.report.error? = some error → e.Stopped p error

theorem Settled.of_stopped {p : Pass} {e : Account} {error : Error}
    (herror : e.task.report.error? = some error) (h : e.Stopped p error) : e.Settled p where
  complete hnone := by
    rw [herror] at hnone
    cases hnone
  stopped other hother := by
    rw [herror] at hother
    cases hother
    exact h

/-- How the locales that a task is done with go together with those before it. -/
def Stands (p : Pass) (e : Account) : Prop :=
  match e.task.stage with
  | .waiting => e.handled = []
  | .resolving methods rest =>
    .told e.task.job (.ok methods) ∈ e.log ∧ p.locales = e.locales ++ rest
  | .computing methods locale rest =>
    .told e.task.job (.ok methods) ∈ e.log ∧ p.locales = e.locales ++ locale :: rest
  | .binding methods locale rest _ =>
    .told e.task.job (.ok methods) ∈ e.log ∧ p.locales = e.locales ++ locale :: rest
  | .emitting methods artifact rest =>
    .told e.task.job (.ok methods) ∈ e.log ∧
      .bound e.task.job artifact.requested (.ok artifact) ∈ e.log ∧
      p.locales = e.locales ++ artifact.requested :: rest
  | .finished => e.Settled p

/-- The report on a task tells of the locales that it is done with. -/
structure Accounted (p : Pass) (e : Account) : Prop where
  interface : e.task.report.interface = e.task.job.interface
  emitted : e.task.report.emitted = e.emitted.map (·.className)
  reused : e.task.report.reused = e.reused.map fun a => (a.requested, a.className)
  bound : ∀ a ∈ e.handled.map (·.artifact), .bound e.task.job a.requested (.ok a) ∈ e.log
  accepted : e.sent.filterMap Delivery.accepted? = e.emitted
  reusing : e.reused ≠ [] → p.config.reuseEquivalentArtifacts
  unfinished : e.task.isFinished = false → e.task.report.error? = none
  stands : e.Stands p

namespace Accounted

variable {σ : Type} {p : Pass} {oracle : Oracle} {emitter : Emitter σ} {s s' : Shared σ}
  {t' : Task} {e : Account} {sent : List Delivery}

theorem ofJob (p : Pass) (job : Job) : Accounted p { task := .ofJob job } where
  interface := rfl
  emitted := rfl
  reused := rfl
  bound a ha := by cases ha
  accepted := rfl
  reusing h := absurd rfl h
  unfinished _ := rfl
  stands := rfl

variable {t : Task} {handled : List Handling} {log new : List Event} {given : List Delivery}

/-- A step after which the task is done with the same locales as before. -/
theorem keep (h : Accounted p ⟨t, handled, log, given⟩) (hjob : t'.job = t.job)
    (hinterface : t'.report.interface = t.report.interface)
    (hemitted : t'.report.emitted = t.report.emitted)
    (hreused : t'.report.reused = t.report.reused)
    (hunfinished : t'.isFinished = false → t'.report.error? = none)
    (haccepted : sent.filterMap Delivery.accepted? = [])
    (hstands : Stands p ⟨t', handled, log ++ new, given ++ sent⟩) :
    Accounted p ⟨t', handled, log ++ new, given ++ sent⟩ where
  interface := by rw [hinterface, hjob, h.interface]
  emitted := hemitted.trans h.emitted
  reused := hreused.trans h.reused
  bound a ha := by
    rw [hjob]
    exact List.mem_append_left _ (h.bound a ha)
  accepted := by
    rw [List.filterMap_append, haccepted, List.append_nil]
    exact h.accepted
  reusing := h.reusing
  unfinished := hunfinished
  stands := hstands

/-- A step after which the task is done with one more locale. -/
theorem handle (h : Accounted p ⟨t, handled, log, given⟩) {artifact : Artifact} {isReused : Bool}
    (hjob : t'.job = t.job) (hinterface : t'.report.interface = t.report.interface)
    (hemitted : t'.report.emitted =
      t.report.emitted ++ if isReused then [] else [artifact.className])
    (hreused : t'.report.reused =
      t.report.reused ++ if isReused then [(artifact.requested, artifact.className)] else [])
    (hunfinished : t'.isFinished = false → t'.report.error? = none)
    (hbound : .bound t.job artifact.requested (.ok artifact) ∈ log ++ new)
    (haccepted : sent.filterMap Delivery.accepted? = if isReused then [] else [artifact])
    (hreusing : isReused → p.config.reuseEquivalentArtifacts)
    (hstands : Stands p ⟨t', handled ++ [⟨artifact, isReused⟩], log ++ new, given ++ sent⟩) :
    Accounted p ⟨t', handled ++ [⟨artifact, isReused⟩], log ++ new, given ++ sent⟩ where
  interface := by rw [hinterface, hjob, h.interface]
  emitted := by
    rw [hemitted, h.emitted]
    cases isReused <;> simp [Account.emitted]
  reused := by
    rw [hreused, h.reused]
    cases isReused <;> simp [Account.reused]
  bound a ha := by
    rw [hjob]
    rw [List.map_append, List.map_singleton] at ha
    rcases List.mem_append.1 ha with ha | ha
    · exact List.mem_append_left _ (h.bound a ha)
    · obtain rfl := List.mem_singleton.1 ha
      exact hbound
  accepted := by
    rw [List.filterMap_append, haccepted, h.accepted]
    cases isReused <;> simp [Account.emitted]
  reusing hne := by
    cases isReused with
    | true => exact hreusing rfl
    | false => exact h.reusing (by simpa [Account.reused] using hne)
  unfinished := hunfinished
  stands := hstands

/-- A step adds to the account what happens in it, and at most one locale. -/
theorem move (h : Accounted p ⟨t, handled, log, given⟩)
    (hmove : Moves p oracle emitter s t s' t' sent) :
    ∃ more, Accounted p
      ⟨t', handled ++ more, log ++ t.events p.config oracle, given ++ sent⟩ := by
  -- Most steps leave the locales that the task is done with as they are.
  suffices hsuffices : Accounted p ⟨t', handled, log ++ t.events p.config oracle, given ++ sent⟩ ∨
      ∃ next, Accounted p
        ⟨t', handled ++ [next], log ++ t.events p.config oracle, given ++ sent⟩ by
    rcases hsuffices with hsame | ⟨next, hnext⟩
    · exact ⟨[], by rwa [List.append_nil]⟩
    · exact ⟨[next], hnext⟩
  have hstands := h.stands
  have hunfinished := h.unfinished
  cases hmove with
  | refuse horacle =>
    refine .inl (h.keep rfl rfl rfl rfl (fun hopen => by cases hopen) rfl ?_)
    exact .of_stopped rfl (.inl ⟨by simp [Task.events, horacle], hstands⟩)
  | take horacle =>
    obtain rfl : handled = [] := hstands
    refine .inl (h.keep rfl rfl rfl rfl (fun _ => hunfinished rfl) rfl ?_)
    exact ⟨by simp [Task.events, horacle], rfl⟩
  | finish =>
    obtain ⟨htold, hlocales⟩ := hstands
    refine .inl (h.keep rfl rfl rfl rfl (fun hopen => by cases hopen) rfl ⟨fun _ => ?_, ?_⟩)
    · exact ⟨⟨_, List.mem_append_left _ htold⟩, hlocales.trans (List.append_nil _)⟩
    · intro error herror
      exact absurd ((hunfinished rfl).symm.trans herror) (Option.some_ne_none error).symm
  | hit | miss | store =>
    obtain ⟨htold, hlocales⟩ := hstands
    refine .inl (h.keep rfl rfl rfl rfl (fun _ => hunfinished rfl) rfl ?_)
    exact ⟨List.mem_append_left _ htold, hlocales⟩
  | fail hbind =>
    obtain ⟨htold, hlocales⟩ := hstands
    refine .inl (h.keep rfl rfl rfl rfl (fun hopen => by cases hopen) rfl ?_)
    exact .of_stopped rfl (.inr ⟨⟨_, List.mem_append_left _ htold⟩, _, _, hlocales,
      .inl (by simp [Task.events, hbind])⟩)
  | @reuse _ _ _ locale _ _ artifact hbind hreuse hmark =>
    obtain ⟨htold, hlocales⟩ := hstands
    obtain ⟨-, -, -, rfl, -, -⟩ := bindMethods_eq_ok_iff.1 hbind
    refine .inr ⟨⟨artifact, true⟩, h.handle rfl rfl ?_ ?_ (fun _ => hunfinished rfl) ?_ rfl
      (fun _ => hreuse) ?_⟩
    · exact (List.append_nil _).symm
    · rfl
    · simp [Task.events, hbind]
    · refine ⟨List.mem_append_left _ htold, ?_⟩
      rw [hlocales]
      simp [Account.locales]
  | @mark _ _ _ locale _ _ artifact hbind hmark =>
    obtain ⟨htold, hlocales⟩ := hstands
    obtain ⟨-, -, -, rfl, -, -⟩ := bindMethods_eq_ok_iff.1 hbind
    refine .inl (h.keep rfl rfl rfl rfl (fun _ => hunfinished rfl) rfl ?_)
    exact ⟨List.mem_append_left _ htold, by simp [Task.events, hbind], hlocales⟩
  | @deliver _ _ _ artifact _ _ hemit =>
    obtain ⟨htold, hbound, hlocales⟩ := hstands
    refine .inr ⟨⟨artifact, false⟩, h.handle rfl rfl rfl ?_ (fun _ => hunfinished rfl) ?_ rfl ?_ ?_⟩
    · exact (List.append_nil _).symm
    · exact List.mem_append_left _ hbound
    · exact fun hreused => by cases hreused
    · refine ⟨List.mem_append_left _ htold, ?_⟩
      rw [hlocales]
      simp [Account.locales]
  | reject hemit =>
    obtain ⟨htold, hbound, hlocales⟩ := hstands
    refine .inl (h.keep rfl rfl rfl rfl (fun hopen => by cases hopen) rfl ?_)
    exact .of_stopped rfl (.inr ⟨⟨_, List.mem_append_left _ htold⟩, _, _, hlocales,
      .inr ⟨_, List.mem_append_left _ hbound, by simp⟩⟩)

end Accounted

/-- What the report on a job tells at the end of a run with these locales. -/
structure Closed (config : Config) (locales : List Locale) (e : Account) : Prop where
  interface : e.task.report.interface = e.task.job.interface
  emitted : e.task.report.emitted = e.emitted.map (·.className)
  reused : e.task.report.reused = e.reused.map fun a => (a.requested, a.className)
  bound : ∀ a ∈ e.handled.map (·.artifact), .bound e.task.job a.requested (.ok a) ∈ e.log
  accepted : e.sent.filterMap Delivery.accepted? = e.emitted
  order : e.locales = locales.take e.task.report.count
  unused : config.reuseEquivalentArtifacts = false → e.task.report.reused = []
  complete : e.task.report.error? = none →
    (∃ methods, .told e.task.job (.ok methods) ∈ e.log) ∧
      e.task.report.count = config.locales.length
  stopped : ∀ error, e.task.report.error? = some error →
    .told e.task.job (.error error) ∈ e.log ∧ e.task.report.count = 0 ∨
      (∃ methods, .told e.task.job (.ok methods) ∈ e.log) ∧
        ∃ locale, locales[e.task.report.count]? = some locale ∧ e.FailsAt locale error

theorem Accounted.count_eq {p : Pass} {e : Account} (h : e.Accounted p) :
    e.task.report.count = e.handled.length := by
  rw [JobReport.count, h.emitted, h.reused, List.length_map, List.length_map, Account.emitted,
    Account.reused, List.length_map, List.length_map, Nat.add_comm,
    ← List.length_eq_length_filter_add]

theorem Accounted.closed {p : Pass} {e : Account} (h : e.Accounted p)
    (hfinished : e.task.isFinished)
    (hlocales : p.config.parsedLocales = .ok p.locales) : e.Closed p.config p.locales := by
  have hsettled : e.Settled p := by
    have hstands := h.stands
    have hstage : e.task.stage = .finished := by simpa [Task.isFinished] using hfinished
    rw [Stands, hstage] at hstands
    exact hstands
  have hlength : p.locales.length = p.config.locales.length :=
    (mapM_eq_ok_iff.1 hlocales).length_eq.symm
  have hcount : e.task.report.count = e.locales.length := by
    rw [h.count_eq, Account.locales, List.length_map]
  refine ⟨h.interface, h.emitted, h.reused, h.bound, h.accepted, ?_, ?_, ?_, ?_⟩
  · rw [hcount]
    cases herror : e.task.report.error? with
    | none => rw [← (hsettled.complete herror).2, List.take_length]
    | some error =>
      rcases hsettled.stopped error herror with ⟨-, hnothing⟩ | ⟨-, locale, rest, hsplit, -⟩
      · simp [Account.locales, hnothing]
      · rw [hsplit, List.take_left]
  · intro hunused
    have hnone : e.reused = [] := by
      by_contra hsome
      have hreuse := h.reusing hsome
      rw [hunused] at hreuse
      cases hreuse
    rw [h.reused, hnone, List.map_nil]
  · intro hnone
    obtain ⟨htold, hall⟩ := hsettled.complete hnone
    exact ⟨htold, by rw [hcount, ← hall, hlength]⟩
  · intro error herror
    refine (hsettled.stopped error herror).imp ?_ ?_
    · rintro ⟨htold, hnothing⟩
      exact ⟨htold, by rw [hcount, Account.locales, hnothing, List.map_nil, List.length_nil]⟩
    · rintro ⟨htold, locale, rest, hsplit, hfails⟩
      refine ⟨htold, locale, ?_, hfails⟩
      rw [hcount, hsplit, List.getElem?_append_right le_rfl, Nat.sub_self]
      rfl

end Account

namespace Crew

variable {σ : Type} {p : Pass} {jobs : List Job} {emitter : Emitter σ} {kept : σ}
  {events past : List Event} {c : Crew σ} {accounts : List Account}

theorem Run.answers_eq (h : Run p jobs emitter kept events c) :
    c.deliveries.map (·.answer) = emitter.answers kept (c.deliveries.map (·.artifact)) := by
  induction h with
  | start => rfl
  | move before after oracle hrun hmove hfree hlock ih =>
    rw [List.map_append, List.map_append, Emitter.answers_append, List.foldl_map,
      ← hrun.emitter_eq, ← hmove.answers_eq, ih]

/-- The accounts of the tasks share out what happened in the run. -/
structure Booked (p : Pass) (events : List Event) (accounts : List Account) (c : Crew σ) :
    Prop where
  tasks : accounts.map (·.task) = c.tasks
  accounted : ∀ e ∈ accounts, e.Accounted p
  events : events.Perm (accounts.flatMap (·.log))
  deliveries : c.deliveries.Perm (accounts.flatMap (·.sent))

theorem booked_start (p : Pass) (jobs : List Job) (kept : σ) :
    Booked p [] (jobs.map fun job => { task := .ofJob job }) (start p jobs kept) where
  tasks := List.map_map
  accounted e he := by
    obtain ⟨job, -, rfl⟩ := List.mem_map.1 he
    exact .ofJob p job
  events := by simp [List.flatMap_map]
  deliveries := by simp [start, List.flatMap_map]

theorem Booked.move {s s' : Shared σ} {t t' : Task} {before after : List Task} {oracle : Oracle}
    {deliveries sent : List Delivery}
    (h : Booked p events accounts ⟨before ++ t :: after, s, deliveries⟩)
    (hmove : Moves p oracle emitter s t s' t' sent) :
    ∃ accounts', Booked p (events ++ t.events p.config oracle) accounts'
      ⟨before ++ t' :: after, s', deliveries ++ sent⟩ := by
  obtain ⟨first, rest, rfl, rfl, hrest⟩ := List.map_eq_append_iff.1 h.tasks
  obtain ⟨⟨t, handled, log, given⟩, last, rfl, rfl, rfl⟩ := List.map_eq_cons_iff.1 hrest
  obtain ⟨haccounted, hothers⟩ := List.forall_mem_cons.1
    (fun e he => h.accounted e (List.perm_middle.mem_iff.2 he))
  obtain ⟨more, hnext⟩ := haccounted.move hmove
  refine ⟨first ++ ⟨t', handled ++ more, log ++ t.events p.config oracle, given ++ sent⟩ :: last,
    by simp, fun e he => ?_, perm_flatMap_middle h.events rfl,
    perm_flatMap_middle h.deliveries rfl⟩
  rcases List.mem_cons.1 (List.perm_middle.mem_iff.1 he) with rfl | he
  · exact hnext
  · exact hothers e he

theorem Run.booked (h : Run p jobs emitter kept events c) :
    ∃ accounts, Booked p events accounts c := by
  induction h with
  | start => exact ⟨_, booked_start p jobs kept⟩
  | move before after oracle _ hmove hfree hlock ih =>
    obtain ⟨accounts, hbooked⟩ := ih
    exact hbooked.move hmove

/-- What the emitter accepted is what the accounts tell as emitted, one for one. -/
theorem Booked.perm_accepted (h : Booked p events accounts c) :
    (c.deliveries.filterMap Delivery.accepted?).Perm (accounts.flatMap (·.emitted)) := by
  have hsame : accounts.flatMap (fun e => e.sent.filterMap Delivery.accepted?) =
      accounts.flatMap (·.emitted) :=
    List.flatMap_congr fun e he => (h.accounted e he).accepted
  rw [← hsame, ← List.filterMap_flatMap]
  exact h.deliveries.filterMap _

/-- At the end of a run, whatever the pass was used for before and in whatever order its workers
took their steps, every configured locale is accounted for on each job: it was bound and emitted or
reused, in the configured order, up to the first that failed. What happened in the run falls into
the accounts of the jobs. What the emitter accepted is what they tell as emitted, and under reuse it
was given each class of an interface once at most. -/
theorem every_locale_accounted {config : Config} (hp : Pass.History config past p)
    (h : Run p jobs emitter kept events c) (hfinished : c.isFinished) :
    config.parsedLocales = .ok p.locales ∧
      ∃ accounts : List Account,
        accounts.map (·.task.job) = jobs ∧ accounts.map (·.task.report) = c.report.jobs ∧
        events.Perm (accounts.flatMap (·.log)) ∧ c.deliveries.Perm (accounts.flatMap (·.sent)) ∧
        (∀ e ∈ accounts, e.Closed config p.locales) ∧
        (c.deliveries.filterMap Delivery.accepted?).Perm (accounts.flatMap (·.emitted)) ∧
        c.deliveries.map (·.answer) = emitter.answers kept (c.deliveries.map (·.artifact)) ∧
        (config.reuseEquivalentArtifacts → (c.deliveries.map (·.artifact.mark)).Nodup) := by
  obtain ⟨rfl, -, hlocales⟩ := hp.eq_of_config
  obtain ⟨accounts, hbooked⟩ := h.booked
  refine ⟨hlocales, accounts, ?_, ?_, hbooked.events, hbooked.deliveries, fun e he => ?_,
    hbooked.perm_accepted, h.answers_eq, fun hreuse => (h.marked hreuse).nodup_delivered⟩
  · rw [← h.map_job_eq, ← hbooked.tasks, List.map_map]
    rfl
  · rw [report, ← hbooked.tasks, List.map_map]
    rfl
  · have hmem : e.task ∈ c.tasks := hbooked.tasks ▸ List.mem_map_of_mem he
    exact (hbooked.accounted e he).closed (List.all_eq_true.1 hfinished _ hmem) hlocales

/-- Of three locales the second is served by the artifact for the first, and the emitter rejects
that for the third. -/
theorem every_locale_accounted_az :
    let config : Config := { locales := ["default", "ka", "az"] }
    let oracle := Oracle.ofList [(⟨"Menu"⟩, [{ name := "title" }])]
    let emitter : Emitter Unit :=
      { emit := fun _ a =>
          (if a.className = "Menu_az" then .error (.notEmitted a.className "disk full")
            else .ok (), ()) }
    let made : Except Localization.Error Job := do
      let root ← Bundle.ofDeclarations ⟨"Menu"⟩ .root none [.default "title" (.text "Home")]
      let az ← Bundle.ofDeclarations ⟨"Menu"⟩ { language := "az" } none
        [.default "title" (.text "Ev")]
      return ⟨.constants, ← Catalog.ofList ⟨"Menu"⟩ [root, az]⟩
    ∃ job p, made = .ok job ∧ Pass.start config = .ok p ∧
      ∃ events c, Run p [job] emitter () events c ∧ c.isFinished ∧
        c.report = (p.run [job] oracle emitter ()).1 ∧
        c.report.jobs =
          [{ interface := ⟨"Menu"⟩
             emitted := ["Menu_default"]
             reused := [({ language := "ka" }, "Menu_default")]
             error? := some (.notEmitted "Menu_az" "disk full") }] ∧
        (c.deliveries.filterMap Delivery.accepted?).map (·.className) = ["Menu_default"] ∧
        ∃ e : Account, e.task.report.count = 2 ∧ e.locales = [.root, { language := "ka" }] ∧
          e.FailsAt { language := "az" } (.notEmitted "Menu_az" "disk full") := by
  intro config oracle emitter made
  let locales : List Locale := [.root, { language := "ka" }, { language := "az" }]
  have hstart : Pass.start config = .ok ⟨config, locales, {}⟩ := rfl
  obtain ⟨job, hmade, hrun⟩ : ∃ job, made = .ok job ∧
      ((⟨config, locales, {}⟩ : Pass).run [job] oracle emitter ()).1.jobs =
        [{ interface := ⟨"Menu"⟩
           emitted := ["Menu_default"]
           reused := [({ language := "ka" }, "Menu_default")]
           error? := some (.notEmitted "Menu_az" "disk full") }] :=
    ⟨_, rfl, rfl⟩
  obtain ⟨c, hc, hfinished, hreport⟩ := exists_report_eq_run (p := ⟨config, locales, {}⟩)
    (by decide) [job] oracle emitter ()
  obtain ⟨events, hevents⟩ := hc.exists_run
  have hreports := (congrArg Report.jobs hreport).trans hrun
  obtain ⟨-, accounts, -, htold, -, -, hclosed, haccepted, -, -⟩ :=
    every_locale_accounted (.start hstart) hevents hfinished
  obtain ⟨e, rfl, hentry⟩ := List.map_eq_singleton_iff.1 (htold.trans hreports)
  have hone := hclosed e (List.mem_singleton_self e)
  have hcount : e.task.report.count = 2 := by rw [hentry]; rfl
  refine ⟨job, _, hmade, hstart, events, c, hevents, hfinished, hreport, hreports, ?_, e, hcount,
    ?_, ?_⟩
  · have hclasses := haccepted.map (·.className)
    rw [List.flatMap_singleton, ← hone.emitted, hentry] at hclasses
    exact List.perm_singleton.1 hclasses
  · rw [hone.order, hcount]
    rfl
  · have hstopped := hone.stopped (.notEmitted "Menu_az" "disk full") (by rw [hentry])
    rw [hcount] at hstopped
    obtain ⟨-, hzero⟩ | ⟨-, locale, hnext, hfails⟩ := hstopped
    · cases hzero
    · cases hnext
      exact hfails

end Crew

end Localization.Generation
