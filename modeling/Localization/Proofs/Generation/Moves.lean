import Localization.Proofs.Generation.View

namespace Localization.Generation

/-- A method with what it is bound to. -/
def boundMethod (config : Config) (job : Job) (r : Resolution) (method : Method) :
    Except Error BoundMethod := do
  return { method := method.name, key := method.key, value := ← bindMethod config job r method }

/-- An artifact holds the methods as they are bound, and its class is named for the locale that is
effective. -/
theorem bindMethods_eq_ok_iff {config : Config} {job : Job} {methods : List Method}
    {requested : Locale} {r : Resolution} {a : Artifact} :
    bindMethods config job methods requested r = .ok a ↔
      methods.mapM (boundMethod config job r) = .ok a.methods ∧ a.interface = job.interface ∧
        a.kind = job.kind ∧ a.requested = requested ∧ a.effective = r.effective ∧
        a.className = className job.interface r.effective := by
  show (methods.mapM (boundMethod config job r) >>= _) = _ ↔ _
  cases methods.mapM (boundMethod config job r) with
  | error error =>
    constructor
    · intro h
      cases h
    · rintro ⟨hbound, -⟩
      cases hbound
  | ok bound =>
    obtain ⟨interface, kind, requested', effective, class', bound'⟩ := a
    constructor
    · intro h
      cases h
      exact ⟨rfl, rfl, rfl, rfl, rfl, rfl⟩
    · rintro ⟨hbound, rfl, rfl, rfl, rfl, rfl⟩
      cases hbound
      rfl

namespace Task

variable {t : Task}

/-- An artifact that waits for the emitter is one of the task's interface. -/
def Owned (t : Task) : Prop :=
  ∀ methods artifact rest, t.stage = .emitting methods artifact rest →
    artifact.interface = t.job.interface

theorem owned_ofJob (job : Job) : (ofJob job).Owned := by
  intro methods artifact rest hstage
  cases hstage

end Task

namespace Stage

/-- A bound for the steps that are left, for a pass with so many locales. -/
def remaining (locales : Nat) : Stage → Nat
  | waiting => 4 * locales + 2
  | resolving _ rest => 4 * rest.length + 1
  | computing _ _ rest => 4 * rest.length + 4
  | binding _ _ rest _ => 4 * rest.length + 3
  | emitting _ _ rest => 4 * rest.length + 2
  | finished => 0

end Stage

namespace Moves

variable {σ τ : Type} {p : Pass} {oracle oracle' : Oracle} {emitter : Emitter σ}
  {emitter' : Emitter τ} {s s' : Shared σ} {t t' : Task} {sent : List Delivery}

theorem job_eq (h : Moves p oracle emitter s t s' t' sent) : t'.job = t.job := by
  cases h <;> rfl

theorem isFinished_eq_false (h : Moves p oracle emitter s t s' t' sent) : t.isFinished = false := by
  cases h <;> rfl

theorem owned (h : Moves p oracle emitter s t s' t' sent) : t'.Owned := by
  intro methods artifact rest hstage
  cases h with
  | mark hbind hmark =>
    cases hstage
    exact (bindMethods_eq_ok_iff.1 hbind).2.1
  | _ => cases hstage

theorem remaining_lt (h : Moves p oracle emitter s t s' t' sent) :
    t'.stage.remaining p.locales.length < t.stage.remaining p.locales.length := by
  cases h <;> simp only [Stage.remaining, List.length_cons, List.length_nil] <;> omega

/-- What is delivered waited for the emitter, and the answer is the emitter's. -/
theorem of_mem_sent (h : Moves p oracle emitter s t s' t' sent) {d : Delivery} (hmem : d ∈ sent) :
    (∃ methods rest, t.stage = .emitting methods d.artifact rest) ∧
      (emitter.emit s.emitter d.artifact).1 = d.answer := by
  cases h with
  | deliver hemit =>
    obtain rfl := List.mem_singleton.1 hmem
    exact ⟨⟨_, _, rfl⟩, congrArg Prod.fst hemit⟩
  | reject hemit =>
    obtain rfl := List.mem_singleton.1 hmem
    exact ⟨⟨_, _, rfl⟩, congrArg Prod.fst hemit⟩
  | _ => cases hmem

/-- Work on one interface leaves alone what other interfaces see. -/
theorem view_of_ne (h : Moves p oracle emitter s t s' t' sent) {i : Interface}
    (hne : i ≠ t.job.interface) : s'.view i = s.view i := by
  cases h with
  | store => exact s.view_store_of_ne i hne _ _
  | mark hbind hmark => exact s.view_mark_of_ne i hne _ _
  | _ => rfl

/-- The emitter is given what is delivered and nothing else. -/
theorem emitter_eq (h : Moves p oracle emitter s t s' t' sent) :
    s'.emitter = sent.foldl (fun kept d => (emitter.emit kept d.artifact).2) s.emitter := by
  cases h with
  | deliver hemit => exact (congrArg Prod.snd hemit).symm
  | reject hemit => exact (congrArg Prod.snd hemit).symm
  | _ => rfl

/-- A task that is not finished can go on, whatever the others left behind. -/
theorem exists_of_open (p : Pass) (oracle : Oracle) (emitter : Emitter σ) (s : Shared σ)
    (hopen : t.isFinished = false) : ∃ s' t' sent, Moves p oracle emitter s t s' t' sent := by
  obtain ⟨job, report, stage⟩ := t
  cases stage with
  | waiting =>
    cases horacle : oracle job.interface with
    | error error => exact ⟨_, _, _, .refuse horacle⟩
    | ok methods => exact ⟨_, _, _, .take horacle⟩
  | resolving methods locales =>
    cases locales with
    | nil => exact ⟨_, _, _, .finish⟩
    | cons locale rest =>
      cases hget : s.cache.get? { interface := job.interface, locale } with
      | some stored => exact ⟨_, _, _, .hit hget⟩
      | none => exact ⟨_, _, _, .miss hget⟩
  | computing methods locale rest => exact ⟨_, _, _, .store⟩
  | binding methods locale rest resolution =>
    cases hbind : bindMethods p.config job methods locale resolution with
    | error error => exact ⟨_, _, _, .fail hbind⟩
    | ok artifact =>
      by_cases hmark : p.config.reuseEquivalentArtifacts ∧
          (job.interface, artifact.className) ∈ s.classes
      · exact ⟨_, _, _, .reuse hbind hmark.1 hmark.2⟩
      · exact ⟨_, _, _, .mark hbind fun hreuse hmem => hmark ⟨hreuse, hmem⟩⟩
  | emitting methods artifact rest =>
    rcases hemit : emitter.emit s.emitter artifact with ⟨error | ⟨⟩, kept⟩
    · exact ⟨_, _, _, .reject hemit⟩
    · exact ⟨_, _, _, .deliver hemit⟩
  | finished => cases hopen

/-- There is only one way to go on. -/
theorem right_unique {s₁ s₂ : Shared σ} {t₁ t₂ : Task} {sent₁ sent₂ : List Delivery}
    (h₁ : Moves p oracle emitter s t s₁ t₁ sent₁) (h₂ : Moves p oracle emitter s t s₂ t₂ sent₂) :
    s₁ = s₂ ∧ t₁ = t₂ ∧ sent₁ = sent₂ := by
  cases h₁ <;> cases h₂ <;> simp_all

theorem exists_emit_eq {kept kept₁ : σ} {kept' : τ} {artifact : Artifact}
    {answer : Except Error Unit} (hemit : emitter.emit kept artifact = (answer, kept₁))
    (hsame : (emitter.emit kept artifact).1 = (emitter'.emit kept' artifact).1) :
    ∃ kept₁', emitter'.emit kept' artifact = (answer, kept₁') :=
  ⟨_, Prod.ext (hsame.symm.trans (congrArg Prod.fst hemit)) rfl⟩

/-- Where the work on an interface sees the same, is told the same methods and gets the same answers
for its artifacts, it takes the same step at the same cost. -/
theorem simulate {r : Shared τ} (h : Moves p oracle emitter s t s' t' sent) (howned : t.Owned)
    (hview : s.view t.job.interface = r.view t.job.interface)
    (horacle : oracle t.job.interface = oracle' t.job.interface)
    (hanswer : ∀ kept kept' a, a.interface = t.job.interface →
      (emitter.emit kept a).1 = (emitter'.emit kept' a).1) :
    ∃ r' spent, Moves p oracle' emitter' r t r' t' sent ∧
      s'.view t.job.interface = r'.view t.job.interface ∧
      s'.cache.stats = s.cache.stats + spent ∧ r'.cache.stats = r.cache.stats + spent := by
  have hresolution (locale : Locale) := congrFun (congrArg View.resolution? hview) locale
  have hmarked (className : String) := congrFun (congrArg View.IsMarked hview) className
  simp only [Shared.view] at hresolution hmarked
  cases h with
  | refuse herror => exact ⟨r, 0, .refuse (horacle ▸ herror), hview, rfl, rfl⟩
  | take hmethods => exact ⟨r, 0, .take (horacle ▸ hmethods), hview, rfl, rfl⟩
  | finish => exact ⟨r, 0, .finish, hview, rfl, rfl⟩
  | @hit job _ _ locale _ stored hget =>
    -- Only the serial number of what is stored may differ.
    have hfound := hresolution locale
    rw [hget] at hfound
    obtain ⟨stored', hget', heq : stored'.resolution = stored.resolution⟩ :=
      Option.map_eq_some_iff.1 hfound.symm
    exact ⟨r.withCache r.cache.hit, ⟨0, 1, 0, 0⟩, heq ▸ .hit hget', hview, s.cache.stats_hit,
      r.cache.stats_hit⟩
  | @miss job _ _ locale _ hget =>
    have hfound := hresolution locale
    rw [hget] at hfound
    have hget' := Option.map_eq_none_iff.1 hfound.symm
    exact ⟨r.withCache r.cache.miss, ⟨0, 0, 1, 0⟩, .miss hget', hview, s.cache.stats_miss,
      r.cache.stats_miss⟩
  | store =>
    refine ⟨_, ⟨1, 0, 0, 1⟩, .store, ?_, s.cache.stats_store _ _, r.cache.stats_store _ _⟩
    simp only [Shared.view_store_self, hview]
  | fail hbind => exact ⟨r, 0, .fail hbind, hview, rfl, rfl⟩
  | reuse hbind hreuse hmark =>
    exact ⟨r, 0, .reuse hbind hreuse ((hmarked _).mp hmark), hview, rfl, rfl⟩
  | mark hbind hmark =>
    refine ⟨_, 0, .mark hbind fun hreuse hmem => hmark hreuse ((hmarked _).mpr hmem), ?_, rfl, rfl⟩
    simp only [Shared.view_mark_self, hview]
  | deliver hemit =>
    obtain ⟨kept', hemit'⟩ := exists_emit_eq hemit (hanswer _ r.emitter _ (howned _ _ _ rfl))
    exact ⟨_, 0, .deliver hemit', hview, rfl, rfl⟩
  | reject hemit =>
    obtain ⟨kept', hemit'⟩ := exists_emit_eq hemit (hanswer _ r.emitter _ (howned _ _ _ rfl))
    exact ⟨_, 0, .reject hemit', hview, rfl, rfl⟩

end Moves

end Localization.Generation
