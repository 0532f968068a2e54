import Localization.Proofs.Generation.Binding
import Localization.Proofs.Lookup.Table

namespace Localization.Generation

namespace Method

variable {m : Method} {config : Config} {job : Job} {policy : Fallback} {r : Resolution}

/-- What the resources of a locale have for a method: a table of forms if it selects a plural form,
else the default value. -/
def resource (m : Method) (policy : Fallback) (r : Resolution) : Except MissingKey BoundValue :=
  if m.plural then (r.formTable policy m.key).map .selectable
  else (r.lookup policy m.key none).map .resolved

/-- Whether some bundle has what the method asks for: any value if it selects a plural form, else a
default value. -/
def HasResource (m : Method) (r : Resolution) : Prop :=
  ∃ b ∈ r.bundles, if m.plural then b.contains m.key else (b.default? m.key).isSome

/-- Only methods with parameters can select a plural form. -/
def Fits (m : Method) (kind : Kind) : Prop :=
  ¬(m.plural ∧ kind = .constants)

/-- Whether something can be bound, with a resource or without. -/
def HasSource (m : Method) (config : Config) (r : Resolution) : Prop :=
  m.HasResource r ∨ m.default?.isSome ∨ m.optional ∨ config.failOnMissing = false

/-- What the resources have comes first, then the method's own default value. -/
inductive BindsTo (m : Method) (policy : Fallback) (r : Resolution) : BoundValue → Prop
  | resource {value : BoundValue} (h : m.resource policy r = .ok value) : BindsTo m policy r value
  | declared {value : Value} (hmissing : ¬m.HasResource r) (h : m.default? = some value) :
      BindsTo m policy r (.declared value)
  | absent (hmissing : ¬m.HasResource r) (h : m.default? = none) : BindsTo m policy r .absent

/-- Why a method cannot be bound. Whether it fits the interface is asked before the resources
are. -/
inductive Rejected (m : Method) (config : Config) (job : Job) (r : Resolution) : Error → Prop
  | plural (h : ¬m.Fits job.kind) : Rejected m config job r (.pluralConstant job.interface m.name)
  | missing (hfits : m.Fits job.kind) (h : ¬m.HasSource config r) :
      Rejected m config job r
        (.missingKey { key := m.key, tried := r.locales, chain := r.chain })

theorem resource_eq_error_iff {missing : MissingKey} : m.resource policy r = .error missing ↔
    ¬m.HasResource r ∧ missing = r.missingKey m.key := by
  unfold resource HasResource
  split
  · simp [map_eq_error_iff, Resolution.formTable_eq_missing_iff]
  · simp [map_eq_error_iff, Resolution.lookup_none_eq_error_iff]

theorem hasResource_iff (policy : Fallback) :
    m.HasResource r ↔ ∃ value, m.resource policy r = .ok value := by
  cases h : m.resource policy r with
  | ok value =>
    refine iff_of_true (by_contra fun hmissing => ?_) ⟨value, rfl⟩
    cases h.symm.trans (resource_eq_error_iff.2 ⟨hmissing, rfl⟩)
  | error missing =>
    exact iff_of_false (resource_eq_error_iff.1 h).1 fun ⟨value, hvalue⟩ => by cases hvalue

theorem not_hasSource_iff : ¬m.HasSource config r ↔
    ¬m.HasResource r ∧ m.default? = none ∧ m.optional = false ∧ config.failOnMissing := by
  simp [HasSource]

theorem exists_bindsTo (m : Method) (policy : Fallback) (r : Resolution) :
    ∃ value, m.BindsTo policy r value := by
  by_cases hhas : m.HasResource r
  · obtain ⟨value, hvalue⟩ := (hasResource_iff policy).1 hhas
    exact ⟨value, .resource hvalue⟩
  · cases hdefault : m.default? with
    | some value => exact ⟨_, .declared hhas hdefault⟩
    | none => exact ⟨_, .absent hhas hdefault⟩

end Method

variable {m : Method} {config : Config} {job : Job} {r : Resolution} {missing : MissingKey}

theorem unresolved_eq_ok_iff {value : BoundValue} : unresolved config m missing = .ok value ↔
    (∃ v, m.default? = some v ∧ value = .declared v) ∨
      m.default? = none ∧ (m.optional ∨ config.failOnMissing = false) ∧ value = .absent := by
  unfold unresolved
  cases m.default? with
  | some v => simpa using eq_comm
  | none => cases m.optional <;> cases config.failOnMissing <;> simp [@eq_comm _ value]

theorem unresolved_eq_error_iff {error : Error} : unresolved config m missing = .error error ↔
    m.default? = none ∧ m.optional = false ∧ config.failOnMissing ∧
      error = .missingKey missing := by
  unfold unresolved
  cases m.default? with
  | some v => simp
  | none =>
    cases m.optional <;> cases config.failOnMissing <;> simp [eq_comm]

/-- A method that fits is bound to what the resources have, or does without. -/
theorem bindMethod_eq (hfits : m.Fits job.kind) : bindMethod config job r m =
    match m.resource config.selectorFallback r with
    | .ok value => .ok value
    | .error missing => unresolved config m missing := by
  unfold bindMethod Method.resource
  split
  · rename_i h
    rw [if_neg fun hkind => hfits ⟨h, hkind⟩]
    cases r.formTable config.selectorFallback m.key <;> rfl
  · cases r.lookup config.selectorFallback m.key none <;> rfl

theorem bindMethod_of_resource (hfits : m.Fits job.kind) {value : BoundValue}
    (h : m.resource config.selectorFallback r = .ok value) :
    bindMethod config job r m = .ok value := by
  rw [bindMethod_eq hfits, h]

theorem bindMethod_of_not_hasResource (hfits : m.Fits job.kind) (h : ¬m.HasResource r) :
    bindMethod config job r m = unresolved config m (r.missingKey m.key) := by
  rw [bindMethod_eq hfits, Method.resource_eq_error_iff.2 ⟨h, rfl⟩]

theorem bindMethod_of_not_fits (h : ¬m.Fits job.kind) :
    bindMethod config job r m = .error (.pluralConstant job.interface m.name) := by
  obtain ⟨hplural, hkind⟩ := not_not.1 h
  rw [bindMethod, if_pos hplural, if_pos hkind]

/-- A method is bound just if it fits the interface and something can be bound, and then by the
precedence of what it can be bound to. -/
theorem bindMethod_eq_ok_iff {value : BoundValue} : bindMethod config job r m = .ok value ↔
    m.Fits job.kind ∧ m.HasSource config r ∧ m.BindsTo config.selectorFallback r value := by
  by_cases hfits : m.Fits job.kind
  · by_cases hhas : m.HasResource r
    · obtain ⟨found, hfound⟩ := (Method.hasResource_iff config.selectorFallback).1 hhas
      rw [bindMethod_of_resource hfits hfound]
      constructor
      · rintro ⟨⟩
        exact ⟨hfits, .inl hhas, .resource hfound⟩
      · rintro ⟨-, -, hvalue | ⟨hmissing, -⟩ | ⟨hmissing, -⟩⟩
        · exact congrArg Except.ok (Except.ok.inj (hfound.symm.trans hvalue))
        · exact absurd hhas hmissing
        · exact absurd hhas hmissing
    · rw [bindMethod_of_not_hasResource hfits hhas, unresolved_eq_ok_iff]
      constructor
      · rintro (⟨v, hv, rfl⟩ | ⟨hnone, hwithout, rfl⟩)
        · exact ⟨hfits, .inr (.inl (by simp [hv])), .declared hhas hv⟩
        · exact ⟨hfits, .inr (.inr hwithout), .absent hhas hnone⟩
      · rintro ⟨-, hsource, hvalue | ⟨-, hv⟩ | ⟨-, hnone⟩⟩
        · exact absurd ((Method.hasResource_iff _).2 ⟨value, hvalue⟩) hhas
        · exact .inl ⟨_, hv, rfl⟩
        · have hwithout := (hsource.resolve_left hhas).resolve_left (by simp [hnone])
          exact .inr ⟨hnone, hwithout, rfl⟩
  · rw [bindMethod_of_not_fits hfits]
    exact iff_of_false (fun h => by cases h) fun h => hfits h.1

theorem bindMethod_eq_error_iff {error : Error} :
    bindMethod config job r m = .error error ↔ m.Rejected config job r error := by
  by_cases hfits : m.Fits job.kind
  · by_cases hhas : m.HasResource r
    · obtain ⟨found, hfound⟩ := (Method.hasResource_iff config.selectorFallback).1 hhas
      rw [bindMethod_of_resource hfits hfound]
      refine iff_of_false (fun h => by cases h) ?_
      rintro (h | ⟨-, h⟩)
      · exact h hfits
      · exact h (.inl hhas)
    · rw [bindMethod_of_not_hasResource hfits hhas, unresolved_eq_error_iff]
      constructor
      · rintro ⟨hnone, hoptional, hstrict, rfl⟩
        exact .missing hfits (Method.not_hasSource_iff.2 ⟨hhas, hnone, hoptional, hstrict⟩)
      · rintro (h | ⟨-, h⟩)
        · exact absurd hfits h
        · obtain ⟨-, hnone, hoptional, hstrict⟩ := Method.not_hasSource_iff.1 h
          exact ⟨hnone, hoptional, hstrict, rfl⟩
  · rw [bindMethod_of_not_fits hfits]
    constructor
    · rintro ⟨⟩
      exact .plural hfits
    · rintro (h | ⟨h, -⟩)
      · rfl
      · exact absurd h hfits

theorem boundMethod_eq_ok_iff {bound : BoundMethod} : boundMethod config job r m = .ok bound ↔
    bound.method = m.name ∧ bound.key = m.key ∧ bindMethod config job r m = .ok bound.value := by
  obtain ⟨name, key, value⟩ := bound
  rw [boundMethod, bind_eq_ok_iff]
  constructor
  · rintro ⟨value, hvalue, ⟨⟩⟩
    exact ⟨rfl, rfl, hvalue⟩
  · rintro ⟨rfl, rfl, hvalue⟩
    exact ⟨value, hvalue, rfl⟩

theorem boundMethod_eq_error_iff {error : Error} : boundMethod config job r m = .error error ↔
    bindMethod config job r m = .error error := by
  rw [boundMethod, bind_eq_error_iff]
  exact or_iff_left fun ⟨_, _, h⟩ => by cases h

/-- A method in an artifact has its name, its key and what it is bound to. -/
def Method.BoundAs (m : Method) (policy : Fallback) (r : Resolution) (bound : BoundMethod) : Prop :=
  bound.method = m.name ∧ bound.key = m.key ∧ m.BindsTo policy r bound.value

theorem exists_boundMethod_iff : (∃ bound, boundMethod config job r m = .ok bound) ↔
    m.Fits job.kind ∧ m.HasSource config r := by
  simp only [boundMethod_eq_ok_iff, bindMethod_eq_ok_iff]
  constructor
  · rintro ⟨bound, -, -, hfits, hsource, -⟩
    exact ⟨hfits, hsource⟩
  · rintro ⟨hfits, hsource⟩
    obtain ⟨value, hvalue⟩ := m.exists_bindsTo config.selectorFallback r
    exact ⟨⟨m.name, m.key, value⟩, rfl, rfl, hfits, hsource, hvalue⟩

section

variable {methods : List Method} {locale : Locale} {a : Artifact} {error : Error}

theorem exists_bindMethods_iff : (∃ a, bindMethods config job methods locale r = .ok a) ↔
    ∀ m ∈ methods, m.Fits job.kind ∧ m.HasSource config r := by
  simp only [← exists_boundMethod_iff]
  constructor
  · rintro ⟨a, ha⟩ m hm
    obtain ⟨bound, -, hbound⟩ := exists_result_of_mem (bindMethods_eq_ok_iff.1 ha).1 hm
    exact ⟨bound, hbound⟩
  · intro h
    obtain ⟨bound, hbound⟩ := exists_mapM_eq_ok h
    exact ⟨⟨job.interface, job.kind, locale, r.effective, _, bound⟩,
      bindMethods_eq_ok_iff.2 ⟨hbound, rfl, rfl, rfl, rfl, rfl⟩⟩

theorem forall₂_boundAs_of_bindMethods (h : bindMethods config job methods locale r = .ok a) :
    List.Forall₂ (·.BoundAs config.selectorFallback r) methods a.methods := by
  refine (mapM_eq_ok_iff.1 (bindMethods_eq_ok_iff.1 h).1).imp fun m bound hbound => ?_
  obtain ⟨hname, hkey, hvalue⟩ := boundMethod_eq_ok_iff.1 hbound
  exact ⟨hname, hkey, (bindMethod_eq_ok_iff.1 hvalue).2.2⟩

/-- The error is that of the first method that cannot be bound. -/
theorem bindMethods_eq_error_iff : bindMethods config job methods locale r = .error error ↔
    ∃ before m after, methods = before ++ m :: after ∧
      (∀ m' ∈ before, m'.Fits job.kind ∧ m'.HasSource config r) ∧
      m.Rejected config job r error := by
  have hbound : bindMethods config job methods locale r = .error error ↔
      methods.mapM (boundMethod config job r) = .error error :=
    bind_eq_error_iff.trans (or_iff_left fun ⟨_, _, h⟩ => by cases h)
  simp only [hbound, mapM_eq_error_iff, exists_boundMethod_iff, boundMethod_eq_error_iff,
    bindMethod_eq_error_iff]

end

/-- The configuration, but for whether a required key may be missing everywhere. -/
def Config.withStrictness (config : Config) (failOnMissing : Bool) : Config :=
  { config with failOnMissing }

section

variable {methods : List Method} {locale : Locale} {strict : Bool}

theorem Method.hasSource_lenient (m : Method) (config : Config) (r : Resolution) :
    m.HasSource (config.withStrictness false) r :=
  .inr (.inr (.inr rfl))

/-- Where nothing has to be there, no key is missing. -/
theorem bindMethods_lenient_ne_missingKey (missing : MissingKey) :
    bindMethods (config.withStrictness false) job methods locale r ≠
      .error (.missingKey missing) := by
  intro h
  obtain ⟨-, m, -, -, -, hrejected⟩ := bindMethods_eq_error_iff.1 h
  cases hrejected with
  | missing _ hsource => exact hsource (m.hasSource_lenient config r)

theorem boundMethod_lenient {bound : BoundMethod} (h : boundMethod config job r m = .ok bound) :
    boundMethod (config.withStrictness false) job r m = .ok bound := by
  obtain ⟨hname, hkey, hvalue⟩ := boundMethod_eq_ok_iff.1 h
  obtain ⟨hfits, -, hbinds⟩ := bindMethod_eq_ok_iff.1 hvalue
  exact boundMethod_eq_ok_iff.2
    ⟨hname, hkey, bindMethod_eq_ok_iff.2 ⟨hfits, m.hasSource_lenient config r, hbinds⟩⟩

/-- To be strict makes a difference only where a key is missing. -/
theorem bindMethods_lenient_eq
    (h : ∀ missing, bindMethods config job methods locale r ≠ .error (.missingKey missing)) :
    bindMethods (config.withStrictness false) job methods locale r =
      bindMethods config job methods locale r := by
  cases hresult : bindMethods config job methods locale r with
  | ok a =>
    obtain ⟨hbound, hartifact⟩ := bindMethods_eq_ok_iff.1 hresult
    have hlenient := (mapM_eq_ok_iff.1 hbound).imp fun _ _ => boundMethod_lenient
    exact bindMethods_eq_ok_iff.2 ⟨mapM_eq_ok_iff.2 hlenient, hartifact⟩
  | error error =>
    obtain ⟨before, m, after, hmethods, hbefore, hrejected⟩ := bindMethods_eq_error_iff.1 hresult
    refine bindMethods_eq_error_iff.2 ⟨before, m, after, hmethods, fun m' hm' =>
      ⟨(hbefore m' hm').1, m'.hasSource_lenient config r⟩, ?_⟩
    -- A method that does not fit is rejected however strict the configuration is.
    cases hrejected with
    | plural hfits => exact .plural hfits
    | missing => exact absurd hresult (h _)

end

/-- Whether a configuration is valid does not depend on its strictness. -/
theorem Pass.start_withStrictness {p : Pass} (h : Pass.start config = .ok p) (strict : Bool) :
    Pass.start (config.withStrictness strict) =
      .ok { p with config := config.withStrictness strict } := by
  obtain ⟨hfaults, hlocales, -, hcache⟩ := Pass.eq_of_start h
  have hfaults' : (config.withStrictness strict).faults = [] := hfaults
  have hlocales' : (config.withStrictness strict).parsedLocales = .ok p.locales := hlocales
  rw [Pass.start, if_neg (not_not.2 hfaults'), hlocales', hcache]
  rfl

/-- A fresh pass binds an interface just if each of its methods fits and has a resource, its own
default value or leave to be absent. Then the methods are bound in order, each to its resource
before its own default value; else the error is that of the first method that cannot be bound. A
strict and a lenient pass differ only where the strict one misses a key, which the lenient one
never does. -/
theorem Pass.bind_exact {p : Pass} (hstart : Pass.start config = .ok p) {oracle : Oracle}
    {methods : List Method} (horacle : oracle job.interface = .ok methods) (locale : Locale) :
    let r := job.catalog.resolve locale
    ((∃ a, (p.bind job oracle locale).1 = .ok a) ↔
        (∀ m ∈ methods, ¬(m.plural ∧ job.kind = .constants)) ∧
        ∀ m ∈ methods, m.HasResource r ∨ m.default?.isSome ∨ m.optional ∨
          config.failOnMissing = false) ∧
      (∀ a, (p.bind job oracle locale).1 = .ok a →
        List.Forall₂ (·.BoundAs config.selectorFallback r) methods a.methods) ∧
      (∀ error, (p.bind job oracle locale).1 = .error error ↔
        ∃ before m after, methods = before ++ m :: after ∧
          (∀ m' ∈ before, m'.Fits job.kind ∧ m'.HasSource config r) ∧
          m.Rejected config job r error) ∧
      ∃ strict lenient : Pass,
        Pass.start { config with failOnMissing := true } = .ok strict ∧
        Pass.start { config with failOnMissing := false } = .ok lenient ∧
        ((∀ missing, (strict.bind job oracle locale).1 ≠ .error (.missingKey missing)) →
          (lenient.bind job oracle locale).1 = (strict.bind job oracle locale).1) ∧
        ∀ missing, (lenient.bind job oracle locale).1 ≠ .error (.missingKey missing) := by
  intro r
  obtain ⟨-, -, hconfig, hcache⟩ := Pass.eq_of_start hstart
  have hbind : (p.bind job oracle locale).1 = bindMethods config job methods locale r := by
    rw [Pass.bind_of_fresh hcache horacle, hconfig]
  have hchanged (strict : Bool) :
      (Pass.bind { p with config := config.withStrictness strict } job oracle locale).1 =
        bindMethods (config.withStrictness strict) job methods locale r := by
    obtain ⟨-, -, hstrict, hfresh⟩ := Pass.eq_of_start (Pass.start_withStrictness hstart strict)
    rw [Pass.bind_of_fresh hfresh horacle, hstrict]
  rw [hbind]
  refine ⟨exists_bindMethods_iff.trans forall₂_and, fun a => forall₂_boundAs_of_bindMethods,
    fun error => bindMethods_eq_error_iff, _, _, Pass.start_withStrictness hstart true,
    Pass.start_withStrictness hstart false, ?_, ?_⟩
  · rw [hchanged true, hchanged false]
    exact fun hpresent => bindMethods_lenient_eq hpresent
  · rw [hchanged false]
    exact bindMethods_lenient_ne_missingKey

/-- `Menu` has a title and a form for its items in `az`, but neither a motto nor a footer. -/
theorem Pass.bind_exact_Menu :
    let methods : List Method := [{ name := "title" }, { name := "items", plural := true },
      { name := "motto", default? := some (.text "Ev") }, { name := "footer" }]
    let oracle := Oracle.ofList [(⟨"Menu"⟩, methods)]
    let made : Except Localization.Error Job := do
      let ev ← Bundle.ofDeclarations ⟨"Menu"⟩ { language := "az" } none
        [.default "title" (.text "Menyu"), .form "items" (.exact 0) (.text "Boş")]
      return ⟨.messages, ← Catalog.ofList ⟨"Menu"⟩ [ev]⟩
    let strict : Config := { locales := ["az"] }
    let lenient : Config := { locales := ["az"], failOnMissing := false }
    ∃ job p q a, made = .ok job ∧ oracle job.interface = .ok methods ∧
      Pass.start strict = .ok p ∧ Pass.start lenient = .ok q ∧
      (p.bind job oracle { language := "az" }).1 =
        .error (.missingKey ⟨"footer", [{ language := "az" }], [{ language := "az" }, .root]⟩) ∧
      (q.bind job oracle { language := "az" }).1 = .ok a ∧
      List.Forall₂ (·.BoundAs .sameLocaleDefault (job.catalog.resolve { language := "az" })) methods
        a.methods := by
  intro methods oracle made strict lenient
  obtain ⟨job, a, hjob, horacle, hstrict, hlenient⟩ : ∃ job a, made = .ok job ∧
      oracle job.interface = .ok methods ∧
      (Pass.bind ⟨strict, [{ language := "az" }], {}⟩ job oracle { language := "az" }).1 =
        .error (.missingKey ⟨"footer", [{ language := "az" }], [{ language := "az" }, .root]⟩) ∧
      (Pass.bind ⟨lenient, [{ language := "az" }], {}⟩ job oracle { language := "az" }).1 = .ok a :=
    ⟨_, _, rfl, rfl, rfl, rfl⟩
  have hstart : Pass.start lenient = .ok ⟨lenient, [{ language := "az" }], {}⟩ := rfl
  have hbound := (Pass.bind_exact hstart horacle { language := "az" }).2.1 a hlenient
  exact ⟨job, ⟨strict, _, {}⟩, ⟨lenient, _, {}⟩, a, hjob, horacle, rfl, hstart, hstrict, hlenient,
    hbound⟩

end Localization.Generation
