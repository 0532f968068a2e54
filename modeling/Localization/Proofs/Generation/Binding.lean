import Localization.Proofs.Generation.Progress
import Localization.Proofs.Locale.Canonical
import Localization.Proofs.Lookup.Effective
import Localization.Proofs.Results

namespace Localization

namespace Locale

/-- The locale that is written as root's class is named. -/
def rootNamesake : Locale where
  language := "default"

theorem canonical_rootNamesake : rootNamesake.Canonical where
  language_ne_nil := by decide
  language := by
    have hlower : rootNamesake.language.toList.all Char.isLower := rfl
    exact List.all_eq_true.1 hlower
  script := .inl rfl
  region := .inl rfl
  variant := ⟨[], variantSegments_nil rfl⟩

/-- One of the locales is root and the other its namesake. -/
def Clash (t u : Locale) : Prop :=
  t = root ∧ u = rootNamesake ∨ t = rootNamesake ∧ u = root

theorem Clash.ne {t u : Locale} (h : t.Clash u) : t ≠ u := by
  rcases h with ⟨rfl, rfl⟩ | ⟨rfl, rfl⟩ <;> decide

end Locale

namespace Generation

theorem className_of_canonical (i : Interface) {t : Locale} (h : t.Canonical) :
    className i t = i.simpleName ++ ("_" ++ t.name) := by
  rw [className, Locale.isRoot_eq_false h.language_ne_empty]
  exact String.append_assoc

theorem className_root (i : Interface) : className i .root = className i Locale.rootNamesake := by
  rw [className_of_canonical i Locale.canonical_rootNamesake]
  rfl

theorem eq_of_className_eq_of_canonical {i : Interface} {t u : Locale} (ht : t.Canonical)
    (hu : u.Canonical) (h : className i t = className i u) : t = u := by
  rw [className_of_canonical i ht, className_of_canonical i hu, String.append_right_inj,
    String.append_right_inj] at h
  exact ht.eq_of_name_eq hu h

/-- Classes of one interface have different names, but for those of root and its namesake. -/
theorem eq_or_clash_of_className_eq {i : Interface} {t u : Locale} (ht : t = .root ∨ t.Canonical)
    (hu : u = .root ∨ u.Canonical) (h : className i t = className i u) : t = u ∨ t.Clash u := by
  rcases ht with rfl | ht <;> rcases hu with rfl | hu
  · exact .inl rfl
  · rw [className_root] at h
    have heq := eq_of_className_eq_of_canonical Locale.canonical_rootNamesake hu h
    exact .inr (.inl ⟨rfl, heq.symm⟩)
  · rw [className_root] at h
    exact .inr (.inr ⟨eq_of_className_eq_of_canonical ht Locale.canonical_rootNamesake h, rfl⟩)
  · exact .inl (eq_of_className_eq_of_canonical ht hu h)

/-- What is missing is told apart from errors only. -/
theorem toOption_unresolved (config : Config) (method : Method) (missing missing' : MissingKey) :
    (unresolved config method missing).toOption = (unresolved config method missing').toOption := by
  unfold unresolved
  cases method.default? with
  | some value => rfl
  | none =>
    simp only
    split <;> rfl

/-- Searches that differ in what they tell about a failure at most. -/
theorem ok_or_error_of_mapError_eq {ε α β : Type} {found found' : Except ε α} {f : ε → β}
    (h : found.mapError f = found'.mapError f) :
    (∃ x, found = .ok x ∧ found' = .ok x) ∨ ∃ e e', found = .error e ∧ found' = .error e' := by
  cases found <;> cases found' <;> simp_all [Except.mapError]

theorem toOption_bindMethod_congr {r r' : Resolution} (h : r.bundles = r'.bundles) (config : Config)
    (job : Job) (method : Method) :
    (bindMethod config job r method).toOption = (bindMethod config job r' method).toOption := by
  have hlookup := Resolution.lookup_congr h config.selectorFallback method.key none
  have htable := Resolution.formTable_congr h config.selectorFallback method.key
  unfold bindMethod
  split
  · split
    · rfl
    · rcases ok_or_error_of_mapError_eq htable with ⟨table, hr, hr'⟩ | ⟨missing, missing', hr, hr'⟩
      · rw [hr, hr']
      · rw [hr, hr']
        exact toOption_unresolved config method missing missing'
  · rcases ok_or_error_of_mapError_eq hlookup with ⟨binding, hr, hr'⟩ | ⟨missing, missing', hr, hr'⟩
    · rw [hr, hr']
    · rw [hr, hr']
      exact toOption_unresolved config method missing missing'

theorem toOption_boundMethod (config : Config) (job : Job) (r : Resolution) (method : Method) :
    (boundMethod config job r method).toOption = (bindMethod config job r method).toOption.map
      fun value => { method := method.name, key := method.key, value } := by
  unfold boundMethod
  cases bindMethod config job r method <;> rfl

/-- Where the same bundles are searched, what can be bound is bound to the same. -/
theorem methods_eq_of_bindMethods {config : Config} {job : Job} {methods : List Method}
    {t u : Locale} {r r' : Resolution} {a b : Artifact} (h : r.bundles = r'.bundles)
    (ha : bindMethods config job methods t r = .ok a)
    (hb : bindMethods config job methods u r' = .ok b) : a.methods = b.methods := by
  have hbound := congrArg Except.toOption (bindMethods_eq_ok_iff.1 ha).1
  have hbound' := congrArg Except.toOption (bindMethods_eq_ok_iff.1 hb).1
  have hcongr : (fun method => (boundMethod config job r method).toOption) =
      fun method => (boundMethod config job r' method).toOption :=
    funext fun method => by
      rw [toOption_boundMethod, toOption_boundMethod, toOption_bindMethod_congr h]
  rw [toOption_mapM, hcongr, ← toOption_mapM, hbound'] at hbound
  exact (Option.some.inj hbound).symm

/-- A fresh pass binds an interface to what its own resources resolve to. -/
theorem Pass.bind_of_fresh {p : Pass} (hcache : p.cache = {}) {job : Job} {oracle : Oracle}
    {methods : List Method} (horacle : oracle job.interface = .ok methods) (locale : Locale) :
    (p.bind job oracle locale).1 =
      bindMethods p.config job methods locale (job.catalog.resolve locale) := by
  have hget : p.cache.get? { interface := job.catalog.interface, locale } = none := by
    rw [hcache]
    rfl
  simp only [Pass.bind, horacle, bindAt, Cache.resolve_of_get?_eq_none hget]
  rfl

theorem Pass.bind_eq_ok {p : Pass} (hcache : p.cache = {}) {job : Job} {oracle : Oracle}
    {locale : Locale} {a : Artifact} (h : (p.bind job oracle locale).1 = .ok a) :
    ∃ methods, oracle job.interface = .ok methods ∧
      bindMethods p.config job methods locale (job.catalog.resolve locale) = .ok a := by
  cases horacle : oracle job.interface with
  | error error =>
    simp only [Pass.bind, horacle] at h
    cases h
  | ok methods => exact ⟨methods, rfl, (Pass.bind_of_fresh hcache horacle locale).symm.trans h⟩

/-- Of two artifacts of an interface whose classes have one name, one can stand for the other unless
one of them is root's and the other its namesake's. -/
theorem artifacts_agree_iff {p : Pass} (hcache : p.cache = {}) {job : Job} {oracle : Oracle}
    {t u : Locale} (ht : t = .root ∨ t.Canonical) (hu : u = .root ∨ u.Canonical) {a b : Artifact}
    (ha : (p.bind job oracle t).1 = .ok a) (hb : (p.bind job oracle u).1 = .ok b)
    (hclass : a.className = b.className) :
    a.effective = b.effective ∧ a.methods = b.methods ↔ ¬a.effective.Clash b.effective := by
  obtain ⟨methods, horacle, hbind⟩ := Pass.bind_eq_ok hcache ha
  obtain ⟨methods', horacle', hbind'⟩ := Pass.bind_eq_ok hcache hb
  obtain rfl : methods = methods' := Except.ok.inj (horacle.symm.trans horacle')
  obtain ⟨-, -, -, -, heffective, hname⟩ := bindMethods_eq_ok_iff.1 hbind
  obtain ⟨-, -, -, -, heffective', hname'⟩ := bindMethods_eq_ok_iff.1 hbind'
  constructor
  · rintro ⟨heq, -⟩ hclash
    exact hclash.ne heq
  · intro hclash
    rw [hname, hname'] at hclass
    rw [heffective, heffective'] at hclash ⊢
    have heq := (eq_or_clash_of_className_eq
      (Locale.canonical_of_mem_chain ht (job.catalog.effective_resolve_mem_chain t))
      (Locale.canonical_of_mem_chain hu (job.catalog.effective_resolve_mem_chain u))
      hclass).resolve_right hclash
    have hbundles := job.catalog.bundles_resolve_congr heq
    exact ⟨heq, methods_eq_of_bindMethods hbundles hbind hbind'⟩

theorem Pass.canonical_of_mem_locales {config : Config} {p : Pass} (h : Pass.start config = .ok p)
    {locale : Locale} (hmem : locale ∈ p.locales) : locale = .root ∨ locale.Canonical := by
  obtain ⟨-, hlocales, -, -⟩ := Pass.eq_of_start h
  obtain ⟨text, -, hparse⟩ := exists_of_mem_mapM hlocales hmem
  exact Locale.canonical_of_parse hparse

end Generation

end Localization
