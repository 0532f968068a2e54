import Localization.Bundle.Draft
import Localization.Proofs.Locale.Chain
import Localization.Proofs.Lookup.Walk

namespace Localization

/-- What the bundle for exactly this locale declares for a key: the value for the form, if one is
asked for, or else the default value. -/
def Catalog.declared? (c : Catalog) (key : String) (form? : Option Selector) (t : Locale) :
    Option Binding :=
  (c.get? t).bind fun b =>
    (form?.bind fun form => (b.form? key form).map fun value => ⟨value, t, some form⟩).or
      ((b.default? key).map fun value => ⟨value, t, none⟩)

/-- The value of a key by inheritance: what a locale does not declare it has from its parent. -/
def Catalog.inherited? (c : Catalog) (key : String) (form? : Option Selector) (t : Locale) :
    Option Binding :=
  match c.declared? key form? t with
  | some found => some found
  | none =>
    match _h : t.parent? with
    | none => none
    | some p => c.inherited? key form? p
termination_by t.specificity
decreasing_by
  have := Locale.specificity_of_parent? _h
  omega

namespace Catalog

variable (c : Catalog) (t : Locale)

/-- The bundles of a locale are its own, if there is one, and those of its parent. -/
theorem bundles_resolve : (c.resolve t).bundles =
    (c.get? t).toList ++ match t.parent? with
      | none => []
      | some p => (c.resolve p).bundles := by
  cases hparent : t.parent? with
  | none =>
    rw [resolve, Locale.chain_of_no_parent hparent]
    cases hget : c.get? t <;> simp [hget]
  | some p =>
    rw [resolve, Locale.chain_of_parent? hparent]
    cases hget : c.get? t <;> simp [resolve, hget]

theorem locale_of_get? {b : Bundle} (h : c.get? t = some b) : b.locale = t :=
  (c.belongs t b h).1

/-- The bundles of a chain are the catalog's own, each under its locale. -/
theorem get?_of_mem_bundles {b : Bundle} (h : b ∈ (c.resolve t).bundles) :
    c.get? b.locale = some b := by
  obtain ⟨u, -, hget⟩ := List.mem_filterMap.1 h
  rwa [c.locale_of_get? u hget]

/-- One bundle's part in a lookup that falls back to defaults of the same locale. -/
theorem declared?_eq_of_get? {b : Bundle} (h : c.get? t = some b) (key : String)
    (form? : Option Selector) : c.declared? key form? t =
      (form?.toList.findSome? (b.formBinding? key ·)).or (b.defaultBinding? key) := by
  have hlocale := c.locale_of_get? t h
  cases form? <;> simp [declared?, h, Bundle.formBinding?, Bundle.defaultBinding?, hlocale]

variable (key : String) (form? : Option Selector)

/-- A lookup first asks the locale's own bundle, then looks the key up for the parent. -/
theorem lookup?_resolve_step : (c.resolve t).lookup? .sameLocaleDefault key form? =
    (c.declared? key form? t).or
      (t.parent?.bind fun p => (c.resolve p).lookup? .sameLocaleDefault key form?) := by
  simp only [Resolution.lookup?_eq_select?, Resolution.select?]
  rw [bundles_resolve, List.findSome?_append]
  congr 1
  · cases hget : c.get? t with
    | none => simp [declared?, hget]
    | some b => simp [c.declared?_eq_of_get? t hget]
  · cases t.parent? <;> simp

/-- Walking the chain is inheriting from parent to parent. -/
theorem lookup?_resolve :
    (c.resolve t).lookup? .sameLocaleDefault key form? = c.inherited? key form? t := by
  fun_induction inherited? c key form? t with
  | case1 t found hdeclared =>
    rw [lookup?_resolve_step, hdeclared, Option.some_or]
  | case2 t hdeclared hparent =>
    rw [lookup?_resolve_step, hdeclared, hparent]
    rfl
  | case3 t hdeclared p hparent ih =>
    rw [lookup?_resolve_step, hdeclared, hparent]
    exact ih

/-- Falling back to defaults of the same locale, a lookup gives the inherited value, or the error
of a missing key if the locale inherits none; only root has no parent to inherit from. What is
found is declared by the bundle of the locale it names, which is one of the chain's, and the chain's
bundles are the locale's own and then the parent's. -/
theorem lookup_resolve_eq_inherited :
    (c.resolve t).lookup .sameLocaleDefault key form? =
        (c.resolve t).require key (c.inherited? key form? t) ∧
      (t.parent? = none ↔ t = .root) ∧
      (∀ found, (c.resolve t).lookup .sameLocaleDefault key form? = .ok found →
        found.locale ∈ (c.resolve t).locales ∧
          (∀ form, found.form? = some form → form? = some form) ∧
          ∃ b, c.get? found.locale = some b ∧ b.Declares key found) ∧
      (c.resolve t).bundles = (c.get? t).toList ++ match t.parent? with
        | none => []
        | some p => (c.resolve p).bundles := by
  rw [Resolution.lookup_eq_require]
  refine ⟨by rw [lookup?_resolve], t.parent?_eq_none_iff, ?_, c.bundles_resolve t⟩
  intro found hfound
  rw [Resolution.require_eq_ok_iff, Resolution.lookup?_eq_select?] at hfound
  obtain ⟨b, hmem, hdeclares, hform⟩ := Resolution.declares_of_select? hfound
  refine ⟨List.mem_map.2 ⟨b, hmem, hdeclares.1.symm⟩, by simpa using hform, b, ?_, hdeclares⟩
  rw [hdeclares.1]
  exact c.get?_of_mem_bundles t hmem

/-- What `az` does not declare it inherits from root. -/
theorem lookup_resolve_eq_inherited_az :
    ∃ c, (do
        let root ← Bundle.ofDeclarations ⟨"Messages"⟩ .root none [.default "title" (.text "Home")]
        let azeri ← Bundle.ofDeclarations ⟨"Messages"⟩ { language := "az" } none
          [.default "files" (.text "fayllar")]
        Catalog.ofList ⟨"Messages"⟩ [root, azeri]) = .ok c ∧
      (c.resolve { language := "az" }).lookup .sameLocaleDefault "title" none =
        .ok ⟨.text "Home", .root, none⟩ ∧
      .root ∈ (c.resolve { language := "az" }).locales ∧
      ∃ b, c.get? .root = some b ∧ b.Declares "title" ⟨.text "Home", .root, none⟩ := by
  refine ⟨_, rfl, by rfl, ?_⟩
  exact ((lookup_resolve_eq_inherited _ { language := "az" } "title" none).2.2.1
    ⟨.text "Home", .root, none⟩ (by rfl)).imp_right And.right

end Catalog

end Localization
