import Localization.Bundle.Draft
import Localization.Proofs.Lookup.Inheritance

namespace Localization

/-- What the error of a missing key tells about the search, the requested locale's chain apart. -/
def MissingKey.searched (m : MissingKey) : String × List Locale :=
  (m.key, m.tried)

namespace Resolution

variable {r s : Resolution}

/-- Lookups see nothing of a resolution but its bundles. -/
theorem select?_congr (h : r.bundles = s.bundles) (policy : Fallback) (key : String)
    (forms : List Selector) : r.select? policy key forms = s.select? policy key forms := by
  cases policy <;> simp only [select?, findForm?, findDefault?, h]

theorem lookup?_congr (h : r.bundles = s.bundles) (policy : Fallback) (key : String)
    (form? : Option Selector) : r.lookup? policy key form? = s.lookup? policy key form? := by
  simp only [lookup?_eq_select?, select?_congr h]

theorem searched_missingKey_congr (h : r.bundles = s.bundles) (key : String) :
    (r.missingKey key).searched = (s.missingKey key).searched := by
  simp only [MissingKey.searched, missingKey, locales, h]

theorem lookup_congr (h : r.bundles = s.bundles) (policy : Fallback) (key : String)
    (form? : Option Selector) :
    (r.lookup policy key form?).mapError MissingKey.searched =
      (s.lookup policy key form?).mapError MissingKey.searched := by
  simp only [lookup, lookup?_congr h]
  split
  · rfl
  · exact congrArg Except.error (searched_missingKey_congr h key)

theorem formTable_congr (h : r.bundles = s.bundles) (policy : Fallback) (key : String) :
    (r.formTable policy key).mapError MissingKey.searched =
      (s.formTable policy key).mapError MissingKey.searched := by
  have hforms : r.declaredForms key = s.declaredForms key := by simp only [declaredForms, h]
  simp only [formTable, lookup?_congr h, hforms]
  split
  · exact congrArg Except.error (searched_missingKey_congr h key)
  · rfl

theorem effective_congr (h : r.bundles = s.bundles) : r.effective = s.effective := by
  simp only [effective, locales, h]

end Resolution

namespace Catalog

variable (c : Catalog)

theorem effective_resolve_of_get? {t : Locale} {b : Bundle} (h : c.get? t = some b) :
    (c.resolve t).effective = t := by
  have hbundles := c.bundles_resolve t
  rw [h] at hbundles
  simp [Resolution.effective, Resolution.locales, hbundles, c.locale_of_get? t h]

/-- A locale without a bundle of its own resolves to what its parent resolves to. -/
theorem bundles_resolve_of_parent? {t p : Locale} (hget : c.get? t = none)
    (hparent : t.parent? = some p) : (c.resolve t).bundles = (c.resolve p).bundles := by
  rw [bundles_resolve, hget, hparent]
  rfl

theorem effective_resolve_root : (c.resolve .root).effective = .root := by
  cases hget : c.get? .root with
  | some b => exact c.effective_resolve_of_get? hget
  | none =>
    have hbundles : (c.resolve .root).bundles = [] := by
      rw [bundles_resolve, hget]
      rfl
    simp [Resolution.effective, Resolution.locales, hbundles]

/-- A locale resolves to what its effective locale resolves to. If nothing matched, then root is
effective and has no bundle either. -/
theorem bundles_resolve_effective (t : Locale) :
    (c.resolve (c.resolve t).effective).bundles = (c.resolve t).bundles := by
  induction t using Locale.induction_on_parent with
  | root => rw [c.effective_resolve_root]
  | step t p hparent ih =>
    cases hget : c.get? t with
    | some b => rw [c.effective_resolve_of_get? hget]
    | none =>
      have hbundles := c.bundles_resolve_of_parent? hget hparent
      rw [Resolution.effective_congr hbundles, hbundles, ih]

/-- Where root has a bundle, the effective locale is the first of the chain that has one. -/
theorem find?_chain_eq_effective (hroot : (c.get? .root).isSome) (t : Locale) :
    t.chain.find? (fun u => (c.get? u).isSome) = some (c.resolve t).effective := by
  induction t using Locale.induction_on_parent with
  | root =>
    rw [c.effective_resolve_root, Locale.chain_of_no_parent rfl]
    simp [hroot]
  | step t p hparent ih =>
    rw [Locale.chain_of_parent? hparent, List.find?_cons]
    cases hget : c.get? t with
    | some b => simp [c.effective_resolve_of_get? hget]
    | none => simp [ih, Resolution.effective_congr (c.bundles_resolve_of_parent? hget hparent)]

theorem bundles_resolve_congr {t u : Locale}
    (h : (c.resolve t).effective = (c.resolve u).effective) :
    (c.resolve t).bundles = (c.resolve u).bundles := by
  rw [← c.bundles_resolve_effective t, h, c.bundles_resolve_effective u]

/-- The effective locale is one of those that the requested locale falls back to. -/
theorem effective_resolve_mem_chain (t : Locale) : (c.resolve t).effective ∈ t.chain := by
  induction t using Locale.induction_on_parent with
  | root =>
    rw [c.effective_resolve_root]
    exact List.mem_cons_self
  | step t p hparent ih =>
    rw [Locale.chain_of_parent? hparent]
    cases hget : c.get? t with
    | some b =>
      rw [c.effective_resolve_of_get? hget]
      exact List.mem_cons_self
    | none =>
      rw [Resolution.effective_congr (c.bundles_resolve_of_parent? hget hparent)]
      exact List.mem_cons_of_mem t ih

/-- Requested locales with one effective locale resolve to the same bundles, which are none for both
or for neither, so that lookups and form tables for them have the same results or miss the same key
in the same bundles. -/
theorem resolve_agree_of_effective_eq {t u : Locale}
    (h : (c.resolve t).effective = (c.resolve u).effective) :
    (c.resolve t).bundles = (c.resolve u).bundles ∧
      ∀ policy key form?,
        (c.resolve t).lookup? policy key form? = (c.resolve u).lookup? policy key form? ∧
        ((c.resolve t).lookup policy key form?).mapError MissingKey.searched =
          ((c.resolve u).lookup policy key form?).mapError MissingKey.searched ∧
        ((c.resolve t).formTable policy key).mapError MissingKey.searched =
          ((c.resolve u).formTable policy key).mapError MissingKey.searched := by
  have hbundles := c.bundles_resolve_congr h
  exact ⟨hbundles, fun policy key form? => ⟨Resolution.lookup?_congr hbundles policy key form?,
    Resolution.lookup_congr hbundles policy key form?,
    Resolution.formTable_congr hbundles policy key⟩⟩

/-- With bundles for root and `az_Cyrl`, the locales `az_Cyrl_AZ` and `az_Cyrl_old` are both served
by the latter's. -/
theorem resolve_agree_below_az_Cyrl :
    ∃ c, (do
        let root ← Bundle.ofDeclarations ⟨"Messages"⟩ .root none [.default "title" (.text "Home")]
        let cyrillic ← Bundle.ofDeclarations ⟨"Messages"⟩ { language := "az", script := "Cyrl" } none
          [.form "files" (.ofCategory .one) (.text "one file")]
        Catalog.ofList ⟨"Messages"⟩ [root, cyrillic]) = .ok c ∧
      (c.resolve { language := "az", script := "Cyrl", region := "AZ" }).effective =
        (c.resolve { language := "az", script := "Cyrl", variant := "old" }).effective ∧
      (c.resolve { language := "az", script := "Cyrl", region := "AZ" }).bundles =
        (c.resolve { language := "az", script := "Cyrl", variant := "old" }).bundles :=
  ⟨_, rfl, rfl, (resolve_agree_of_effective_eq _ rfl).1⟩

end Catalog

end Localization
