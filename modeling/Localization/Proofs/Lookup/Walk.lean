import Localization.Lookup

namespace Localization

namespace Bundle

variable {b : Bundle} {key : String} {found : Binding}

/-- Whether a bundle is where a binding comes from: its locale is the one named, and it has the
value for the form that matched, or as its default if none did. -/
def Declares (b : Bundle) (key : String) (found : Binding) : Prop :=
  found.locale = b.locale ∧
    match found.form? with
    | none => b.default? key = some found.value
    | some form => b.form? key form = some found.value

theorem declares_of_defaultBinding? (h : b.defaultBinding? key = some found) :
    b.Declares key found ∧ found.form? = none := by
  obtain ⟨value, hvalue, rfl⟩ := Option.map_eq_some_iff.1 h
  exact ⟨⟨rfl, hvalue⟩, rfl⟩

theorem declares_of_formBinding? {form : Selector} (h : b.formBinding? key form = some found) :
    b.Declares key found ∧ found.form? = some form := by
  obtain ⟨value, hvalue, rfl⟩ := Option.map_eq_some_iff.1 h
  exact ⟨⟨rfl, hvalue⟩, rfl⟩

theorem mem_forms_iff (b : Bundle) (key : String) (form : Selector) :
    form ∈ b.forms key ↔ (b.form? key form).isSome := by
  unfold forms form?
  cases b.entries.get? key with
  | none => simp
  | some entry => simp [SortedMap.mem_keys_iff]

end Bundle

namespace Resolution

variable (r : Resolution) (policy : Fallback) (key : String)

/-- What is found for a required key, or the error that the key is missing. -/
def require (found? : Option Binding) : Except MissingKey Binding :=
  match found? with
  | some found => .ok found
  | none => .error (r.missingKey key)

@[simp] theorem require_eq_ok_iff (found? : Option Binding) (found : Binding) :
    r.require key found? = .ok found ↔ found? = some found := by
  cases found? <;> simp [require]

@[simp] theorem require_eq_error_iff (found? : Option Binding) (missing : MissingKey) :
    r.require key found? = .error missing ↔ found? = none ∧ missing = r.missingKey key := by
  cases found? <;> simp [require, eq_comm]

theorem require_inj {found? other? : Option Binding} :
    r.require key found? = r.require key other? ↔ found? = other? := by
  cases found? <;> cases other? <;> simp [require]

theorem lookup_eq_require (form? : Option Selector) :
    r.lookup policy key form? = r.require key (r.lookup? policy key form?) := rfl

theorem lookupCount_eq_require (count : Int) : r.lookupCount policy key count =
    r.require key (r.select? policy key [.exact count, .ofCategory (r.category count)]) := rfl

/-- Without a form and with one, a lookup is a selection. -/
theorem lookup?_eq_select? (form? : Option Selector) :
    r.lookup? policy key form? = r.select? policy key form?.toList := by
  cases form? with
  | none => cases policy <;> simp [lookup?, select?, findDefault?]
  | some form => rfl

variable {r policy key} {found : Binding}

theorem declares_of_findDefault? (h : r.findDefault? key = some found) :
    ∃ b ∈ r.bundles, b.Declares key found ∧ found.form? = none := by
  obtain ⟨b, hmem, hb⟩ := List.exists_of_findSome?_eq_some h
  exact ⟨b, hmem, Bundle.declares_of_defaultBinding? hb⟩

theorem default?_of_findDefault? (h : r.findDefault? key = some found) :
    ∃ b ∈ r.bundles, b.default? key = some found.value := by
  obtain ⟨b, hmem, hdeclares, hform⟩ := declares_of_findDefault? h
  have hvalue := hdeclares.2
  rw [hform] at hvalue
  exact ⟨b, hmem, hvalue⟩

theorem declares_of_findForm? {form : Selector} (h : r.findForm? key form = some found) :
    ∃ b ∈ r.bundles, b.Declares key found ∧ found.form? = some form := by
  obtain ⟨b, hmem, hb⟩ := List.exists_of_findSome?_eq_some h
  exact ⟨b, hmem, Bundle.declares_of_formBinding? hb⟩

/-- Whatever the policy, a selection is declared by a bundle of the chain, either for one of the
forms or as the default. -/
theorem declares_of_select? {forms : List Selector}
    (h : r.select? policy key forms = some found) :
    ∃ b ∈ r.bundles, b.Declares key found ∧ ∀ form, found.form? = some form → form ∈ forms := by
  cases policy with
  | sameLocaleDefault =>
    obtain ⟨b, hmem, hb⟩ := List.exists_of_findSome?_eq_some h
    rcases Option.or_eq_some_iff.1 hb with hhit | ⟨-, hdefault⟩
    · obtain ⟨form, hform, hfound⟩ := List.exists_of_findSome?_eq_some hhit
      obtain ⟨hdeclares, hmatched⟩ := Bundle.declares_of_formBinding? hfound
      exact ⟨b, hmem, hdeclares, by simpa [hmatched] using hform⟩
    · obtain ⟨hdeclares, hmatched⟩ := Bundle.declares_of_defaultBinding? hdefault
      exact ⟨b, hmem, hdeclares, by simp [hmatched]⟩
  | acrossChainFirst =>
    rcases Option.or_eq_some_iff.1 h with hhit | ⟨-, hdefault⟩
    · obtain ⟨form, hform, hfound⟩ := List.exists_of_findSome?_eq_some hhit
      obtain ⟨b, hmem, hdeclares, hmatched⟩ := declares_of_findForm? hfound
      exact ⟨b, hmem, hdeclares, by simpa [hmatched] using hform⟩
    · obtain ⟨b, hmem, hdeclares, hmatched⟩ := declares_of_findDefault? hdefault
      exact ⟨b, hmem, hdeclares, by simp [hmatched]⟩

theorem findDefault?_eq_none_iff :
    r.findDefault? key = none ↔ ∀ b ∈ r.bundles, b.default? key = none := by
  simp only [findDefault?, List.findSome?_eq_none_iff, Bundle.defaultBinding?,
    Option.map_eq_none_iff]

/-- A required key is missing if it has no default value. -/
theorem lookup_none_eq_error_iff {missing : MissingKey} :
    r.lookup policy key none = .error missing ↔
      (∀ b ∈ r.bundles, b.default? key = none) ∧ missing = r.missingKey key := by
  rw [lookup_eq_require, require_eq_error_iff, ← findDefault?_eq_none_iff]
  rfl

theorem findForm?_eq_none_iff (form : Selector) :
    r.findForm? key form = none ↔ ∀ b ∈ r.bundles, b.form? key form = none := by
  simp only [findForm?, List.findSome?_eq_none_iff, Bundle.formBinding?, Option.map_eq_none_iff]

/-- Whatever the policy, a selection fails only where no bundle has anything to select. -/
theorem select?_eq_none_iff {forms : List Selector} : r.select? policy key forms = none ↔
    r.findDefault? key = none ∧ ∀ form ∈ forms, r.findForm? key form = none := by
  cases policy with
  | sameLocaleDefault =>
    simp only [select?, findDefault?, findForm?, List.findSome?_eq_none_iff, Option.or_eq_none_iff]
    exact ⟨fun h => ⟨fun b hb => (h b hb).2, fun form hform b hb => (h b hb).1 form hform⟩,
      fun h b hb => ⟨fun form hform => h.2 form hform b hb, h.1 b hb⟩⟩
  | acrossChainFirst =>
    simp only [select?, List.findSome?_eq_none_iff, Option.or_eq_none_iff]
    exact And.comm

/-- A form is declared in the chain just if some bundle has a value for it. -/
theorem mem_declaredForms_iff (form : Selector) :
    form ∈ r.declaredForms key ↔ (r.findForm? key form).isSome := by
  simp [declaredForms, findForm?, Bundle.mem_forms_iff, Bundle.formBinding?, List.findSome?_isSome_iff]

/-- What some bundle has a value for is never missing, even where a nearer default comes first. -/
theorem lookup?_isSome_of_findForm? (policy : Fallback) {form : Selector}
    (h : (r.findForm? key form).isSome) :
    (r.lookup? policy key (some form)).isSome := by
  rw [lookup?_eq_select?, Option.isSome_iff_ne_none, Ne, select?_eq_none_iff]
  rintro ⟨-, hnone⟩
  simp [hnone form (by simp)] at h

end Resolution

end Localization
