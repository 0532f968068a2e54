import Localization.Bundle.Draft
import Localization.Proofs.Lookup.Count

namespace Localization

namespace Bundle

variable {b : Bundle} {key : String} {found : Binding} {forms : List Selector}

/-- The key's value for just this form, or its default value if no form is given. -/
def valueFor? (b : Bundle) (key : String) : Option Selector → Option Value
  | none => b.default? key
  | some form => b.form? key form

theorem declares_iff : b.Declares key found ↔
    found.locale = b.locale ∧ b.valueFor? key found.form? = some found.value := by
  unfold Declares
  cases found.form? <;> rfl

instance (b : Bundle) (key : String) (found : Binding) : Decidable (b.Declares key found) :=
  decidable_of_iff _ declares_iff.symm

theorem Declares.formBinding?_eq (h : b.Declares key found) {form : Selector}
    (hform : found.form? = some form) : b.formBinding? key form = some found := by
  obtain ⟨hlocale, hvalue⟩ := h
  rw [hform] at hvalue
  rw [formBinding?, hvalue, ← hlocale, ← hform]
  rfl

theorem declares_of_nearest (h : (forms.findSome? (b.formBinding? key ·)).or
    (b.defaultBinding? key) = some found) : b.Declares key found := by
  rcases Option.or_eq_some_iff.1 h with hhit | ⟨-, hdefault⟩
  · obtain ⟨form, -, hform⟩ := List.exists_of_findSome?_eq_some hhit
    exact (declares_of_formBinding? hform).1
  · exact (declares_of_defaultBinding? hdefault).1

theorem Lacks.valueFor?_eq_none (h : b.Lacks key forms) {form? : Option Selector}
    (hforms : ∀ form, form? = some form → form ∈ forms) : b.valueFor? key form? = none := by
  cases form? with
  | none => exact h.1
  | some form => exact h.2 form (hforms form rfl)

end Bundle

namespace Resolution

/-- The place in the chain of the bundle that an answer comes from: the first that declares it. -/
def placeOf (r : Resolution) (key : String) (found : Binding) : Nat :=
  r.bundles.findIdx (·.Declares key found)

variable {r : Resolution} {policy : Fallback} {key : String} {found other : Binding}
  {forms : List Selector} {first : Selector} {rest : List Selector}

theorem placeOf_of_nearer {nearer rest : List Bundle} (hsplit : r.bundles = nearer ++ rest)
    (hnearer : ∀ x ∈ nearer, x.valueFor? key found.form? = none) :
    r.placeOf key found = nearer.length + rest.findIdx (·.Declares key found) := by
  have hnone : ¬nearer.findIdx (·.Declares key found) < nearer.length := by
    have hdeclares : ∀ x ∈ nearer, ¬x.Declares key found := fun x hx hdeclares => by
      simpa [hnearer x hx] using (Bundle.declares_iff.1 hdeclares).2
    simpa [List.findIdx_lt_length] using hdeclares
  rw [placeOf, hsplit, List.findIdx_append, if_neg hnone, Nat.add_comm]

/-- An answer's place is that of a bundle that declares it, if no nearer one has a value for what it
matched. -/
theorem placeOf_eq_length {nearer farther : List Bundle} {b : Bundle}
    (hsplit : r.bundles = nearer ++ b :: farther)
    (hnearer : ∀ x ∈ nearer, x.valueFor? key found.form? = none) (hb : b.Declares key found) :
    r.placeOf key found = nearer.length := by
  rw [placeOf_of_nearer hsplit hnearer]
  simp [List.findIdx_cons, hb]

/-- Whatever the policy, there is an answer just if a bundle has anything to answer with. -/
theorem select?_isSome_iff : (r.select? policy key forms).isSome ↔
    ∃ b ∈ r.bundles, (b.default? key).isSome ∨ ∃ form ∈ forms, (b.form? key form).isSome := by
  have hlacks : r.select? policy key forms = none ↔ ∀ b ∈ r.bundles, b.Lacks key forms := by
    simp only [select?_eq_none_iff, findDefault?_eq_none_iff, findForm?_eq_none_iff, Bundle.Lacks]
    exact ⟨fun h b hb => ⟨h.1 b hb, fun form hform => h.2 form hform b hb⟩,
      fun h => ⟨fun b hb => (h b hb).1, fun form hform b hb => (h b hb).2 form hform⟩⟩
  rw [Option.isSome_iff_ne_none, ne_eq, hlacks]
  simp only [Bundle.Lacks, not_forall, not_and_or, exists_prop, ← Option.isSome_iff_ne_none,
    ← ne_eq]

/-- Where no bundle has one of the forms, a selection gives the default value. -/
theorem select?_of_no_form (h : ∀ form ∈ forms, r.findForm? key form = none) :
    r.select? policy key forms = r.findDefault? key := by
  induction forms with
  | nil => exact (lookup?_eq_select? r policy key none).symm
  | cons form forms ih =>
    rw [select?_of_undeclared forms (h form List.mem_cons_self)]
    exact ih fun form hform => h form (List.mem_cons_of_mem _ hform)

/-- An answer for the preferred form is also the answer across the chain. -/
theorem select?_acrossChainFirst_of_first
    (h : r.select? .sameLocaleDefault key (first :: rest) = some found)
    (hform : found.form? = some first) :
    r.select? .acrossChainFirst key (first :: rest) = some found := by
  obtain ⟨nearer, b, farther, hsplit, hlacks, hb⟩ := exists_nearest_of_select? h
  have hhit := (Bundle.declares_of_nearest hb).formBinding?_eq hform
  have hfind : r.findForm? key first = some found := by
    refine List.findSome?_eq_some_iff.2 ⟨nearer, b, farther, hsplit, hhit, fun x hx => ?_⟩
    simp [Bundle.formBinding?, (hlacks x hx).2 first]
  simp [select?, hfind]

/-- Across the chain, a default value is the answer only where no bundle has one of the forms. -/
theorem no_form_of_select?_acrossChainFirst
    (h : r.select? .acrossChainFirst key forms = some found) (hform : found.form? = none) :
    ∀ form ∈ forms, r.findForm? key form = none := by
  rcases Option.or_eq_some_iff.1 h with hhit | ⟨hnone, -⟩
  · obtain ⟨form, -, hfound⟩ := List.exists_of_findSome?_eq_some hhit
    obtain ⟨-, -, -, hmatched⟩ := declares_of_findForm? hfound
    rw [hform] at hmatched
    cases hmatched
  · exact List.findSome?_eq_none_iff.1 hnone

/-- Whatever the policy, no nearer bundle has a value for what an answer matched. -/
theorem exists_place_of_select? (h : r.select? policy key forms = some found) :
    ∃ nearer b farther, r.bundles = nearer ++ b :: farther ∧
      r.placeOf key found = nearer.length ∧ b.Declares key found ∧
      ∀ x ∈ nearer, x.valueFor? key found.form? = none := by
  suffices hfirst : ∃ nearer b farther, r.bundles = nearer ++ b :: farther ∧
      b.Declares key found ∧ ∀ x ∈ nearer, x.valueFor? key found.form? = none by
    obtain ⟨nearer, b, farther, hsplit, hb, hnearer⟩ := hfirst
    exact ⟨nearer, b, farther, hsplit, placeOf_eq_length hsplit hnearer hb, hb, hnearer⟩
  cases policy with
  | sameLocaleDefault =>
    obtain ⟨-, -, -, hforms⟩ := declares_of_select? h
    obtain ⟨nearer, b, farther, hsplit, hlacks, hb⟩ := exists_nearest_of_select? h
    exact ⟨nearer, b, farther, hsplit, Bundle.declares_of_nearest hb,
      fun x hx => (hlacks x hx).valueFor?_eq_none hforms⟩
  | acrossChainFirst =>
    rcases Option.or_eq_some_iff.1 h with hhit | ⟨-, hdefault⟩
    · obtain ⟨form, -, hfound⟩ := List.exists_of_findSome?_eq_some hhit
      obtain ⟨nearer, b, farther, hsplit, hb, hnearer⟩ := List.findSome?_eq_some_iff.1 hfound
      obtain ⟨hdeclares, hform⟩ := Bundle.declares_of_formBinding? hb
      refine ⟨nearer, b, farther, hsplit, hdeclares, fun x hx => ?_⟩
      rw [hform]
      exact Option.map_eq_none_iff.1 (hnearer x hx)
    · obtain ⟨nearer, b, farther, hsplit, hb, hnearer⟩ := List.findSome?_eq_some_iff.1 hdefault
      obtain ⟨hdeclares, hform⟩ := Bundle.declares_of_defaultBinding? hb
      refine ⟨nearer, b, farther, hsplit, hdeclares, fun x hx => ?_⟩
      rw [hform]
      exact Option.map_eq_none_iff.1 (hnearer x hx)

/-- With defaults of the same locale, an answer comes from no farther away than across the chain. -/
theorem placeOf_le_placeOf (hsame : r.select? .sameLocaleDefault key forms = some found)
    (hacross : r.select? .acrossChainFirst key forms = some other) :
    r.placeOf key found ≤ r.placeOf key other := by
  obtain ⟨nearer, b, farther, hsplit, hlacks, hb⟩ := exists_nearest_of_select? hsame
  obtain ⟨-, -, -, hforms⟩ := declares_of_select? hsame
  obtain ⟨-, -, -, hotherForms⟩ := declares_of_select? hacross
  -- Neither answer can come from the bundles that have nothing to select.
  have hfound := placeOf_eq_length hsplit
    (fun x hx => (hlacks x hx).valueFor?_eq_none hforms) (Bundle.declares_of_nearest hb)
  have hother := placeOf_of_nearer hsplit
    fun x hx => (hlacks x hx).valueFor?_eq_none hotherForms
  omega

/-- How the answers under the two policies compare where both seek the same forms, `first` before
the others. -/
structure PolicyComparison (r : Resolution) (key : String) (first : Selector)
    (rest : List Selector) (answer : Fallback → Except MissingKey Binding) : Prop where
  /-- Under both there is an answer just if some bundle has one of the forms or a default value. -/
  answered : ∀ policy, (∃ found, answer policy = .ok found) ↔
    ∃ b ∈ r.bundles, (b.default? key).isSome ∨ ∃ form ∈ first :: rest, (b.form? key form).isSome
  /-- An answer for the preferred form is the same across the chain. -/
  preferred : ∀ found, answer .sameLocaleDefault = .ok found → found.form? = some first →
    answer .acrossChainFirst = .ok found
  /-- Where no bundle has one of the forms, both give the first default value of the chain. -/
  formless : (∀ b ∈ r.bundles, ∀ form ∈ first :: rest, b.form? key form = none) →
    ∀ policy, answer policy = r.require key (r.findDefault? key)
  /-- An answer comes from the first bundle that has a value for what it matched. -/
  place : ∀ policy found, answer policy = .ok found → ∃ nearer b farther,
    r.bundles = nearer ++ b :: farther ∧ r.placeOf key found = nearer.length ∧
      b.Declares key found ∧ ∀ x ∈ nearer, x.valueFor? key found.form? = none
  /-- With defaults of the same locale, the answer comes from no farther away. -/
  nearer : ∀ found other, answer .sameLocaleDefault = .ok found →
    answer .acrossChainFirst = .ok other → r.placeOf key found ≤ r.placeOf key other
  /-- Across the chain, a default value is given only where no bundle has one of the forms. -/
  default : ∀ found, answer .acrossChainFirst = .ok found → found.form? = none →
    ∀ b ∈ r.bundles, ∀ form ∈ first :: rest, b.form? key form = none
  /-- What is missing is the key, in the bundles of the chain. -/
  missing : ∀ policy missing, answer policy = .error missing →
    missing = ⟨key, r.locales, r.requested.chain⟩

theorem eq_of_require_eq_error {found? : Option Binding} {missing : MissingKey}
    (h : r.require key found? = .error missing) :
    missing = ⟨key, r.locales, r.requested.chain⟩ :=
  ((require_eq_error_iff r key found? missing).1 h).2

theorem policyComparison_select? (r : Resolution) (key : String) (first : Selector)
    (rest : List Selector) : r.PolicyComparison key first rest fun policy =>
      r.require key (r.select? policy key (first :: rest)) where
  answered policy := by
    simp only [require_eq_ok_iff, ← Option.isSome_iff_exists, select?_isSome_iff]
  preferred found h hform := by
    rw [require_eq_ok_iff] at h ⊢
    exact select?_acrossChainFirst_of_first h hform
  formless h policy := by
    rw [select?_of_no_form fun form hform =>
      (findForm?_eq_none_iff form).2 fun b hb => h b hb form hform]
  place policy found h := by
    rw [require_eq_ok_iff] at h
    exact exists_place_of_select? h
  nearer found other hsame hacross := by
    rw [require_eq_ok_iff] at hsame hacross
    exact placeOf_le_placeOf hsame hacross
  default found h hform b hb form hmem := by
    rw [require_eq_ok_iff] at h
    exact (findForm?_eq_none_iff form).1 (no_form_of_select?_acrossChainFirst h hform form hmem) b hb
  missing policy missing := eq_of_require_eq_error

/-- The two policies compare in the same way for a form and for a count, where the form for just
this count is preferred to that of its plural category. A lookup without a form misses the key in
the same way. -/
theorem policies_compare (r : Resolution) (key : String) :
    (∀ form, r.PolicyComparison key form [] fun policy => r.lookup policy key (some form)) ∧
      (∀ count, r.PolicyComparison key (.exact count)
        [.ofCategory ((PluralRule.ofLocale r.requested).categorize count)]
        fun policy => r.lookupCount policy key count) ∧
      ∀ policy missing, r.lookup policy key none = .error missing →
        missing = ⟨key, r.locales, r.requested.chain⟩ := by
  refine ⟨fun form => ?_, fun count => ?_, fun policy missing => eq_of_require_eq_error⟩
  · exact r.policyComparison_select? key form []
  · exact r.policyComparison_select? key (.exact count) _

/-- A default value of the requested locale stands in the way of a form of root under one policy
alone. -/
example : (do
      let root ← Bundle.ofDeclarations ⟨"Messages"⟩ .root none
        [.form "files" (.ofCategory .one) (.text "one file")]
      let azeri ← Bundle.ofDeclarations ⟨"Messages"⟩ { language := "az" } none
        [.default "files" (.text "fayllar")]
      let r := (← Catalog.ofList ⟨"Messages"⟩ [root, azeri]).resolve { language := "az" }
      let near ← (r.lookup .sameLocaleDefault "files" (some (.ofCategory .one))).mapError .missingKey
      let far ← (r.lookup .acrossChainFirst "files" (some (.ofCategory .one))).mapError .missingKey
      return (near, far)) =
    .ok (⟨.text "fayllar", { language := "az" }, none⟩,
      ⟨.text "one file", .root, some (.ofCategory .one)⟩) := by
  rfl

end Resolution

end Localization
