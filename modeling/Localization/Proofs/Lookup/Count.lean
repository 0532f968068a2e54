import Localization.Bundle.Draft
import Localization.Proofs.Lookup.Walk
import Localization.Proofs.Results

namespace Localization

/-- What a reader of a table takes: its value for the first of some forms that it has, or else its
default value. -/
def FormTable.select? (table : FormTable) (forms : List Selector) : Option Binding :=
  (forms.findSome? table.forms.get?).or table.default?

/-- Whether a bundle has neither a default value for a key nor a value for one of the forms. -/
def Bundle.Lacks (b : Bundle) (key : String) (forms : List Selector) : Prop :=
  b.default? key = none ∧ ∀ form ∈ forms, b.form? key form = none

theorem Bundle.Lacks.mono {b : Bundle} {key : String} {forms fewer : List Selector}
    (h : b.Lacks key forms) (hfewer : fewer ⊆ forms) : b.Lacks key fewer :=
  ⟨h.1, fun form hform => h.2 form (hfewer hform)⟩

/-- A walk passes by a bundle that has nothing to select. -/
theorem Bundle.nearest_eq_none_iff (b : Bundle) (key : String) (forms : List Selector) :
    (forms.findSome? (b.formBinding? key ·)).or (b.defaultBinding? key) = none ↔
      b.Lacks key forms := by
  simp only [Option.or_eq_none_iff, List.findSome?_eq_none_iff, formBinding?, defaultBinding?,
    Option.map_eq_none_iff, Lacks, and_comm]

namespace Resolution

variable {r : Resolution} {policy : Fallback} {key : String} {table : FormTable}

theorem default?_of_formTable (h : r.formTable policy key = .ok table) :
    table.default? = r.findDefault? key := by
  simp only [formTable] at h
  split at h
  · cases h
  · cases h
    rfl

/-- A table has the forms declared in the chain, each with what a lookup finds for it. -/
theorem get?_forms_of_formTable (h : r.formTable policy key = .ok table) (form : Selector) :
    table.forms.get? form =
      if (r.findForm? key form).isSome then r.lookup? policy key (some form) else none := by
  simp only [formTable] at h
  split at h
  · cases h
  · cases h
    simp only [SortedMap.get?_ofList_filterMap, mem_declaredForms_iff]

/-- There is no table only where no bundle has anything for the key. -/
theorem of_formTable_eq_error {missing : MissingKey} (h : r.formTable policy key = .error missing) :
    missing = r.missingKey key ∧ r.findDefault? key = none ∧
      ∀ form, r.findForm? key form = none := by
  simp only [formTable] at h
  split at h
  · rename_i hnothing
    cases h
    refine ⟨rfl, hnothing.1, fun form => Option.not_isSome_iff_eq_none.1 fun hdeclared => ?_⟩
    have hget := SortedMap.get?_ofList_filterMap (fun form => r.lookup? policy key (some form))
      (r.declaredForms key) form
    rw [if_pos (mem_declaredForms_iff form |>.2 hdeclared)] at hget
    simp only [SortedMap.get?, hnothing.2, SortedMap.lookupEntry] at hget
    have hlookup := lookup?_isSome_of_findForm? policy hdeclared
    simp [← hget] at hlookup
  · cases h

/-- Where forms are sought across the chain first, a table's reader finds what a selection finds. -/
theorem select?_table_acrossChainFirst (h : r.formTable .acrossChainFirst key = .ok table)
    (forms : List Selector) : table.select? forms = r.select? .acrossChainFirst key forms := by
  have hget : table.forms.get? = r.findForm? key := by
    funext form
    rw [get?_forms_of_formTable h form]
    cases hform : r.findForm? key form <;> simp [lookup?, select?, hform]
  rw [FormTable.select?, hget, default?_of_formTable h]
  rfl

variable {nearer farther : List Bundle} {b : Bundle}

/-- A walk gives what the first bundle gives that has anything, or else what the rest gives. -/
private theorem findSome?_of_nearer {f : Bundle → Option Binding}
    (hsplit : r.bundles = nearer ++ b :: farther) (hnearer : ∀ x ∈ nearer, f x = none) :
    r.bundles.findSome? f = (f b).or (farther.findSome? f) := by
  rw [hsplit, List.findSome?_append, List.findSome?_eq_none_iff.2 hnearer, Option.none_or,
    List.findSome?_cons]
  cases f b <;> rfl

private theorem select?_of_nearer {forms : List Selector}
    (hsplit : r.bundles = nearer ++ b :: farther) (hnearer : ∀ x ∈ nearer, x.Lacks key forms) :
    r.select? .sameLocaleDefault key forms =
      ((forms.findSome? (b.formBinding? key ·)).or (b.defaultBinding? key)).or
        (farther.findSome? fun x =>
          (forms.findSome? (x.formBinding? key ·)).or (x.defaultBinding? key)) :=
  findSome?_of_nearer hsplit fun x hx => (x.nearest_eq_none_iff key forms).2 (hnearer x hx)

/-- A selection ends at the nearest bundle that has anything to select. -/
theorem exists_nearest_of_select? {forms : List Selector} {found : Binding}
    (h : r.select? .sameLocaleDefault key forms = some found) :
    ∃ nearer b farther, r.bundles = nearer ++ b :: farther ∧ (∀ x ∈ nearer, x.Lacks key forms) ∧
      (forms.findSome? (b.formBinding? key ·)).or (b.defaultBinding? key) = some found := by
  obtain ⟨nearer, b, farther, hsplit, hb, hnearer⟩ := List.findSome?_eq_some_iff.1 h
  exact ⟨nearer, b, farther, hsplit,
    fun x hx => (x.nearest_eq_none_iff key forms).1 (hnearer x hx), hb⟩

/-- The nearest bundle that a selection of two forms finds anything in has the second of them only,
and a farther bundle has the first. -/
def Shadowed (r : Resolution) (key : String) (first second : Selector) : Prop :=
  ∃ nearer b farther, r.bundles = nearer ++ b :: farther ∧
    (∀ x ∈ nearer, x.Lacks key [first, second]) ∧
    b.form? key first = none ∧ (b.form? key second).isSome ∧
    ∃ x ∈ farther, (x.form? key first).isSome

variable {first second : Selector}

theorem Shadowed.findForm?_isSome (h : r.Shadowed key first second) :
    (r.findForm? key first).isSome := by
  obtain ⟨nearer, b, farther, hsplit, -, -, -, x, hx, hfirst⟩ := h
  refine List.findSome?_isSome_iff.2 ⟨x, by simp [hsplit, hx], ?_⟩
  simpa [Bundle.formBinding?] using hfirst

/-- A selection stops at the bundle that shadows the first form, with its value for the second. -/
theorem Shadowed.select? (h : r.Shadowed key first second) :
    r.select? .sameLocaleDefault key [first, second] =
        r.lookup? .sameLocaleDefault key (some second) ∧
      ∃ found, r.select? .sameLocaleDefault key [first, second] = some found ∧
        found.form? = some second := by
  obtain ⟨nearer, b, farther, hsplit, hnearer, hfirst, hsecond, -⟩ := h
  obtain ⟨value, hvalue⟩ := Option.isSome_iff_exists.1 hsecond
  have hboth : r.select? .sameLocaleDefault key [first, second] =
      some ⟨value, b.locale, some second⟩ := by
    rw [select?_of_nearer hsplit hnearer]
    simp [Bundle.formBinding?, hfirst, hvalue]
  have hone : r.lookup? .sameLocaleDefault key (some second) =
      some ⟨value, b.locale, some second⟩ := by
    rw [lookup?, select?_of_nearer hsplit fun x hx => (hnearer x hx).mono (by simp)]
    simp [Bundle.formBinding?, hvalue]
  exact ⟨hboth.trans hone.symm, _, hboth, rfl⟩

/-- A table's reader has the first form wherever it is declared, with what a lookup finds for it. -/
theorem select?_table_of_declared (h : r.formTable policy key = .ok table) (rest : List Selector)
    (hfirst : (r.findForm? key first).isSome) :
    table.select? (first :: rest) = r.lookup? policy key (some first) := by
  have hget : table.forms.get? first = r.lookup? policy key (some first) := by
    rw [get?_forms_of_formTable h first, if_pos hfirst]
  obtain ⟨found, hfound⟩ := Option.isSome_iff_exists.1
    (lookup?_isSome_of_findForm? policy hfirst)
  simp [FormTable.select?, hget, hfound]

theorem select?_table_of_undeclared (h : r.formTable policy key = .ok table) (rest : List Selector)
    (hfirst : r.findForm? key first = none) :
    table.select? (first :: rest) = table.select? rest := by
  have hget : table.forms.get? first = none := by
    rw [get?_forms_of_formTable h first, hfirst]
    rfl
  simp [FormTable.select?, hget]

/-- A form that no bundle declares makes no difference to a selection. -/
theorem select?_of_undeclared (rest : List Selector) (hfirst : r.findForm? key first = none) :
    r.select? policy key (first :: rest) = r.select? policy key rest := by
  cases policy with
  | sameLocaleDefault =>
    refine findSome?_congr fun b hb => ?_
    rw [List.findSome?_cons, List.findSome?_eq_none_iff.1 hfirst b hb]
  | acrossChainFirst => simp only [select?, List.findSome?_cons, hfirst]

/-- A table's reader finds for a single form what a lookup finds for it. -/
theorem select?_table_singleton (h : r.formTable .sameLocaleDefault key = .ok table)
    (form : Selector) :
    table.select? [form] = r.select? .sameLocaleDefault key [form] := by
  cases hform : r.findForm? key form with
  | none =>
    rw [select?_table_of_undeclared h [] hform, select?_of_undeclared [] hform,
      FormTable.select?, default?_of_formTable h]
    exact lookup?_eq_select? r .sameLocaleDefault key none
  | some found => exact select?_table_of_declared h [] (by simp [hform])

/-- Unless a bundle shadows the first form, its lookup ends where the selection of both does. -/
theorem select?_of_not_shadowed (hnot : ¬r.Shadowed key first second)
    (hfirst : (r.findForm? key first).isSome) :
    r.select? .sameLocaleDefault key [first, second] =
      r.lookup? .sameLocaleDefault key (some first) := by
  cases hselect : r.select? .sameLocaleDefault key [first, second] with
  | none =>
    have hnone := (select?_eq_none_iff.1 hselect).2 first (by simp)
    simp [hnone] at hfirst
  | some found =>
    obtain ⟨nearer, b, farther, hsplit, hlacks, hb⟩ := exists_nearest_of_select? hselect
    rw [lookup?, select?_of_nearer hsplit fun x hx => (hlacks x hx).mono (by simp)]
    cases hbfirst : b.formBinding? key first with
    | some hit => simpa [hbfirst] using hb.symm
    | none =>
      cases hbsecond : b.formBinding? key second with
      | none =>
        have hdefault : b.defaultBinding? key = some found := by simpa [hbfirst, hbsecond] using hb
        simp [hbfirst, hdefault]
      | some hit =>
        -- The first form, which `b` lacks, would have to be farther away.
        refine absurd ⟨nearer, b, farther, hsplit, hlacks, ?_, ?_, ?_⟩ hnot
        · simpa [Bundle.formBinding?] using hbfirst
        · have hsome : (b.formBinding? key second).isSome := by simp [hbsecond]
          simpa [Bundle.formBinding?] using hsome
        · have hnone : ∀ x ∈ nearer, x.formBinding? key first = none := by
            intro x hx
            simp [Bundle.formBinding?, (hlacks x hx).2 first]
          rw [findForm?, findSome?_of_nearer hsplit hnone, hbfirst, Option.none_or] at hfirst
          simpa [List.findSome?_isSome_iff, Bundle.formBinding?] using hfirst

/-- A table's reader finds what the selection of the forms finds, unless a bundle shadows the
first. -/
theorem select?_table_of_not_shadowed (h : r.formTable policy key = .ok table)
    (hnot : ¬(policy = .sameLocaleDefault ∧ r.Shadowed key first second)) :
    table.select? [first, second] = r.select? policy key [first, second] := by
  cases policy with
  | acrossChainFirst => exact select?_table_acrossChainFirst h _
  | sameLocaleDefault =>
    cases hfirst : r.findForm? key first with
    | none =>
      rw [select?_table_of_undeclared h [second] hfirst, select?_of_undeclared [second] hfirst,
        select?_table_singleton h second]
    | some found =>
      have hdeclared : (r.findForm? key first).isSome := by simp [hfirst]
      rw [select?_table_of_declared h [second] hdeclared,
        select?_of_not_shadowed (fun hshadowed => hnot ⟨rfl, hshadowed⟩) hdeclared]

/-- Where a bundle shadows the first form, the selection takes the second, but a table's reader does
not. -/
theorem Shadowed.select?_table_ne (hshadowed : r.Shadowed key first second)
    (h : r.formTable .sameLocaleDefault key = .ok table) (hne : first ≠ second) :
    table.select? [first, second] ≠ r.select? .sameLocaleDefault key [first, second] := by
  obtain ⟨-, found, hselect, hform⟩ := hshadowed.select?
  rw [hselect, select?_table_of_declared h [second] hshadowed.findForm?_isSome,
    lookup?_eq_select?]
  intro hlookup
  obtain ⟨-, -, -, honly⟩ := declares_of_select? hlookup
  have hmem : second ∈ [first] := by simpa using honly second hform
  exact hne (List.mem_singleton.1 hmem).symm

end Resolution

theorem Selector.exact_ne_ofCategory (count : Int) (category : PluralCategory) :
    Selector.exact count ≠ .ofCategory category := by
  intro h
  have htext := congrArg (fun form => form.text.toList.head?) h
  cases category <;> simp [Selector.exact, ofCategory, PluralCategory.name] at htext

/-- A lookup for a count gives what a reader of the key's table takes for it, or fails with the
table, except where defaults of the same locale come first and the form of the plural category
shadows that of the exact count. There it gives the lookup of the category instead. -/
theorem Resolution.lookupCount_eq_table_iff (r : Resolution) (policy : Fallback) (key : String)
    (count : Int) :
    match r.formTable policy key with
    | .error missing => r.lookupCount policy key count = .error missing
    | .ok table =>
      (r.lookupCount policy key count =
          r.require key (table.select? [.exact count, .ofCategory (r.category count)]) ↔
        ¬(policy = .sameLocaleDefault ∧
          r.Shadowed key (.exact count) (.ofCategory (r.category count)))) ∧
      (policy = .sameLocaleDefault ∧
          r.Shadowed key (.exact count) (.ofCategory (r.category count)) →
        r.lookupCount policy key count =
          r.lookup policy key (some (.ofCategory (r.category count)))) := by
  rw [lookupCount_eq_require]
  cases htable : r.formTable policy key with
  | error missing =>
    obtain ⟨rfl, hdefault, hforms⟩ := of_formTable_eq_error htable
    have hnone : r.select? policy key [.exact count, .ofCategory (r.category count)] = none :=
      select?_eq_none_iff.2 ⟨hdefault, fun form _ => hforms form⟩
    rw [hnone]
    rfl
  | ok table =>
    refine ⟨require_inj r key |>.trans ⟨?_, fun hnot => ?_⟩, ?_⟩
    · rintro hagree ⟨rfl, hshadowed⟩
      exact hshadowed.select?_table_ne htable (Selector.exact_ne_ofCategory _ _) hagree.symm
    · exact (select?_table_of_not_shadowed htable hnot).symm
    · rintro ⟨rfl, hshadowed⟩
      rw [hshadowed.select?.1, lookup_eq_require]

/-- With the exact count in root and its category in English, the table has the value for the exact
count, whereas the lookup gives that for the category. -/
theorem Resolution.lookupCount_ne_table_of_exact_in_root :
    (do
      let root ← Bundle.ofDeclarations ⟨"Messages"⟩ .root none
        [.form "files" (.exact 1) (.text "exactly one")]
      let english ← Bundle.ofDeclarations ⟨"Messages"⟩ { language := "en" } none
        [.form "files" (.ofCategory .one) (.text "one file")]
      let catalog ← Catalog.ofList ⟨"Messages"⟩ [root, english]
      let r := catalog.resolve { language := "en" }
      let table ← (r.formTable .sameLocaleDefault "files").mapError .missingKey
      let found ← (r.lookupCount .sameLocaleDefault "files" 1).mapError .missingKey
      return (table.forms.get? (.exact 1), found)) =
    .ok (some ⟨.text "exactly one", .root, some (.exact 1)⟩,
      ⟨.text "one file", { language := "en" }, some (.ofCategory .one)⟩) := by
  rfl

end Localization
