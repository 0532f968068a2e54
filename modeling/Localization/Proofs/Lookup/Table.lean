import Localization.Proofs.Lookup.Count

namespace Localization

/-- No entry is without a value, so that a bundle contains just the keys that it has a default value
or a form for. -/
theorem Bundle.contains_iff (b : Bundle) (key : String) :
    b.contains key ↔ (b.default? key).isSome ∨ ∃ form, (b.form? key form).isSome := by
  unfold contains default? form?
  cases b.entries.get? key with
  | none => simp
  | some entry =>
    have hforms : entry.forms.entries ≠ [] → ∃ form, (entry.forms.get? form).isSome := by
      intro hne
      obtain ⟨⟨form, value⟩, hmem⟩ := List.exists_mem_of_ne_nil _ hne
      exact ⟨form, by simp [(SortedMap.mem_entries_iff _ _ _).1 hmem]⟩
    exact ⟨fun _ => entry.declared.imp_right hforms, fun _ => rfl⟩

namespace Resolution

variable {r : Resolution} {policy : Fallback} {key : String} {table : FormTable}

theorem formTable_eq_error_iff : (∃ missing, r.formTable policy key = .error missing) ↔
    r.findDefault? key = none ∧ ∀ form, r.findForm? key form = none := by
  constructor
  · rintro ⟨missing, h⟩
    exact (of_formTable_eq_error h).2
  · rintro ⟨hdefault, hforms⟩
    have hdeclared : r.declaredForms key = [] := by
      refine List.eq_nil_iff_forall_not_mem.2 fun form hform => ?_
      simpa [hforms form] using (mem_declaredForms_iff form).1 hform
    refine ⟨r.missingKey key, ?_⟩
    simp only [formTable, hdeclared, lookup?, hdefault]
    rfl

theorem forall_not_contains_iff : (∀ b ∈ r.bundles, b.contains key = false) ↔
    r.findDefault? key = none ∧ ∀ form, r.findForm? key form = none := by
  simp only [Bool.eq_false_iff, ne_eq, Bundle.contains_iff, not_or, not_exists,
    Option.not_isSome_iff_eq_none, findDefault?_eq_none_iff, findForm?_eq_none_iff]
  exact ⟨fun h => ⟨fun b hb => (h b hb).1, fun form b hb => (h b hb).2 form⟩,
    fun h b hb => ⟨h.1 b hb, fun form => h.2 form b hb⟩⟩

theorem formTable_eq_missing_iff {missing : MissingKey} : r.formTable policy key = .error missing ↔
    (∀ b ∈ r.bundles, b.contains key = false) ∧ missing = r.missingKey key := by
  have hnone : (∃ missing, r.formTable policy key = .error missing) ↔
      ∀ b ∈ r.bundles, b.contains key = false :=
    formTable_eq_error_iff.trans forall_not_contains_iff.symm
  rw [← hnone]
  constructor
  · exact fun h => ⟨⟨missing, h⟩, (of_formTable_eq_error h).1⟩
  · rintro ⟨⟨missing', h⟩, rfl⟩
    rw [h, (of_formTable_eq_error h).1]

/-- A table has every form that some bundle declares, also where a default value comes first. -/
theorem mem_keys_of_formTable (h : r.formTable policy key = .ok table) (form : Selector) :
    form ∈ table.forms.keys ↔ ∃ b ∈ r.bundles, form ∈ b.forms key := by
  have hdeclared : (∃ b ∈ r.bundles, form ∈ b.forms key) ↔ (r.findForm? key form).isSome := by
    rw [← mem_declaredForms_iff, declaredForms, List.mem_flatMap]
  rw [SortedMap.mem_keys_iff, get?_forms_of_formTable h, hdeclared]
  split
  · rename_i hform
    exact iff_of_true (lookup?_isSome_of_findForm? policy hform) hform
  · rename_i hform
    exact iff_of_false (by simp) hform

/-- A table's value for a form is the one that a lookup of the form gives. -/
theorem exists_found_of_formTable (h : r.formTable policy key = .ok table) {form : Selector}
    (hform : form ∈ table.forms.keys) :
    ∃ found, table.forms.get? form = some found ∧ r.lookup policy key (some form) = .ok found := by
  obtain ⟨found, hfound⟩ := Option.isSome_iff_exists.1 ((SortedMap.mem_keys_iff _ _).1 hform)
  refine ⟨found, hfound, (require_eq_ok_iff _ _ _ _).2 ?_⟩
  rw [get?_forms_of_formTable h] at hfound
  split at hfound
  · exact hfound
  · cases hfound

theorem key_of_formTable (h : r.formTable policy key = .ok table) : table.key = key := by
  simp only [formTable] at h
  split at h
  · cases h
  · cases h
    rfl

/-- There is no form table just where no bundle contains the key. A table has the forms that the
bundles declare, all of them and no others, in order, each with what a lookup of the form gives; its
default value is what a lookup without a form gives, if there is any. -/
theorem formTable_exact (r : Resolution) (policy : Fallback) (key : String) :
    ((∃ missing, r.formTable policy key = .error missing) ↔
        ∀ b ∈ r.bundles, b.contains key = false) ∧
      ∀ table, r.formTable policy key = .ok table →
        table.key = key ∧
        (∀ form, form ∈ table.forms.keys ↔ ∃ b ∈ r.bundles, form ∈ b.forms key) ∧
        table.forms.keys.Pairwise (·.text < ·.text) ∧
        (∀ form ∈ table.forms.keys, ∃ found, table.forms.get? form = some found ∧
          r.lookup policy key (some form) = .ok found) ∧
        ∀ found, table.default? = some found ↔ r.lookup policy key none = .ok found := by
  refine ⟨formTable_eq_error_iff.trans forall_not_contains_iff.symm, fun table h =>
    ⟨key_of_formTable h, mem_keys_of_formTable h, ?_, fun form => exists_found_of_formTable h,
      fun found => ?_⟩⟩
  · exact table.forms.increasing_keys.imp compareOfLessAndEq_eq_lt.1
  · rw [default?_of_formTable h, lookup_eq_require, require_eq_ok_iff]
    rfl

/-- The table of `az` has its own form and that of root, each with what a lookup gives. -/
theorem formTable_exact_az :
    ∃ c table, (do
        let root ← Bundle.ofDeclarations ⟨"Messages"⟩ .root none
          [.form "files" (.exact 1) (.text "exactly one")]
        let azeri ← Bundle.ofDeclarations ⟨"Messages"⟩ { language := "az" } none
          [.form "files" (.ofCategory .one) (.text "bir fayl")]
        Catalog.ofList ⟨"Messages"⟩ [root, azeri]) = .ok c ∧
      (c.resolve { language := "az" }).formTable .sameLocaleDefault "files" = .ok table ∧
      table.forms.keys = [.exact 1, .ofCategory .one] ∧
      ∀ form ∈ table.forms.keys, ∃ found, table.forms.get? form = some found ∧
        (c.resolve { language := "az" }).lookup .sameLocaleDefault "files" (some form) =
          .ok found := by
  let table : FormTable := ⟨"files", none,
    ⟨[(.exact 1, ⟨.text "exactly one", .root, some (.exact 1)⟩),
      (.ofCategory .one, ⟨.text "bir fayl", { language := "az" }, some (.ofCategory .one)⟩)],
      by decide⟩⟩
  exact ⟨_, table, rfl, by rfl, rfl,
    ((formTable_exact _ .sameLocaleDefault "files").2 table (by rfl)).2.2.2.1⟩

end Resolution

end Localization
