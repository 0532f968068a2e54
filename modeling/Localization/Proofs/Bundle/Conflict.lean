import Localization.Proofs.Bundle.Declared

namespace Localization

namespace Declaration

variable {declaration : Declaration} {declarations : List Declaration} {key : String}
  {form : Selector} {value : Value} {held? : String → Selector → Option Value} {c : Conflict}

theorem conflict?_eq_some_iff : declaration.conflict? held? = some c ↔
    declaration = .form c.key c.form c.second ∧ held? c.key c.form = some c.first ∧
      c.first ≠ c.second := by
  cases declaration with
  | default => simp [conflict?]
  | form key form value =>
    simp only [conflict?, Option.bind_eq_some_iff, Option.ite_none_left_eq_some, Option.some.injEq,
      Declaration.form.injEq]
    constructor
    · rintro ⟨first, hfirst, hne, rfl⟩
      exact ⟨⟨rfl, rfl, rfl⟩, hfirst, hne⟩
    · rintro ⟨⟨rfl, rfl, rfl⟩, hfirst, hne⟩
      exact ⟨c.first, hfirst, hne, rfl⟩

theorem mem_of_firstForm? (h : firstForm? declarations key form = some value) :
    .form key form value ∈ declarations := by
  obtain ⟨declaration, hmem, hvalue⟩ := List.exists_of_findSome?_eq_some h
  rwa [← form?_eq_some_iff.1 hvalue]

theorem exists_firstForm? (h : .form key form value ∈ declarations) :
    ∃ first, firstForm? declarations key form = some first :=
  Option.isSome_iff_exists.1 <| List.findSome?_isSome_iff.2
    ⟨_, h, by simp [form?_eq_some_iff.2 rfl]⟩

/-- A declaration that comes after others conflicts with them just if it does with the first values
of all. -/
theorem conflict?_firstForm?_concat (declarations : List Declaration) (declaration : Declaration) :
    declaration.conflict? (firstForm? (declarations ++ [declaration])) =
      declaration.conflict? (firstForm? declarations) := by
  cases declaration with
  | default => rfl
  | form key form value =>
    rw [conflict?, firstForm?_concat, form?_eq_some_iff.2 rfl, conflict?]
    cases firstForm? declarations key form with
    | none => exact if_pos rfl
    | some first => rfl

/-- What comes after a declaration is not its first value. -/
theorem conflict?_firstForm?_of_mem (h : declaration ∈ declarations) (later : Declaration) :
    declaration.conflict? (firstForm? (declarations ++ [later])) =
      declaration.conflict? (firstForm? declarations) := by
  cases declaration with
  | default => rfl
  | form key form value =>
    obtain ⟨first, hfirst⟩ := exists_firstForm? h
    rw [conflict?, firstForm?_concat, conflict?, hfirst, Option.some_or]

end Declaration

/-- The conflict of some declarations is that of the first that differs from the first value of its
key and form. -/
theorem Draft.conflict?_ofDeclarations (declarations : List Declaration) :
    (ofDeclarations declarations).conflict? =
      declarations.findSome? (·.conflict? (Declaration.firstForm? declarations)) := by
  induction declarations using List.reverseRecOn with
  | nil => rfl
  | append_singleton declarations declaration ih =>
    have hheld : (ofDeclarations declarations).form? = Declaration.firstForm? declarations :=
      funext₂ fun key form => form?_ofDeclarations declarations key form
    rw [ofDeclarations_concat, conflict?_add, ih, hheld, List.findSome?_append,
      List.findSome?_singleton, Declaration.conflict?_firstForm?_concat,
      findSome?_congr fun _ hmem => Declaration.conflict?_firstForm?_of_mem hmem declaration]

/-- A value that is repeated is no conflict, and of several conflicts the earliest counts. -/
example : (Draft.ofDeclarations
      [.form "files" (.ofCategory .one) (.text "a file"),
        .form "files" (.ofCategory .one) (.text "a file"),
        .form "files" (.ofCategory .one) (.text "1 file"),
        .form "files" (.ofCategory .one) (.text "one file")]).conflict? =
    some ⟨"files", .ofCategory .one, .text "a file", .text "1 file"⟩ := by
  decide

namespace Declaration

/-- Whether no key and form are given two values. -/
def Agree (declarations : List Declaration) : Prop :=
  ∀ key form value other, .form key form value ∈ declarations →
    .form key form other ∈ declarations → value = other

variable {declarations : List Declaration}

theorem Agree.perm {declarations' : List Declaration} (h : Agree declarations)
    (hperm : declarations'.Perm declarations) : Agree declarations' :=
  fun key form value other hvalue hother =>
    h key form value other (hperm.subset hvalue) (hperm.subset hother)

theorem Agree.firstForm?_eq_some_iff (h : Agree declarations) {key : String} {form : Selector}
    {value : Value} : firstForm? declarations key form = some value ↔
      .form key form value ∈ declarations := by
  refine ⟨mem_of_firstForm?, fun hmem => ?_⟩
  obtain ⟨first, hfirst⟩ := exists_firstForm? hmem
  rw [hfirst, h key form first value (mem_of_firstForm? hfirst) hmem]

theorem conflict?_firstForm?_eq_none_iff {key : String} {form : Selector} {value : Value}
    (h : .form key form value ∈ declarations) :
    (Declaration.form key form value).conflict? (firstForm? declarations) = none ↔
      firstForm? declarations key form = some value := by
  obtain ⟨first, hfirst⟩ := exists_firstForm? h
  simp [conflict?, hfirst]

/-- None of some declarations conflicts if each gives the first value of its key and form. -/
theorem forall_conflict?_eq_none_iff {part : List Declaration} (hpart : part ⊆ declarations) :
    (∀ d ∈ part, d.conflict? (firstForm? declarations) = none) ↔
      ∀ key form value, .form key form value ∈ part →
        firstForm? declarations key form = some value := by
  constructor
  · intro h key form value hmem
    exact (conflict?_firstForm?_eq_none_iff (hpart hmem)).1 (h _ hmem)
  · intro h declaration hmem
    cases declaration with
    | default => rfl
    | form key form value =>
      exact (conflict?_firstForm?_eq_none_iff (hpart hmem)).2 (h key form value hmem)

theorem conflict?_eq_none_iff : (Draft.ofDeclarations declarations).conflict? = none ↔
    Agree declarations := by
  rw [Draft.conflict?_ofDeclarations, List.findSome?_eq_none_iff,
    forall_conflict?_eq_none_iff (List.Subset.refl _)]
  constructor
  · intro h key form value other hvalue hother
    exact Option.some.inj ((h key form value hvalue).symm.trans (h key form other hother))
  · exact fun h key form value hmem => h.firstForm?_eq_some_iff.2 hmem

/-- The conflict is that of the earliest declaration with another value than the first one. -/
theorem conflict?_eq_some_iff_split {c : Conflict} :
    (Draft.ofDeclarations declarations).conflict? = some c ↔
      ∃ before after, declarations = before ++ .form c.key c.form c.second :: after ∧
        firstForm? declarations c.key c.form = some c.first ∧ c.first ≠ c.second ∧
        ∀ key form value, .form key form value ∈ before →
          firstForm? declarations key form = some value := by
  rw [Draft.conflict?_ofDeclarations, List.findSome?_eq_some_iff]
  constructor
  · rintro ⟨before, declaration, after, hsplit, hconflict, hbefore⟩
    obtain ⟨rfl, hfirst, hne⟩ := conflict?_eq_some_iff.1 hconflict
    have hpart : before ⊆ declarations := hsplit ▸ List.subset_append_left ..
    exact ⟨before, after, hsplit, hfirst, hne, (forall_conflict?_eq_none_iff hpart).1 hbefore⟩
  · rintro ⟨before, after, hsplit, hfirst, hne, hbefore⟩
    have hpart : before ⊆ declarations := hsplit ▸ List.subset_append_left ..
    exact ⟨before, _, after, hsplit, conflict?_eq_some_iff.2 ⟨rfl, hfirst, hne⟩,
      (forall_conflict?_eq_none_iff hpart).2 hbefore⟩

end Declaration

namespace Bundle

/-- What a bundle has that is made of some declarations: for each key its last default value, and
for a form the value that all declarations of it give. -/
structure Collects (b : Bundle) (declarations : List Declaration) : Prop where
  default?_eq (key : String) : b.default? key = (declarations.filterMap (·.default? key)).getLast?
  form?_iff (key : String) (form : Selector) (value : Value) :
    b.form? key form = some value ↔ .form key form value ∈ declarations
  contains_iff (key : String) : b.contains key ↔ ∃ d ∈ declarations, d.key = key
  increasing_keys : b.keys.Pairwise (· < ·)
  mem_keys_iff (key : String) : key ∈ b.keys ↔ ∃ d ∈ declarations, d.key = key

variable {i : Interface} {t : Locale} {source? : Option String} {declarations : List Declaration}
  {b : Bundle} {error : Error}

theorem exists_error_iff_not_agree :
    (∃ error, ofDeclarations i t source? declarations = .error error) ↔
      ¬Declaration.Agree declarations := by
  rw [← Declaration.conflict?_eq_none_iff, ← ne_eq, Option.ne_none_iff_exists']
  simp only [ofDeclarations_eq_error_iff]
  exact ⟨fun ⟨_, c, hconflict, _⟩ => ⟨c, hconflict⟩, fun ⟨c, hconflict⟩ => ⟨_, c, hconflict, rfl⟩⟩

theorem collects_of_ofDeclarations (h : ofDeclarations i t source? declarations = .ok b) :
    b.Collects declarations := by
  have hdefault := default?_of_ofDeclarations h
  obtain ⟨hconflict, rfl⟩ := ofDeclarations_eq_ok_iff.1 h
  have hagree := Declaration.conflict?_eq_none_iff.1 hconflict
  have hkeys := Draft.mem_keys_ofDeclarations declarations
  exact {
    default?_eq := fun key => by rw [hdefault, List.getLast?_filterMap]
    form?_iff := fun key form value => by
      rw [← hagree.firstForm?_eq_some_iff, ← Draft.form?_ofDeclarations]
      rfl
    contains_iff := fun key => by
      rw [← hkeys, SortedMap.mem_keys_iff]
      rfl
    increasing_keys := SortedMap.increasing_keys _ |>.imp compareOfLessAndEq_eq_lt.1
    mem_keys_iff := hkeys }

/-- The order of declarations counts for nothing but which default value of a key is the last. -/
theorem ofDeclarations_of_perm (h : ofDeclarations i t source? declarations = .ok b)
    {declarations' : List Declaration} (hperm : declarations'.Perm declarations)
    (hdefaults : ∀ key, declarations'.filterMap (·.default? key) =
      declarations.filterMap (·.default? key)) :
    ofDeclarations i t source? declarations' = .ok b := by
  obtain ⟨hconflict, rfl⟩ := ofDeclarations_eq_ok_iff.1 h
  have hagree := Declaration.conflict?_eq_none_iff.1 hconflict
  have hagree' := hagree.perm hperm
  have hentries : (Draft.ofDeclarations declarations).entries =
      (Draft.ofDeclarations declarations').entries := by
    refine Draft.entries_ext (fun key => ?_) (fun key => ?_) fun key form => ?_
    · simp only [Draft.mem_keys_ofDeclarations, hperm.mem_iff]
    · rw [Draft.default?_ofDeclarations, Draft.default?_ofDeclarations,
        ← List.getLast?_filterMap, ← List.getLast?_filterMap, hdefaults]
    · rw [Draft.form?_ofDeclarations, Draft.form?_ofDeclarations]
      ext value
      rw [hagree.firstForm?_eq_some_iff, hagree'.firstForm?_eq_some_iff, hperm.mem_iff]
  exact ofDeclarations_eq_ok_iff.2 ⟨Declaration.conflict?_eq_none_iff.2 hagree', by rw [hentries]⟩

/-- There is no bundle just where two declarations give a key and form different values; the error
is about the earliest that differs from the first. A bundle has what was declared, in whatever order
apart from that of a key's default values. -/
theorem ofDeclarations_exact (i : Interface) (t : Locale) (source? : Option String)
    (declarations : List Declaration) :
    ((∃ error, ofDeclarations i t source? declarations = .error error) ↔
        ∃ key form value other, .form key form value ∈ declarations ∧
          .form key form other ∈ declarations ∧ value ≠ other) ∧
      (∀ error, ofDeclarations i t source? declarations = .error error ↔
        ∃ before key form second after first,
          declarations = before ++ .form key form second :: after ∧
          Declaration.firstForm? declarations key form = some first ∧ first ≠ second ∧
          (∀ key form value, .form key form value ∈ before →
            Declaration.firstForm? declarations key form = some value) ∧
          error = .ambiguousSelector key form t first second) ∧
      ∀ b, ofDeclarations i t source? declarations = .ok b →
        b.Collects declarations ∧
        ∀ declarations', declarations'.Perm declarations →
          (∀ key, declarations'.filterMap (·.default? key) =
            declarations.filterMap (·.default? key)) →
          ofDeclarations i t source? declarations' = .ok b := by
  refine ⟨?_, fun error => ?_, fun b h =>
    ⟨collects_of_ofDeclarations h, fun _ => ofDeclarations_of_perm h⟩⟩
  · rw [exists_error_iff_not_agree]
    simp only [Declaration.Agree, not_forall, exists_prop]
  · rw [ofDeclarations_eq_error_iff]
    simp only [Declaration.conflict?_eq_some_iff_split]
    constructor
    · rintro ⟨c, ⟨before, after, hsplit, hfirst, hne, hbefore⟩, rfl⟩
      exact ⟨before, c.key, c.form, c.second, after, c.first, hsplit, hfirst, hne, hbefore, rfl⟩
    · rintro ⟨before, key, form, second, after, first, hsplit, hfirst, hne, hbefore, rfl⟩
      exact ⟨⟨key, form, first, second⟩, ⟨before, after, hsplit, hfirst, hne, hbefore⟩, rfl⟩

/-- A value that is repeated for a form is no conflict, and the form may come before or after the
default value. -/
theorem ofDeclarations_exact_files :
    let one : Declaration := .form "files" (.ofCategory .one) (.text "one file")
    let declarations : List Declaration := [.default "files" (.text "files"), one, one]
    ∃ b, ofDeclarations ⟨"Messages"⟩ .root none declarations = .ok b ∧ b.Collects declarations ∧
      ofDeclarations ⟨"Messages"⟩ .root none declarations.reverse = .ok b := by
  intro one declarations
  obtain ⟨-, -, hmade⟩ := ofDeclarations_exact ⟨"Messages"⟩ .root none declarations
  obtain ⟨hcollects, hperm⟩ := hmade _ rfl
  refine ⟨_, rfl, hcollects, hperm _ (List.reverse_perm _) fun key => ?_⟩
  simp [declarations, one, List.filterMap_cons, Declaration.default?]

end Bundle

end Localization
