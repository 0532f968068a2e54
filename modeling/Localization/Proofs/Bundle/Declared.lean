import Mathlib.Data.List.Induction
import Localization.Proofs.Results
import Localization.Properties

namespace Localization

namespace Declaration

/-- The default value that a declaration gives a key. -/
def default? (key : String) : Declaration → Option Value
  | .default other value => if other = key then some value else none
  | .form _ _ _ => none

def key : Declaration → String
  | .default key _ => key
  | .form key _ _ => key

/-- The value that a declaration gives a key for a form. -/
def form? (key : String) (form : Selector) : Declaration → Option Value
  | .default _ _ => none
  | .form other otherForm value => if other = key ∧ otherForm = form then some value else none

/-- The value that the first of some declarations for a key and form gives them. -/
def firstForm? (declarations : List Declaration) (key : String) (form : Selector) : Option Value :=
  declarations.findSome? (·.form? key form)

/-- The conflict of a declaration with the value that its key and form have already. -/
def conflict? (held? : String → Selector → Option Value) : Declaration → Option Conflict
  | .default _ _ => none
  | .form key selector value =>
    (held? key selector).bind fun first =>
      if first = value then none else some ⟨key, selector, first, value⟩

variable {declaration : Declaration} {key : String} {form : Selector} {value : Value}

theorem form?_eq_some_iff : declaration.form? key form = some value ↔
    declaration = .form key form value := by
  cases declaration with
  | default => simp [form?]
  | form other otherForm value => simp [form?, and_assoc]

theorem firstForm?_concat (declarations : List Declaration) (declaration : Declaration)
    (key : String) (form : Selector) :
    firstForm? (declarations ++ [declaration]) key form =
      (firstForm? declarations key form).or (declaration.form? key form) := by
  rw [firstForm?, List.findSome?_append, List.findSome?_singleton]
  rfl

end Declaration

namespace Draft

theorem ofDeclarations_concat (declarations : List Declaration) (declaration : Declaration) :
    ofDeclarations (declarations ++ [declaration]) =
      (ofDeclarations declarations).add declaration :=
  List.foldl_concat ..

def default? (d : Draft) (key : String) : Option Value :=
  (d.entries.get? key).bind (·.default?)

def form? (d : Draft) (key : String) (form : Selector) : Option Value :=
  (d.entries.get? key).bind (·.forms.get? form)

variable {d : Draft} {key : String} {form : Selector} {value first : Value}

/-- A form that has no value yet gets one. -/
theorem addForm_of_none (h : d.form? key form = none) :
    d.addForm key form value = { d with
      entries := d.entries.insert key
        (((d.entries.get? key).map (·.addForm form value)).getD (.ofForm form value)) } := by
  unfold form? at h
  unfold addForm
  split
  · rename_i hget
    rw [hget]
    rfl
  · rename_i entry hget
    rw [hget, Option.bind_some] at h
    rw [h, hget]
    rfl

/-- A form that has a value keeps it. -/
theorem addForm_of_some (h : d.form? key form = some first) :
    d.addForm key form value = { d with
      conflict? := d.conflict?.or ((Declaration.form key form value).conflict? d.form?) } := by
  obtain ⟨entry, hget, hform⟩ := Option.bind_eq_some_iff.1 h
  simp only [addForm, Declaration.conflict?, hget, hform, h]
  split <;> simp [*]

theorem default?_addDefault (d : Draft) (other : String) (value : Value) (key : String) :
    (d.addDefault other value).default? key =
      if other = key then some value else d.default? key := by
  simp only [default?, addDefault, SortedMap.get?_insert, eq_comm (a := key)]
  split
  · cases d.entries.get? other <;> rfl
  · rfl

/-- Forms do not touch default values. -/
theorem default?_addForm (d : Draft) (other : String) (form : Selector) (value : Value)
    (key : String) : (d.addForm other form value).default? key = d.default? key := by
  cases hheld : d.form? other form with
  | some first =>
    rw [addForm_of_some hheld]
    rfl
  | none =>
    rw [addForm_of_none hheld, default?, SortedMap.get?_insert, default?]
    split
    · subst key
      cases d.entries.get? other <;> rfl
    · rfl

theorem default?_add (d : Draft) (declaration : Declaration) (key : String) :
    (d.add declaration).default? key = (declaration.default? key).or (d.default? key) := by
  cases declaration with
  | default other value =>
    rw [add, default?_addDefault, Declaration.default?]
    split <;> simp
  | form other form value => simp [add, default?_addForm, Declaration.default?]

/-- The last default value declared for a key is the one it has. -/
theorem default?_ofDeclarations (declarations : List Declaration) (key : String) :
    (ofDeclarations declarations).default? key =
      declarations.reverse.findSome? (·.default? key) := by
  induction declarations using List.reverseRecOn with
  | nil => rfl
  | append_singleton declarations declaration ih =>
    rw [ofDeclarations_concat, default?_add, ih, List.reverse_append, List.reverse_singleton,
      List.singleton_append, List.findSome?_cons]
    cases declaration.default? key <;> rfl

/-- Default values do not touch forms. -/
theorem form?_addDefault (d : Draft) (other : String) (value : Value) (key : String)
    (form : Selector) : (d.addDefault other value).form? key form = d.form? key form := by
  rw [form?, addDefault, SortedMap.get?_insert, form?]
  split
  · subst key
    cases d.entries.get? other <;> rfl
  · rfl

theorem form?_addForm (d : Draft) (other : String) (otherForm : Selector) (value : Value)
    (key : String) (form : Selector) : (d.addForm other otherForm value).form? key form =
      (d.form? key form).or ((Declaration.form other otherForm value).form? key form) := by
  rw [Declaration.form?]
  cases hheld : d.form? other otherForm with
  | some first =>
    rw [addForm_of_some hheld]
    split
    · rename_i hsame
      obtain ⟨rfl, rfl⟩ := hsame
      rw [hheld]
      exact hheld
    · exact Option.or_none.symm
  | none =>
    rw [addForm_of_none hheld, form?, SortedMap.get?_insert]
    by_cases hkey : key = other
    · subst hkey
      have hforms : (((d.entries.get? key).map (Entry.addForm · otherForm value)).getD
          (Entry.ofForm otherForm value)).forms.get? form =
            if form = otherForm then some value else d.form? key form := by
        cases hget : d.entries.get? key <;>
          simp [Entry.addForm, Entry.ofForm, SortedMap.get?_insert, form?, hget]
      rw [if_pos rfl, Option.bind_some, hforms]
      by_cases hform : form = otherForm
      · simp [hform, hheld]
      · simp [hform, Ne.symm hform]
    · rw [if_neg hkey, if_neg fun hsame => hkey hsame.1.symm, Option.or_none]
      rfl

theorem form?_add (d : Draft) (declaration : Declaration) (key : String) (form : Selector) :
    (d.add declaration).form? key form = (d.form? key form).or (declaration.form? key form) := by
  cases declaration with
  | default other value => simp [add, form?_addDefault, Declaration.form?]
  | form other otherForm value => exact form?_addForm d other otherForm value key form

/-- The first value declared for a key and form is the one that they have. -/
theorem form?_ofDeclarations (declarations : List Declaration) (key : String) (form : Selector) :
    (ofDeclarations declarations).form? key form =
      Declaration.firstForm? declarations key form := by
  induction declarations using List.reverseRecOn with
  | nil => rfl
  | append_singleton declarations declaration ih =>
    rw [ofDeclarations_concat, form?_add, ih, Declaration.firstForm?_concat]

theorem conflict?_add (d : Draft) (declaration : Declaration) :
    (d.add declaration).conflict? = d.conflict?.or (declaration.conflict? d.form?) := by
  cases declaration with
  | default key value => exact Option.or_none.symm
  | form key form value =>
    rw [add]
    cases hheld : d.form? key form with
    | some first => rw [addForm_of_some hheld]
    | none =>
      rw [addForm_of_none hheld, Declaration.conflict?, hheld]
      exact Option.or_none.symm

/-- Default values never conflict. -/
theorem conflict?_ofDefaults (cells : List (String × Value)) :
    (ofDeclarations (cells.map fun (key, value) => .default key value)).conflict? = none := by
  induction cells using List.reverseRecOn with
  | nil => rfl
  | append_singleton cells cell ih =>
    rw [List.map_append, List.map_singleton, ofDeclarations_concat]
    exact ih

theorem mem_keys_of_form? (h : d.form? key form = some value) : key ∈ d.entries.keys := by
  obtain ⟨entry, hget, -⟩ := Option.bind_eq_some_iff.1 h
  rw [SortedMap.mem_keys_iff, hget]
  rfl

theorem mem_keys_add (d : Draft) (declaration : Declaration) (key : String) :
    key ∈ (d.add declaration).entries.keys ↔ declaration.key = key ∨ key ∈ d.entries.keys := by
  rw [eq_comm (a := declaration.key)]
  cases declaration with
  | default other value => exact SortedMap.mem_keys_insert ..
  | form other form value =>
    rw [add, Declaration.key]
    cases hheld : d.form? other form with
    | some first =>
      have hother : other ∈ d.entries.keys := mem_keys_of_form? hheld
      rw [addForm_of_some hheld]
      exact (or_iff_right_of_imp fun h => h ▸ hother).symm
    | none =>
      rw [addForm_of_none hheld]
      exact SortedMap.mem_keys_insert ..

theorem mem_keys_ofDeclarations (declarations : List Declaration) (key : String) :
    key ∈ (ofDeclarations declarations).entries.keys ↔ ∃ d ∈ declarations, d.key = key := by
  induction declarations using List.reverseRecOn with
  | nil => simp [ofDeclarations, SortedMap.keys, SortedMap.empty]
  | append_singleton declarations declaration ih =>
    rw [ofDeclarations_concat, mem_keys_add, ih]
    simp only [List.mem_append, List.mem_singleton, or_and_right, exists_or, exists_eq_left,
      or_comm]

/-- Drafts with the same keys, default values and forms have the same entries. -/
theorem entries_ext {d d' : Draft} (hkeys : ∀ key, key ∈ d.entries.keys ↔ key ∈ d'.entries.keys)
    (hdefaults : ∀ key, d.default? key = d'.default? key)
    (hforms : ∀ key form, d.form? key form = d'.form? key form) : d.entries = d'.entries := by
  refine SortedMap.ext_get? fun key => ?_
  have hkey := hkeys key
  have hdefault := hdefaults key
  have hform := hforms key
  simp only [SortedMap.mem_keys_iff, default?, form?] at hkey hdefault hform
  cases hget : d.entries.get? key with
  | none =>
    rw [hget] at hkey
    exact (Option.not_isSome_iff_eq_none.1 fun hsome => by cases hkey.2 hsome).symm
  | some entry =>
    rw [hget] at hkey hdefault hform
    obtain ⟨entry', hget'⟩ := Option.isSome_iff_exists.1 (hkey.1 rfl)
    rw [hget'] at hdefault hform ⊢
    rw [Option.some.injEq, Entry.mk.injEq]
    exact ⟨hdefault, SortedMap.ext_get? hform⟩

end Draft

namespace Bundle

variable {i : Interface} {t : Locale} {source? : Option String} {declarations : List Declaration}
  {text : String} {b : Bundle} {error : Error}

theorem ofDeclarations_eq_ok_iff : ofDeclarations i t source? declarations = .ok b ↔
    (Draft.ofDeclarations declarations).conflict? = none ∧
      b = ⟨i, t, source?, (Draft.ofDeclarations declarations).entries⟩ := by
  rw [ofDeclarations]
  cases (Draft.ofDeclarations declarations).conflict? with
  | some conflict => simp
  | none => simpa using eq_comm

theorem ofDeclarations_eq_error_iff : ofDeclarations i t source? declarations = .error error ↔
    ∃ c, (Draft.ofDeclarations declarations).conflict? = some c ∧
      error = .ambiguousSelector c.key c.form t c.first c.second := by
  rw [ofDeclarations]
  cases (Draft.ofDeclarations declarations).conflict? with
  | some conflict => simpa using eq_comm
  | none => simp

theorem belongs_of_ofDeclarations (h : ofDeclarations i t source? declarations = .ok b) :
    b.interface = i ∧ b.locale = t ∧ b.source? = source? := by
  obtain ⟨-, rfl⟩ := ofDeclarations_eq_ok_iff.1 h
  exact ⟨rfl, rfl, rfl⟩

theorem default?_of_ofDeclarations (h : ofDeclarations i t source? declarations = .ok b)
    (key : String) : b.default? key = declarations.reverse.findSome? (·.default? key) := by
  obtain ⟨-, rfl⟩ := ofDeclarations_eq_ok_iff.1 h
  exact Draft.default?_ofDeclarations declarations key

/-- Default values alone always make a bundle, and each key has one of those declared for it. -/
theorem exists_ofDefaults (i : Interface) (t : Locale) (source? : Option String)
    (cells : List (String × Value)) :
    ∃ b, ofDeclarations i t source? (cells.map fun (key, value) => .default key value) = .ok b ∧
      b.interface = i ∧ b.locale = t ∧
      (∀ key value, b.default? key = some value → (key, value) ∈ cells) ∧
      ∀ key value, (key, value) ∈ cells → (b.default? key).isSome := by
  obtain ⟨b, hmade⟩ : ∃ b, ofDeclarations i t source?
      (cells.map fun (key, value) => .default key value) = .ok b :=
    ⟨_, ofDeclarations_eq_ok_iff.2 ⟨Draft.conflict?_ofDefaults cells, rfl⟩⟩
  obtain ⟨hinterface, hlocale, -⟩ := belongs_of_ofDeclarations hmade
  refine ⟨b, hmade, hinterface, hlocale, fun key value hvalue => ?_, fun key value hcell => ?_⟩
  · rw [default?_of_ofDeclarations hmade] at hvalue
    obtain ⟨declaration, hmem, hdefault⟩ := List.exists_of_findSome?_eq_some hvalue
    obtain ⟨cell, hcell, rfl⟩ := List.mem_map.1 (List.mem_reverse.1 hmem)
    obtain ⟨rfl, rfl⟩ : cell.1 = key ∧ cell.2 = value := by
      simpa [Declaration.default?] using hdefault
    exact hcell
  · rw [default?_of_ofDeclarations hmade, List.findSome?_isSome_iff]
    exact ⟨.default key value, List.mem_reverse.2 (List.mem_map.2 ⟨_, hcell, rfl⟩), by
      simp [Declaration.default?]⟩

theorem ofProperties_eq_ok_iff : ofProperties i t source? text = .ok b ↔
    ∃ properties, Properties.parse text = .ok properties ∧
      ofDeclarations i t source? (properties.map Property.declaration) = .ok b :=
  bind_eq_ok_iff

/-- Where a text was found says nothing about what it declares. -/
theorem ofProperties_of_source (h : ofProperties i t source? text = .ok b)
    (source?' : Option String) :
    ofProperties i t source?' text = .ok { b with source? := source?' } := by
  obtain ⟨properties, hparse, hdeclared⟩ := ofProperties_eq_ok_iff.1 h
  obtain ⟨hconflict, rfl⟩ := ofDeclarations_eq_ok_iff.1 hdeclared
  exact ofProperties_eq_ok_iff.2
    ⟨properties, hparse, ofDeclarations_eq_ok_iff.2 ⟨hconflict, rfl⟩⟩

theorem belongs_of_ofProperties (h : ofProperties i t source? text = .ok b) :
    b.interface = i ∧ b.locale = t ∧ b.source? = source? := by
  obtain ⟨_, -, hdeclared⟩ := ofProperties_eq_ok_iff.1 h
  exact belongs_of_ofDeclarations hdeclared

end Bundle

end Localization
