import Mathlib
import Localization.Proofs.Results
import Localization.Properties

namespace Localization.Properties

/-- How a name is read: as a key, if it ends in no bracket, or as a key with the form that stands
between its last opening bracket and its end. -/
inductive Names : List Char → List Char → Option Selector → Prop
  | plain {key} (h : key.getLast? ≠ some ']') : Names key key none
  | formed {key text form} (htext : '[' ∉ text)
      (h : Selector.ofString? (String.ofList text) = some form) :
      Names (key ++ '[' :: (text ++ [']'])) key (some form)

theorem names_none_iff {name key : List Char} :
    Names name key none ↔ name = key ∧ key.getLast? ≠ some ']' := by
  constructor
  · intro h
    generalize hform : none = form? at h
    cases h with
    | plain hlast => exact ⟨rfl, hlast⟩
    | formed _ _ => cases hform
  · rintro ⟨rfl, hlast⟩
    exact .plain hlast

/-- The form of a name is what stands behind its last opening bracket. -/
theorem splitForm_formed {text : List Char} (htext : '[' ∉ text) (key : List Char) :
    splitForm (key ++ '[' :: (text ++ [']'])) =
      match Selector.ofString? (String.ofList text) with
      | none => .error (.invalidSelector (String.ofList (key ++ '[' :: (text ++ [']']))))
      | some form => .ok (key, some form) := by
  have hname : key ++ '[' :: (text ++ [']']) = (key ++ '[' :: text) ++ [']'] := by simp
  have hbody : Text.splitLast? '[' (key ++ '[' :: text) = some (key, text) :=
    Text.splitLast?_eq_some_iff.2 ⟨rfl, htext⟩
  rw [hname]
  cases hform : Selector.ofString? (String.ofList text) <;>
    simp only [splitForm, List.getLast?_concat, List.dropLast_concat, ne_eq, not_true_eq_false,
      if_false, hbody, hform]

theorem splitForm_eq_ok_iff {name key : List Char} {form? : Option Selector} :
    splitForm name = .ok (key, form?) ↔ Names name key form? := by
  constructor
  · intro h
    unfold splitForm at h
    split at h
    · rename_i hlast
      obtain ⟨rfl, rfl⟩ := Prod.mk.inj (Except.ok.inj h)
      exact .plain hlast
    · rename_i hlast
      obtain ⟨body, rfl⟩ := List.getLast?_eq_some_iff.1 (not_not.1 hlast)
      rw [List.dropLast_concat] at h
      split at h
      · cases h
      · rename_i before text hsplit
        obtain ⟨rfl, htext⟩ := Text.eq_of_splitLast? hsplit
        split at h
        · cases h
        · rename_i form hform
          obtain ⟨rfl, rfl⟩ := Prod.mk.inj (Except.ok.inj h)
          rw [List.append_assoc, List.cons_append]
          exact .formed htext hform
  · intro h
    cases h with
    | plain hlast => simp [splitForm, hlast]
    | formed htext hform => rw [splitForm_formed htext, hform]

/-- A name that ends in a form has its key before the form and nothing else. -/
theorem names_formed_iff {text : List Char} (htext : '[' ∉ text) {key key' : List Char}
    {form? : Option Selector} : Names (key ++ '[' :: (text ++ [']'])) key' form? ↔
      key' = key ∧ ∃ form, form? = some form ∧
        Selector.ofString? (String.ofList text) = some form := by
  rw [← splitForm_eq_ok_iff, splitForm_formed htext]
  cases hform : Selector.ofString? (String.ofList text) with
  | none => simp
  | some form =>
    rw [Except.ok.injEq, Prod.mk.injEq]
    exact and_congr eq_comm ⟨fun h => ⟨form, h.symm, rfl⟩, fun ⟨_, h, hsome⟩ => hsome ▸ h.symm⟩

/-- A name with an opening bracket seems to have a form if it ends in a bracket. -/
theorem exists_formed {name : List Char} (hopen : '[' ∈ name) (hlast : name.getLast? = some ']') :
    ∃ key text, name = key ++ '[' :: (text ++ [']']) ∧ '[' ∉ text := by
  obtain ⟨body, rfl⟩ := List.getLast?_eq_some_iff.1 hlast
  have hbody : '[' ∈ body := by simpa using hopen
  cases hsplit : Text.splitLast? '[' body with
  | none => exact absurd hbody (Text.splitLast?_eq_none_iff.1 hsplit)
  | some parts =>
    obtain ⟨rfl, htext⟩ := Text.eq_of_splitLast? hsplit
    exact ⟨parts.1, parts.2, by simp, htext⟩

/-- A name with an opening bracket has a key unless it ends as if in a form and has no key before it
or none that is a form in it. -/
theorem exists_names_iff {name : List Char} (hopen : '[' ∈ name) :
    (∃ key form?, Names name key form? ∧ key ≠ []) ↔
      ¬∃ key text, name = key ++ '[' :: (text ++ [']']) ∧ '[' ∉ text ∧
        (key = [] ∨ Selector.ofString? (String.ofList text) = none) := by
  constructor
  · rintro ⟨key, form?, hnames, hkey⟩ ⟨key', text, rfl, htext, hneither⟩
    obtain ⟨rfl, form, -, hform⟩ := (names_formed_iff htext).1 hnames
    rcases hneither with hempty | hnone
    · exact hkey hempty
    · rw [hform] at hnone
      cases hnone
  · intro h
    by_cases hlast : name.getLast? = some ']'
    · obtain ⟨key, text, rfl, htext⟩ := exists_formed hopen hlast
      obtain ⟨hkey, hsome⟩ := not_or.1 fun hneither => h ⟨key, text, rfl, htext, hneither⟩
      obtain ⟨form, hform⟩ := Option.ne_none_iff_exists'.1 hsome
      exact ⟨key, some form, .formed htext hform, hkey⟩
    · exact ⟨name, none, .plain hlast, List.ne_nil_of_mem hopen⟩

/-- An entry is read off a line if the escapes of its name and its value are well formed and the
name has a key. -/
theorem ofLine_eq_ok_iff {l : LogicalLine} {p : Property} :
    Property.ofLine l = .ok p ↔ ∃ name value, unescape (splitLine l.text).1 = .ok name ∧
      unescape (splitLine l.text).2 = .ok value ∧ Names name p.key.toList p.form? ∧ p.key ≠ "" ∧
      p.line = l.number ∧ p.value = String.ofList value := by
  constructor
  · intro h
    obtain ⟨name, hname, h⟩ := bind_eq_ok_iff.1 h
    obtain ⟨value, hvalue, h⟩ := bind_eq_ok_iff.1 h
    obtain ⟨⟨key, form?⟩, hform, h⟩ := bind_eq_ok_iff.1 h
    dsimp only at h
    split at h
    · cases h
    · rename_i hkey
      obtain rfl := Except.ok.inj h
      refine ⟨name, value, hname, hvalue, ?_, by simpa using hkey, rfl, rfl⟩
      rw [String.toList_ofList]
      exact splitForm_eq_ok_iff.1 hform
  · rintro ⟨name, value, hname, hvalue, hform, hkey, hnumber, hvalue'⟩
    obtain ⟨number, key, form?, text⟩ := p
    simp only at hform hkey hnumber hvalue'
    have hempty : key.toList.isEmpty = false := by simpa using hkey
    simp only [Property.ofLine, hname, hvalue, splitForm_eq_ok_iff.2 hform, hempty, hnumber,
      hvalue', bind, Except.bind, String.ofList_toList]
    rfl

end Localization.Properties
