import Localization.Proofs.Properties.Brackets

namespace Localization.Properties

/-- Text that is read as a key where a line starts with it. -/
structure KeyText (text : List Char) (key : String) : Prop where
  no_break : '\r' ∉ text ∧ '\n' ∉ text
  start : ∃ c ∈ text.head?, Text.isBlank c = false ∧ c ≠ '#' ∧ c ≠ '!'
  whole : Whole text
  not_ended : ¬HasUnescaped endsKey text
  unescape_eq : unescape text = .ok key.toList
  nonempty : key ≠ ""

/-- Text that is read as a value where a line ends with it. -/
structure ValueText (text : List Char) (value : String) : Prop where
  no_break : '\r' ∉ text ∧ '\n' ∉ text
  start : ∀ c ∈ text.head?, Text.isBlank c = false
  whole : Whole text
  unescape_eq : unescape text = .ok value.toList

/-- The line that gives a key a value for a form. -/
def formLine (keyText : List Char) (form : Selector) (valueText : List Char) : List Char :=
  keyText ++ (suffix (some form) ++ '=' :: valueText)

variable {keyText valueText : List Char} {key value : String} {form : Selector}

/-- Brackets start a form whatever stands before them, and the first separator behind them ends the
key. -/
theorem splitKey_form (hform : form.Normalized) (bracketed : Bool) (valueText : List Char) :
    splitKey bracketed (suffix (some form) ++ '=' :: valueText) =
      (suffix (some form), '=' :: valueText) := by
  have hopen : endsKey '[' = false := by decide
  have hbracketed : bracketedAfter bracketed '[' = true := rfl
  have hend : splitKey false ('=' :: valueText) = ([], '=' :: valueText) := by
    simp [splitKey, endsKey]
  simp [suffix, splitKey, hopen, hbracketed, splitKey_bracketed fun c hc => (hform.chars c hc).1,
    hend]

theorem splitLine_formLine (hkey : KeyText keyText key) (hform : form.Normalized)
    (hvalue : ValueText valueText value) :
    splitLine (formLine keyText form valueText) = (keyText ++ suffix (some form), valueText) := by
  obtain ⟨bracketed, hsplit⟩ := hkey.whole.splitKey_append hkey.not_ended false
    (suffix (some form) ++ '=' :: valueText)
  have hblank : Text.isBlank '=' = false := by decide
  rw [splitLine, formLine, hsplit, splitKey_form hform]
  simp [dropSeparator, Text.trimLeft_cons, hblank, trimLeft_of_start hvalue.start]

theorem not_mem_suffix_form (hform : form.Normalized) {c : Char}
    (hc : Selector.isFormChar c = false) (hopen : c ≠ '[') (hclose : c ≠ ']') :
    c ∉ suffix (some form) :=
  not_mem_suffix (by simpa using hform) hc hopen hclose

theorem standalone_formLine (hkey : KeyText keyText key) (hform : form.Normalized)
    (hvalue : ValueText valueText value) : Standalone (formLine keyText form valueText) where
  no_break := by
    have hcr := not_mem_suffix_form hform (c := '\r') (by decide) (by decide) (by decide)
    have hlf := not_mem_suffix_form hform (c := '\n') (by decide) (by decide) (by decide)
    simp [formLine, hkey.no_break, hvalue.no_break, hcr, hlf]
  start := by
    obtain ⟨c, hc, hstart⟩ := hkey.start
    exact ⟨c, by simp [formLine, Option.mem_def.1 hc], hstart⟩
  not_continues := by
    have hescape := not_mem_suffix_form hform (c := '\\') (by decide) (by decide) (by decide)
    have hseparator : Whole ['='] := .plain (by decide) .nil
    rw [formLine, hkey.whole.continues_append, (whole_of_no_escape hescape).continues_append,
      ← List.singleton_append, hseparator.continues_append]
    exact hvalue.whole.continues_eq_false

/-- A line of a key, a form and a value is read as just those. -/
theorem parse_formLine (hkey : KeyText keyText key) (hform : form.Normalized)
    (hvalue : ValueText valueText value) :
    parse (String.ofList (formLine keyText form valueText)) = .ok [⟨1, key, some form, value⟩] := by
  have hescape := not_mem_suffix_form hform (c := '\\') (by decide) (by decide) (by decide)
  have hopen : '[' ∉ form.text.toList := fun hmem => by
    simpa [Selector.isFormChar] using (hform.chars '[' hmem).1
  have hname : unescape (keyText ++ suffix (some form)) = .ok (key.toList ++ suffix (some form)) := by
    rw [hkey.whole.unescape_append hkey.unescape_eq, unescape_of_no_escape hescape]
    rfl
  have hread : Selector.ofString? (String.ofList form.text.toList) = some form := by
    rw [String.ofList_toList, hform.ofString?]
  have hsplit := splitLine_formLine hkey hform hvalue
  refine (standalone_formLine hkey hform hvalue).parse_eq_ok_iff.2 ⟨_, ?_, rfl⟩
  refine ofLine_eq_ok_iff.2 ⟨key.toList ++ suffix (some form), value.toList, ?_, ?_,
    .formed hopen hread, hkey.nonempty, rfl, ?_⟩
  · rw [hsplit, hname]
  · rw [hsplit, hvalue.unescape_eq]
  · rw [String.ofList_toList]

end Localization.Properties
