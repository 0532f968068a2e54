import Localization.Proofs.Properties.Layout

namespace Localization

namespace Properties

/-! Escaped brackets -/

/-- The text with a backslash before each character that is neither letter nor digit. -/
def escape (text : List Char) : List Char :=
  text.flatMap fun c => if c.isAlphanum then [c] else ['\\', c]

theorem writes_escape {text : List Char} (h : '\r' ∉ text ∧ '\n' ∉ text) :
    Writes text (escape text) := by
  induction text with
  | nil => exact .nil
  | cons c text ih =>
    simp only [List.mem_cons, not_or] at h
    obtain ⟨⟨hcr, hcr'⟩, hlf, hlf'⟩ := h
    have hchar : WritesChar c (if c.isAlphanum then [c] else ['\\', c]) := by
      split
      · rename_i hc
        exact .plain hc
      · rename_i hc
        exact .pair hc ⟨Ne.symm hcr, Ne.symm hlf⟩
    exact .cons hchar (ih ⟨hcr', hlf'⟩)

/-- A key and a value in guarded text make a line of their own. -/
theorem Guarded.standalone {key value : List Char} (hkey : Guarded key) (hvalue : Guarded value) :
    Standalone (key ++ '=' :: value) where
  no_break := by simp [hkey.no_break, hvalue.no_break]
  start := by
    cases key with
    | nil => exact ⟨'=', rfl, by decide⟩
    | cons c key => exact ⟨c, rfl, hkey.start c rfl⟩
  not_continues := by
    have hseparator : Whole ['='] := .plain (by decide) .nil
    rw [hkey.whole.continues_append, ← List.singleton_append, hseparator.continues_append]
    exact hvalue.whole.continues_eq_false

/-- A text that is one line has the entry of that line. -/
theorem Standalone.parse_eq_ok_iff {line : List Char} (h : Standalone line)
    {entries : List Property} : parse (String.ofList line) = .ok entries ↔
      ∃ p, Property.ofLine ⟨1, line⟩ = .ok p ∧ entries = [p] := by
  have hnone : IsIndent [] := by simp [IsIndent]
  have hline := h.logicalLines_eq .whole hnone (.inl ⟨rfl, rfl⟩) 1
  rw [List.nil_append, List.append_nil] at hline
  rw [parse_eq, String.toList_ofList, hline, mapM_eq_ok_iff, List.forall₂_cons_left_iff]
  constructor
  · rintro ⟨p, _, hread, - | -, rfl⟩
    exact ⟨p, mapError_eq_ok_iff.1 hread, rfl⟩
  · rintro ⟨p, hread, rfl⟩
    exact ⟨p, [], mapError_eq_ok_iff.2 hread, .nil, rfl⟩

/-- A bracket counts where a name ends in it or has it before its form, whether or not it is
escaped. A key and a value in which a backslash stands before each character that could mean
something are read back as they are if the key is not empty and does not end in a bracket, and only
then: whatever form the key seems to have is split off it, and is an error if it is none. -/
theorem parse_escaped_name {key value : List Char} (hkey : '\r' ∉ key ∧ '\n' ∉ key)
    (hvalue : '\r' ∉ value ∧ '\n' ∉ value) :
    (parse (String.ofList (escape key ++ '=' :: escape value)) =
        .ok [⟨1, String.ofList key, none, String.ofList value⟩] ↔
      key ≠ [] ∧ key.getLast? ≠ some ']') ∧
    ∀ entries, parse (String.ofList (escape key ++ '=' :: escape value)) = .ok entries ↔
      ∃ name form?, Names key name form? ∧ name ≠ [] ∧
        entries = [⟨1, String.ofList name, form?, String.ofList value⟩] := by
  have hwritesKey := writes_escape hkey
  have hwritesValue := writes_escape hvalue
  have hall : ∀ entries, parse (String.ofList (escape key ++ '=' :: escape value)) = .ok entries ↔
      ∃ name form?, Names key name form? ∧ name ≠ [] ∧
        entries = [⟨1, String.ofList name, form?, String.ofList value⟩] := by
    intro entries
    have hsplit : splitLine (escape key ++ '=' :: escape value) = (escape key, escape value) := by
      have hform : ∀ form ∈ (none : Option Selector), form.Normalized := by simp
      simpa [suffix] using hwritesKey.guarded.splitLine hwritesValue.guarded hform
    rw [(hwritesKey.guarded.standalone hwritesValue.guarded).parse_eq_ok_iff]
    simp only [ofLine_eq_ok_iff, hsplit, hwritesKey.unescape, hwritesValue.unescape]
    constructor
    · rintro ⟨⟨line, name, form?, text⟩, ⟨_, _, ⟨⟩, ⟨⟩, hnames, hne, rfl, rfl⟩, rfl⟩
      exact ⟨name.toList, form?, hnames, by simpa using hne, by rw [String.ofList_toList]⟩
    · rintro ⟨name, form?, hnames, hne, rfl⟩
      refine ⟨_, ⟨key, value, rfl, rfl, ?_, by simpa using hne, rfl, rfl⟩, rfl⟩
      rwa [String.toList_ofList]
  refine ⟨?_, hall⟩
  rw [hall]
  constructor
  · rintro ⟨name, form?, hnames, hne, heq⟩
    obtain ⟨-, hname, hform, -⟩ := Property.mk.inj (List.cons.inj heq).1
    subst hform
    obtain ⟨rfl, hlast⟩ := names_none_iff.1 hnames
    exact ⟨hne, hlast⟩
  · rintro ⟨hne, hlast⟩
    exact ⟨key, none, .plain hlast, hne, rfl⟩

/-- A key that ends in a form with its brackets escaped is taken apart, and the value is not. -/
theorem parse_escaped_name_files :
    ('\r' ∉ "files[one]".toList ∧ '\n' ∉ "files[one]".toList) ∧
      ('\r' ∉ "a]".toList ∧ '\n' ∉ "a]".toList) ∧
      parse "files\\[one\\]=a\\]" = .ok [⟨1, "files", some ⟨"one"⟩, "a]"⟩] := by
  have hkey : '\r' ∉ "files[one]".toList ∧ '\n' ∉ "files[one]".toList := by decide
  have hvalue : '\r' ∉ "a]".toList ∧ '\n' ∉ "a]".toList := by decide
  have hform : Names ("files".toList ++ '[' :: ("one".toList ++ [']'])) "files".toList
      (some ⟨"one"⟩) := .formed (by decide) rfl
  exact ⟨hkey, hvalue, ((parse_escaped_name hkey hvalue).2 _).2 ⟨_, _, hform, by decide, rfl⟩⟩

/-- The line that writes the key `a]` and the value `x` is no entry, although its only bracket is
escaped. -/
theorem escaped_bracket_not_literal :
    escape "a]".toList ++ '=' :: escape "x".toList = "a\\]=x".toList ∧
      parse "a\\]=x" = .error (.malformedProperties 1 (.unbalancedSelector "a]")) := by
  exact ⟨rfl, rfl⟩

/-! Brackets that are not closed -/

/-- Whether a line has an opening bracket, before anything that can end its key, that no bracket
closes. Escaped characters do not count. -/
def Unclosed (line : List Char) : Prop :=
  ∃ before after, line = before ++ '[' :: after ∧ continues before = false ∧
    ¬HasUnescaped endsKey before ∧ ¬HasUnescaped (· == ']') after

namespace Unclosed

/-- All of the line is its key. -/
theorem splitLine {line : List Char} (h : Unclosed line) : splitLine line = (line, []) := by
  obtain ⟨before, after, rfl, hbefore, hends, hclosed⟩ := h
  obtain ⟨bracketed, hsplit⟩ := (whole_iff.2 hbefore).splitKey_append hends false ('[' :: after)
  have hopen : endsKey '[' = false := by decide
  have hbracketed : bracketedAfter bracketed '[' = true := rfl
  have hrest : splitKey bracketed ('[' :: after) = ('[' :: after, []) := by
    rw [splitKey]
    · simp [hopen, hbracketed, splitKey_of_not_closed rfl hclosed]
    · decide
  rw [Properties.splitLine, hsplit, hrest]
  rfl

variable {l : LogicalLine}

theorem ofLine_eq_ok_iff (h : Unclosed l.text) {p : Property} :
    Property.ofLine l = .ok p ↔ ∃ name, unescape l.text = .ok name ∧
      Names name p.key.toList p.form? ∧ p.key ≠ "" ∧ p.line = l.number ∧ p.value = "" := by
  rw [Properties.ofLine_eq_ok_iff, h.splitLine]
  constructor
  · rintro ⟨name, _, hname, ⟨⟩, hnames, hkey, hline, hvalue⟩
    exact ⟨name, hname, hnames, hkey, hline, hvalue⟩
  · rintro ⟨name, hname, hnames, hkey, hline, hvalue⟩
    exact ⟨name, [], hname, rfl, hnames, hkey, hline, hvalue⟩

theorem open_mem (h : Unclosed l.text) {name : List Char} (hname : unescape l.text = .ok name) :
    '[' ∈ name := by
  obtain ⟨before, after, heq, hbefore, -, -⟩ := h
  exact mem_of_unescape (by decide) (by decide) hname ⟨before, '[', after, heq, rfl, hbefore⟩

theorem exists_ofLine_iff (h : Unclosed l.text) : (∃ p, Property.ofLine l = .ok p) ↔
    ∃ name, unescape l.text = .ok name ∧ ∃ key form?, Names name key form? ∧ key ≠ [] := by
  simp only [h.ofLine_eq_ok_iff]
  constructor
  · rintro ⟨p, name, hname, hnames, hkey, -⟩
    exact ⟨name, hname, p.key.toList, p.form?, hnames, by simpa using hkey⟩
  · rintro ⟨name, hname, key, form?, hnames, hkey⟩
    refine ⟨⟨l.number, String.ofList key, form?, ""⟩, name, hname, ?_, by simpa using hkey, rfl, rfl⟩
    rwa [String.toList_ofList]

/-- The line is an entry unless an escape in it is malformed or, without its escapes, it ends as if
in a form that has no key or is none. -/
theorem ofLine_eq_error_iff (h : Unclosed l.text) :
    (∃ fault, Property.ofLine l = .error fault) ↔ (∃ fault, unescape l.text = .error fault) ∨
      ∃ key form, unescape l.text = .ok (key ++ '[' :: (form ++ [']'])) ∧ '[' ∉ form ∧
        (key = [] ∨ Selector.ofString? (String.ofList form) = none) := by
  rw [exists_error_iff, h.exists_ofLine_iff]
  cases hname : unescape l.text with
  | error fault => simp
  | ok name =>
    -- The bracket belongs to the name, so that the name is not empty and may end in a form.
    have hkey := exists_names_iff (h.open_mem hname)
    simp only [Except.ok.injEq, exists_eq_left', hkey, not_not, reduceCtorEq, exists_false,
      false_or]

end Unclosed

/-- A line with an opening bracket that is not closed is read as an entry with all of the line in its
key and nothing in its value. It is an error, below lines that are entries, if an escape in it is
malformed or if, without its escapes, it ends as if in a form that has no key or is none, and only
then. -/
theorem parse_unclosed {text : String} {above below : List LogicalLine} {l : LogicalLine}
    (hlines : logicalLines 1 none (lines text.toList) = above ++ l :: below)
    (habove : ∀ l' ∈ above, ∃ p, Property.ofLine l' = .ok p) (h : Unclosed l.text) :
    ((∃ fault, parse text = .error (.malformedProperties l.number fault)) ↔
      (∃ fault, unescape l.text = .error fault) ∨
      ∃ key form, unescape l.text = .ok (key ++ '[' :: (form ++ [']'])) ∧ '[' ∉ form ∧
        (key = [] ∨ Selector.ofString? (String.ofList form) = none)) ∧
    ∀ entries, parse text = .ok entries → ∃ p ∈ entries, p.line = l.number ∧ p.value = "" ∧
      ∃ name, unescape l.text = .ok name ∧ Names name p.key.toList p.form? := by
  refine ⟨(exists_parse_eq_error_iff hlines habove).trans h.ofLine_eq_error_iff, ?_⟩
  intro entries hparse
  have hmem : l ∈ logicalLines 1 none (lines text.toList) :=
    hlines ▸ List.mem_append_right _ List.mem_cons_self
  obtain ⟨p, hp, hread⟩ := exists_result_of_mem hparse hmem
  obtain ⟨name, hname, hnames, -, hline, hvalue⟩ :=
    h.ofLine_eq_ok_iff.1 (mapError_eq_ok_iff.1 hread)
  exact ⟨p, hp, hline, hvalue, name, hname, hnames⟩

/-- The bracket that would close the form is escaped, and yet the line ends in it. -/
theorem parse_unclosed_escaped :
    logicalLines 1 none (lines "c=1\na[b = x\\]".toList) =
        [⟨1, "c=1".toList⟩] ++ ⟨2, "a[b = x\\]".toList⟩ :: [] ∧
      (∀ l ∈ [⟨1, "c=1".toList⟩], ∃ p, Property.ofLine l = .ok p) ∧
      Unclosed "a[b = x\\]".toList ∧
      ∃ fault, parse "c=1\na[b = x\\]" = .error (.malformedProperties 2 fault) := by
  have hlines : logicalLines 1 none (lines "c=1\na[b = x\\]".toList) =
      [⟨1, "c=1".toList⟩] ++ ⟨2, "a[b = x\\]".toList⟩ :: [] := rfl
  have habove : ∀ l ∈ [⟨1, "c=1".toList⟩], ∃ p, Property.ofLine l = .ok p := by
    intro l hl
    obtain rfl := List.mem_singleton.1 hl
    exact ⟨⟨1, "c", none, "1"⟩, rfl⟩
  have hclosed : ¬HasUnescaped (· == ']') ['b', ' ', '=', ' ', 'x', '\\', ']'] := by
    simp (disch := decide) [hasUnescaped_cons, hasUnescaped_pair, not_hasUnescaped_nil]
  have hunclosed : Unclosed "a[b = x\\]".toList :=
    ⟨['a'], _, rfl, rfl, not_hasUnescaped (by simp [endsKey, Text.isBlank]), hclosed⟩
  refine ⟨hlines, habove, hunclosed, (parse_unclosed hlines habove hunclosed).1.2 (.inr ?_)⟩
  exact ⟨"a".toList, "b = x".toList, rfl, by decide, .inr rfl⟩

/-- An opening bracket makes the `=` and all that follows it a part of the key. -/
theorem unclosed_form_in_key :
    Unclosed "files[one = x".toList ∧
      parse "files[one = x" = .ok [⟨1, "files[one = x", none, ""⟩] := by
  have hends : ¬HasUnescaped endsKey ['f', 'i', 'l', 'e', 's'] :=
    not_hasUnescaped (by simp [endsKey, Text.isBlank])
  have hclosed : ¬HasUnescaped (· == ']') ['o', 'n', 'e', ' ', '=', ' ', 'x'] :=
    not_hasUnescaped (by simp)
  exact ⟨⟨_, _, rfl, rfl, hends, hclosed⟩, rfl⟩

end Properties

end Localization
