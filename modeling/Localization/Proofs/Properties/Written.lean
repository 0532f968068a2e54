import Localization.Proofs.Properties.Escaped
import Localization.Proofs.Text.Units

namespace Localization

/-- Whether a form is one that reading gives: form characters, and no capitals. -/
structure Selector.Normalized (form : Selector) : Prop where
  nonempty : form.text ≠ ""
  chars : ∀ c ∈ form.text.toList, isFormChar c ∧ c.toLower = c

namespace Properties

/-- UTF-16 units written as escapes, with digits of either case. -/
inductive WritesUnits : List Nat → List Char → Prop
  | nil : WritesUnits [] []
  | cons {unit units a b c d text} (hspelled : [a, b, c, d].map Char.toUpper = Text.hex4 unit)
      (h : WritesUnits units text) :
      WritesUnits (unit :: units) ('\\' :: 'u' :: a :: b :: c :: d :: text)

/-- The ways of writing a character: a letter or digit as it is, any other one behind a backslash,
unless it ends a line, or by its units. -/
inductive WritesChar : Char → List Char → Prop
  | plain {c} (hc : c.isAlphanum) : WritesChar c [c]
  | pair {c} (hc : ¬c.isAlphanum) (hbreak : c ≠ '\r' ∧ c ≠ '\n') : WritesChar c ['\\', c]
  | units {c text} (hc : ¬c.isAlphanum) (h : WritesUnits (Text.utf16Units c) text) :
      WritesChar c text

/-- The ways of writing a text, each of its characters in one of its ways. -/
inductive Writes : List Char → List Char → Prop
  | nil : Writes [] []
  | cons {c s text rest} (hc : WritesChar c text) (h : Writes s rest) :
      Writes (c :: s) (text ++ rest)

/-- What follows the key of an entry. -/
def suffix : Option Selector → List Char
  | none => []
  | some form => '[' :: (form.text.toList ++ [']'])

/-- The ways of writing an entry on a line. -/
inductive WritesEntry (p : Property) : List Char → Prop
  | intro {key value} (hkey : Writes p.key.toList key) (hvalue : Writes p.value.toList value) :
      WritesEntry p (key ++ (suffix p.form? ++ '=' :: value))

/-- Text in which all that is no letter or digit stands behind a backslash, and no line ends. -/
inductive Guarded : List Char → Prop
  | nil : Guarded []
  | plain {c text} (hc : c.isAlphanum) (h : Guarded text) : Guarded (c :: text)
  | pair {c text} (hbreak : c ≠ '\r' ∧ c ≠ '\n') (h : Guarded text) : Guarded ('\\' :: c :: text)

namespace Guarded

variable {text more : List Char}

theorem append (h : Guarded text) (hmore : Guarded more) : Guarded (text ++ more) := by
  induction h with
  | nil => exact hmore
  | plain hc _ ih => exact .plain hc ih
  | pair hbreak _ ih => exact .pair hbreak ih

theorem whole (h : Guarded text) : Whole text := by
  induction h with
  | nil => exact .nil
  | plain hc _ ih => exact .plain (Text.ne_of_isAlphanum hc (by decide)) ih
  | pair _ _ ih => exact .pair ih

theorem no_break (h : Guarded text) : '\r' ∉ text ∧ '\n' ∉ text := by
  induction h with
  | nil => simp
  | plain hc _ ih =>
    have hcr := Text.ne_of_isAlphanum hc (d := '\r') (by decide)
    have hlf := Text.ne_of_isAlphanum hc (d := '\n') (by decide)
    simpa [hcr.symm, hlf.symm] using ih
  | pair hbreak _ ih => simpa [hbreak.1.symm, hbreak.2.symm] using ih

/-- The reader looks for a value's start and for blank lines and comments where a text starts; this
one starts with a letter, a digit or a backslash. -/
theorem start (h : Guarded text) (c : Char) (hc : c ∈ text.head?) :
    Text.isBlank c = false ∧ c ≠ '#' ∧ c ≠ '!' := by
  cases h with
  | nil => simp at hc
  | plain hplain _ =>
    obtain rfl : _ = c := by simpa using hc
    exact ⟨Text.isBlank_of_isAlphanum hplain, Text.ne_of_isAlphanum hplain (by decide),
      Text.ne_of_isAlphanum hplain (by decide)⟩
  | pair _ _ =>
    obtain rfl : '\\' = c := by simpa using hc
    decide

/-- A key goes on through a guarded text, and brackets in it do not count. -/
theorem splitKey_append (h : Guarded text) (bracketed : Bool) (rest : List Char) :
    splitKey bracketed (text ++ rest) =
      (text ++ (splitKey bracketed rest).1, (splitKey bracketed rest).2) := by
  induction h with
  | nil => rfl
  | @plain c text hc _ ih =>
    have hends : endsKey c = false := by
      have heq := Text.ne_of_isAlphanum hc (d := '=') (by decide)
      have hcolon := Text.ne_of_isAlphanum hc (d := ':') (by decide)
      simp [endsKey, Text.isBlank_of_isAlphanum hc, heq, hcolon]
    have hbracketed : bracketedAfter bracketed c = bracketed := by
      have hopen := Text.ne_of_isAlphanum hc (d := '[') (by decide)
      have hclose := Text.ne_of_isAlphanum hc (d := ']') (by decide)
      simp [bracketedAfter, hopen, hclose]
    rw [List.cons_append, splitKey]
    · simp [hends, hbracketed, ih]
    · exact Text.ne_of_isAlphanum hc (by decide)
  | pair _ _ ih => simp [splitKey, ih]

end Guarded

/-- A spelled unit is written with letters and digits. -/
theorem WritesUnits.guarded {units : List Nat} {text : List Char} (h : WritesUnits units text) :
    Guarded text := by
  induction h with
  | nil => exact .nil
  | cons hspelled _ ih =>
    obtain ⟨ha, hb, hc, hd⟩ := Text.hexDigit?_of_spelled hspelled
    exact .pair (by decide) <| .plain (Text.isAlphanum_of_hexDigit? ha) <|
      .plain (Text.isAlphanum_of_hexDigit? hb) <| .plain (Text.isAlphanum_of_hexDigit? hc) <|
        .plain (Text.isAlphanum_of_hexDigit? hd) ih

theorem WritesChar.guarded {c : Char} {text : List Char} (h : WritesChar c text) :
    Guarded text := by
  cases h with
  | plain hc => exact .plain hc .nil
  | pair _ hbreak => exact .pair hbreak .nil
  | units _ h => exact h.guarded

theorem Writes.guarded {s text : List Char} (h : Writes s text) : Guarded text := by
  induction h with
  | nil => exact .nil
  | cons hc _ ih => exact hc.guarded.append ih

/-- Every text can be written, since every character has its units. -/
theorem exists_writes (s : List Char) : ∃ text, Writes s text := by
  have hunits (units : List Nat) : ∃ text, WritesUnits units text := by
    induction units with
    | nil => exact ⟨_, .nil⟩
    | cons unit units ih =>
      obtain ⟨text, htext⟩ := ih
      have hupper : ∀ n < 16, (Text.hexDigit n).toUpper = Text.hexDigit n := by decide
      refine ⟨_, .cons (a := Text.hexDigit (unit / 4096 % 16))
        (b := Text.hexDigit (unit / 256 % 16)) (c := Text.hexDigit (unit / 16 % 16)) (d := Text.hexDigit (unit % 16)) ?_ htext⟩
      simp [Text.hex4, hupper _ (Nat.mod_lt _ (by decide : 0 < 16))]
  induction s with
  | nil => exact ⟨_, .nil⟩
  | cons c s ih =>
    obtain ⟨rest, hrest⟩ := ih
    by_cases hc : c.isAlphanum
    · exact ⟨_, .cons (.plain hc) hrest⟩
    · obtain ⟨text, htext⟩ := hunits (Text.utf16Units c)
      exact ⟨_, .cons (.units hc htext) hrest⟩

end Properties

end Localization
