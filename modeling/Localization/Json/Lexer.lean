import Localization.Json.Token

namespace Localization.Json

/-- Where the reader of a JSON text stands. -/
inductive Mode where
  | between
  /-- In a number or a name, whose characters are kept last one first. -/
  | word (read : List Char)
  /-- In a string, whose code points and surrogate halves are kept last one first. -/
  | text (units : List Nat)
  /-- After a backslash in a string. -/
  | escape (units : List Nat)
  /-- In a `\u` escape that lacks this many digits. -/
  | unit (units : List Nat) (value missing : Nat)

/-- The characters of code points, in which surrogate halves stand in pairs. -/
def decodeUnits : List Nat → Option (List Char)
  | [] => some []
  | u :: rest =>
    if Text.isHighSurrogate u then
      match rest with
      | low :: rest =>
        if Text.isLowSurrogate low then (decodeUnits rest).map (Text.ofSurrogates u low :: ·)
        else none
      | [] => none
    else if Text.isLowSurrogate u then none
    else (decodeUnits rest).map (Char.ofNat u :: ·)

/-- The string of code points kept last one first. -/
def ofUnits (units : List Nat) : Option String :=
  (decodeUnits units.reverse).map String.ofList

/-- The digits of a numeral's exponent, after its sign. -/
private def isExponent (s : List Char) : Bool :=
  !s.isEmpty && s.all Char.isDigit

/-- What may follow the fraction of a numeral. -/
private def isAfterFraction : List Char → Bool
  | [] => true
  | c :: rest =>
    (c == 'e' || c == 'E') &&
      match rest with
      | sign :: digits =>
        if sign == '+' || sign == '-' then isExponent digits else isExponent (sign :: digits)
      | [] => false

/-- What may follow the whole part of a numeral. -/
private def isAfterWhole : List Char → Bool
  | '.' :: rest =>
    (rest.head?.any Char.isDigit) && isAfterFraction (rest.dropWhile Char.isDigit)
  | s => isAfterFraction s

/-- A numeral: perhaps a minus, a whole part without leading zeros, perhaps a fraction and an
exponent. -/
def isNumeral (s : List Char) : Bool :=
  match if s.head? = some '-' then s.tail else s with
  | '0' :: rest => isAfterWhole rest
  | c :: rest => c.isDigit && isAfterWhole (rest.dropWhile Char.isDigit)
  | [] => false

/-- The token of a number or a name. -/
def wordToken? (word : List Char) : Option Token :=
  if word = "null".toList then some .null
  else if word = "true".toList then some (.bool true)
  else if word = "false".toList then some (.bool false)
  else if isNumeral word then some (.number (String.ofList word))
  else none

/-- Whether a character may stand in a number or a name. -/
def isWordChar (c : Char) : Bool :=
  c.isAlphanum || c == '+' || c == '-' || c == '.'

theorem isWordChar_of_isDigit {c : Char} (h : c.isDigit) : isWordChar c := by
  simp [isWordChar, Char.isAlphanum, h]

theorem all_isWordChar_of_dropWhile {s : List Char}
    (h : (s.dropWhile Char.isDigit).all isWordChar) : s.all isWordChar := by
  induction s with
  | nil => rfl
  | cons c s ih =>
    by_cases hc : c.isDigit
    · rw [List.dropWhile_cons_of_pos hc] at h
      rw [List.all_cons, isWordChar_of_isDigit hc, ih h]
      rfl
    · rwa [List.dropWhile_cons_of_neg hc] at h

private theorem all_isWordChar_of_isExponent {s : List Char} (h : isExponent s) :
    s.all isWordChar := by
  rw [isExponent, Bool.and_eq_true, List.all_eq_true] at h
  exact List.all_eq_true.2 fun c hc => isWordChar_of_isDigit (h.2 c hc)

private theorem all_isWordChar_of_isAfterFraction {s : List Char} (h : isAfterFraction s) :
    s.all isWordChar := by
  have hletter {c : Char} (hc : (c == 'e' || c == 'E') = true) : isWordChar c := by
    obtain rfl | rfl : c = 'e' ∨ c = 'E' := by simpa using hc
    · rfl
    · rfl
  have hsign {c : Char} (hc : (c == '+' || c == '-') = true) : isWordChar c := by
    obtain rfl | rfl : c = '+' ∨ c = '-' := by simpa using hc
    · rfl
    · rfl
  match s with
  | [] => rfl
  | [_] => simp [isAfterFraction] at h
  | c :: sign :: digits =>
    simp only [isAfterFraction, Bool.and_eq_true] at h
    obtain ⟨hc, hrest⟩ := h
    rw [List.all_cons, hletter hc, Bool.true_and]
    split at hrest
    · rename_i hs
      rw [List.all_cons, hsign hs, all_isWordChar_of_isExponent hrest]
      rfl
    · exact all_isWordChar_of_isExponent hrest

private theorem all_isWordChar_of_isAfterWhole {s : List Char} (h : isAfterWhole s) :
    s.all isWordChar := by
  unfold isAfterWhole at h
  split at h
  · rw [Bool.and_eq_true] at h
    rw [List.all_cons, all_isWordChar_of_dropWhile (all_isWordChar_of_isAfterFraction h.2)]
    rfl
  · exact all_isWordChar_of_isAfterFraction h

/-- Every character of a numeral may stand in a word. -/
theorem all_isWordChar_of_isNumeral {s : List Char} (h : isNumeral s) : s.all isWordChar := by
  have hunsigned : (if s.head? = some '-' then s.tail else s).all isWordChar := by
    unfold isNumeral at h
    split at h
    · rename_i hdigits
      rw [hdigits, List.all_cons, all_isWordChar_of_isAfterWhole h]
      rfl
    · rename_i hdigits
      rw [Bool.and_eq_true] at h
      rw [hdigits, List.all_cons, isWordChar_of_isDigit h.1,
        all_isWordChar_of_dropWhile (all_isWordChar_of_isAfterWhole h.2)]
      rfl
    · cases h
  split at hunsigned
  · rename_i hminus
    obtain ⟨rest, rfl⟩ := List.head?_eq_some_iff.1 hminus
    exact hunsigned
  · exact hunsigned

/-- Reads a character outside strings and words. -/
def startToken (c : Char) : Option (List Token × Mode) :=
  if c == ' ' || c == '\t' || c == '\n' || c == '\r' then some ([], .between)
  else if c == '[' then some ([.openArray], .between)
  else if c == ']' then some ([.closeArray], .between)
  else if c == '\x7b' then some ([.openObject], .between)
  else if c == '\x7d' then some ([.closeObject], .between)
  else if c == ',' then some ([.comma], .between)
  else if c == ':' then some ([.colon], .between)
  else if c == '"' then some ([], .text [])
  else if isWordChar c then some ([], .word [c])
  else none

/-- What a character after a backslash stands for, other than `u`. -/
def unescape? : Char → Option Char
  | '"' => some '"'
  | '\\' => some '\\'
  | '/' => some '/'
  | 'b' => some '\x08'
  | 'f' => some '\x0c'
  | 'n' => some '\n'
  | 'r' => some '\r'
  | 't' => some '\t'
  | _ => none

/-- Reads a character: the tokens it completes, and where it leaves the reader. -/
def Mode.step : Mode → Char → Option (List Token × Mode)
  | between, c => startToken c
  | word read, c =>
    if isWordChar c then some ([], .word (c :: read))
    else do
      let token ← wordToken? read.reverse
      let (tokens, mode) ← startToken c
      return (token :: tokens, mode)
  | text units, c =>
    if c == '"' then some ([.string (ofUnits units)], .between)
    else if c == '\\' then some ([], .escape units)
    else if c.toNat < 32 then none
    else some ([], .text (c.toNat :: units))
  | escape units, c =>
    if c == 'u' then some ([], .unit units 0 4)
    else (unescape? c).map fun c => ([], .text (c.toNat :: units))
  | unit units value missing, c => do
    let digit ← Text.hexDigit? c
    let value := value * 16 + digit
    if missing ≤ 1 then return ([], .text (value :: units))
    else return ([], .unit units value (missing - 1))

/-- The tokens of the text that a reader still has before it. -/
def lex : Mode → List Char → Option (List Token)
  | .between, [] => some []
  | .word read, [] => (wordToken? read.reverse).map ([·])
  | _, [] => none
  | mode, c :: rest => do
    let (tokens, mode) ← mode.step c
    return tokens ++ (← lex mode rest)

end Localization.Json
