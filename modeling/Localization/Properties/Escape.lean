import Localization.Properties.Fault

namespace Localization.Properties

/-- What a character stands for after a backslash; `u` starts an escape of its own kind. -/
def escaped : Char → Char
  | 't' => '\t'
  | 'n' => '\n'
  | 'r' => '\r'
  | 'f' => '\x0c'
  | c => c

/-- The UTF-16 unit that four characters spell. -/
def unitOf (a b c d : Char) : Except Fault Nat :=
  match Text.readHex4? a b c d with
  | some unit => .ok unit
  | none => .error (.invalidEscape (String.ofList [a, b, c, d]))

/-- The character of a unit that is no first half of a surrogate pair. -/
def ofUnit (unit : Nat) : Except Fault Char :=
  if Text.isLowSurrogate unit then .error (.unpairedSurrogate unit) else .ok (Char.ofNat unit)

/-- The character of two units, the first of which is the first half of a surrogate pair. -/
def ofUnits (high low : Nat) : Except Fault Char :=
  if Text.isLowSurrogate low then .ok (Text.ofSurrogates high low)
  else .error (.unpairedSurrogate high)

/-- The text that a text with escapes stands for. The first half of a surrogate pair needs the
second half in the escape right after its own; a backslash that ends the text stands for nothing. -/
def unescape : List Char → Except Fault (List Char)
  | [] => .ok []
  | '\\' :: rest =>
    match rest with
    | [] => .ok []
    | 'u' :: a :: b :: c :: d :: rest => do
      let unit ← unitOf a b c d
      if Text.isHighSurrogate unit then
        match rest with
        | '\\' :: 'u' :: a :: b :: c :: d :: rest => do
          let low ← unitOf a b c d
          return (← ofUnits unit low) :: (← unescape rest)
        | '\\' :: 'u' :: taken => .error (.invalidEscape (String.ofList taken))
        | _ => .error (.unpairedSurrogate unit)
      else return (← ofUnit unit) :: (← unescape rest)
    | 'u' :: taken => .error (.invalidEscape (String.ofList taken))
    | c :: rest => return escaped c :: (← unescape rest)
  | c :: rest => return c :: (← unescape rest)
termination_by structural s => s

end Localization.Properties
