namespace Localization

/-- A JSON value. Numbers are kept as they are written, objects keep the order and the repetitions
of their members. A string whose escapes hold half of a surrogate pair has no text: it is `none`. -/
inductive Json where
  | null
  | bool (b : Bool)
  | number (numeral : String)
  | string (text? : Option String)
  | array (items : List Json)
  | object (members : List (Option String × Json))
deriving Inhabited

namespace Json

def ofString (text : String) : Json :=
  .string (some text)

/-- The object with these members. -/
def ofMembers (members : List (String × Json)) : Json :=
  .object (members.map fun (name, value) => (some name, value))

/-- The number in decimal digits. -/
def ofNat (n : Nat) : Json :=
  .number (toString n)

def text? : Json → Option String
  | string text? => text?
  | _ => none

def bool? : Json → Option Bool
  | bool b => some b
  | _ => none

/-- The number if it is written with digits alone. -/
def nat? : Json → Option Nat
  | number numeral =>
    if numeral.toList.all Char.isDigit then some (Nat.ofDigitChars 10 numeral.toList 0) else none
  | _ => none

/-- The texts of an array of strings. -/
def texts? : Json → Option (List String)
  | array items => items.mapM text?
  | _ => none

end Json

end Localization
