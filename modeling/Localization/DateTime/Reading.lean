import Localization.DateTime.Error
import Localization.Lookup

namespace Localization.DateTime

/-- The value of a key if it has this shape, or else the error that says it has not. -/
def ofShape {α : Type} (r : Resolution) (key : String) (shape : Shape) (read : Value → Option α) :
    Except Error α := do
  let found ← (r.lookup .sameLocaleDefault key none).mapError .missingKey
  match read found.value with
  | some a => .ok a
  | none => .error (.wrongShape key found.locale shape)

def patternOf (r : Resolution) (key : String) : Except Error String :=
  ofShape r key .pattern Value.text?

/-- The items of a list, if there are just so many. -/
def ofCount? (count : Nat) (items : List String) : Option (Vector String count) :=
  if h : items.length = count then some ⟨items.toArray, h⟩ else none

def namesOf (r : Resolution) (key : String) {count : Nat} : Except Error (Vector String count) :=
  ofShape r key .names fun value => value.list?.bind (ofCount? count)

/-- Reads a day of the week: a decimal numeral below 7, perhaps with a plus sign and with blanks
around it. -/
def readDay? (text : String) : Option (Fin 7) :=
  let numeral := Text.trim text.toList
  let digits := if numeral.head? = some '+' then numeral.tail else numeral
  let day := Nat.ofDigitChars 10 digits 0
  if h : digits ≠ [] ∧ digits.all Char.isDigit ∧ day < 7 then some ⟨day, h.2.2⟩ else none

/-- A text that is a day of the week. -/
def dayOf (r : Resolution) (key : String) : Except Error (Fin 7) :=
  ofShape r key .day fun value => value.text?.bind readDay?

end Localization.DateTime
