import Localization.Text.Blank

namespace Localization

/-- What a resource declares: a single text or an ordered list of names. -/
inductive Value where
  | text (text : String)
  | list (items : List String)
deriving DecidableEq, Inhabited

namespace Value

def text? : Value → Option String
  | text t => some t
  | list _ => none

def list? : Value → Option (List String)
  | text _ => none
  | list items => some items

/-- The pieces between the commas. A backslash and the character after it belong together: such a
comma does not separate and loses its backslash, any other character keeps it. -/
def splitCommas : List Char → List (List Char)
  | [] => [[]]
  | ',' :: rest => [] :: splitCommas rest
  | '\\' :: ',' :: rest => (splitCommas rest).modifyHead (',' :: ·)
  | '\\' :: c :: rest => (splitCommas rest).modifyHead ('\\' :: c :: ·)
  | c :: rest => (splitCommas rest).modifyHead (c :: ·)

/-- The value as a list: a text is split at its commas, and blanks around the items are dropped.
The empty text is the empty list. -/
def toList : Value → List String
  | list items => items
  | text t =>
    if t = "" then [] else (splitCommas t.toList).map fun item => String.ofList (Text.trim item)

/-- The value in one line; the items of a list are set apart by commas. -/
def display : Value → String
  | text t => t
  | list items => ", ".intercalate items

instance : ToString Value := ⟨display⟩

end Value

end Localization
