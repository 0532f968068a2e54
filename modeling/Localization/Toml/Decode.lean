import Localization.Toml.Document

namespace Localization.Toml

def text? : Toml → Option String
  | string text => some text
  | _ => none

/-- The number, if it is no negative one. -/
def nat? : Toml → Option Nat
  | integer n => if 0 ≤ n then some n.toNat else none
  | _ => none

def bool? : Toml → Option Bool
  | boolean b => some b
  | _ => none

/-- The texts of an array of strings. -/
def texts? : Toml → Option (List String)
  | array items => items.mapM text?
  | _ => none

/-- A name out of a fixed choice: a string, or a table whose one member has that name and holds an
empty table or array. -/
def choice? : Toml → Option String
  | string text => some text
  | table [(name, .table [])] | table [(name, .array [])] => some name
  | _ => none

/-- Picks a member's value, the default if it is absent. -/
def member? {α : Type} (name : String) (decode : Toml → Option α) (default : α)
    (members : List (String × Toml)) : Option α :=
  match members.lookup name with
  | none => some default
  | some v => decode v

end Localization.Toml
