import Localization.Properties.Fault
import Localization.Selector
import Localization.Text.Pieces

namespace Localization.Properties

/-- Whether a character ends a key. -/
def endsKey (c : Char) : Bool :=
  c == '=' || c == ':' || Text.isBlank c

/-- Whether the text after a character stands inside brackets, given whether the character does. -/
def bracketedAfter (bracketed : Bool) (c : Char) : Bool :=
  if c == '[' then true else if c == ']' then false else bracketed

/-- The key of a logical line and what follows it. The key ends at the first `=`, `:` or blank that
no backslash precedes and that stands outside brackets. -/
def splitKey (bracketed : Bool) : List Char → List Char × List Char
  | [] => ([], [])
  | '\\' :: rest =>
    match rest with
    | [] => (['\\'], [])
    | c :: rest =>
      let (key, after) := splitKey bracketed rest
      ('\\' :: c :: key, after)
  | c :: rest =>
    if !bracketed && endsKey c then ([], c :: rest)
    else
      let (key, after) := splitKey (bracketedAfter bracketed c) rest
      (c :: key, after)
termination_by structural s => s

/-- What follows a key without the separator, which is a blank, an `=` or a `:`, and without the
blanks around it. -/
def dropSeparator (s : List Char) : List Char :=
  match Text.trimLeft s with
  | [] => []
  | c :: rest => if c == '=' || c == ':' then Text.trimLeft rest else c :: rest

/-- The key and the value of a logical line, both with their escapes. -/
def splitLine (line : List Char) : List Char × List Char :=
  let (key, after) := splitKey false line
  (key, dropSeparator after)

/-- The key and the form of a name `key[form]`; a name that ends in no bracket has no form. -/
def splitForm (name : List Char) : Except Fault (List Char × Option Selector) :=
  if name.getLast? ≠ some ']' then .ok (name, none)
  else
    match Text.splitLast? '[' name.dropLast with
    | none => .error (.unbalancedSelector (String.ofList name))
    | some (key, form) =>
      match Selector.ofString? (String.ofList form) with
      | none => .error (.invalidSelector (String.ofList name))
      | some form => .ok (key, some form)

end Localization.Properties
