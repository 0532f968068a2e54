import Localization.Bundle.Draft
import Localization.Properties.Escape
import Localization.Properties.Line
import Localization.Properties.Split

namespace Localization

structure Property where
  /-- The number of the line that it starts on, counted from 1. -/
  line : Nat
  key : String
  form? : Option Selector
  value : String
deriving DecidableEq

namespace Property

/-- Reads a logical line. Escapes are resolved in the key before a form is split off it, and in the
value. -/
def ofLine (line : Properties.LogicalLine) : Except Properties.Fault Property := do
  let (rawKey, rawValue) := Properties.splitLine line.text
  let name ← Properties.unescape rawKey
  let value ← Properties.unescape rawValue
  let (key, form?) ← Properties.splitForm name
  if key.isEmpty then throw .emptyKey
  return { line := line.number, key := String.ofList key, form?, value := String.ofList value }

/-- The entry as a declaration of a bundle. -/
def declaration (p : Property) : Declaration :=
  match p.form? with
  | some form => .form p.key form (.text p.value)
  | none => .default p.key (.text p.value)

end Property

namespace Properties

/-- The entries of a text in their order, or the error of the first line that is none. -/
def parse (text : String) : Except Error (List Property) :=
  (logicalLines 1 none (lines text.toList)).mapM fun line =>
    (Property.ofLine line).mapError (.malformedProperties line.number)

end Properties

/-- The bundle that properties text declares. -/
def Bundle.ofProperties (interface : Interface) (locale : Locale) (source? : Option String)
    (text : String) : Except Error Bundle := do
  let entries ← Properties.parse text
  Bundle.ofDeclarations interface locale source? (entries.map Property.declaration)

end Localization
