import Localization.Toml.Scalar
import Localization.Toml.Section

namespace Localization.Toml

namespace Reader

/-- The items of an array, which may be on several lines and end in a comma. -/
def arrayItems (item : Reader Toml) : Reader (List Toml) := do
  let padded := do
    filler
    let v ← item
    filler
    return v
  let items ← (do
    let items ← separated padded (exactly ",")
    let _ ← optional (exactly ",")
    return items) <|> return []
  filler
  return items

/-- The members of an inline table, which are on one line. -/
def inlineMembers (item : Reader Toml) : Reader (List (List String × Toml)) := do
  let member := do
    let name ← key
    exactly "="
    spaces
    let v ← item
    spaces
    return (name, v)
  let members ← (separated member (exactly ",")) <|> return []
  spaces
  return members

/-- A value, inside of which this many arrays and inline tables may be nested. -/
def value : Nat → Reader Toml
  | 0 => scalar
  | depth + 1 =>
    (do
      exactly "["
      let items ← arrayItems (value depth)
      exactly "]"
      return .array items) <|>
    (do
      exactly "\x7b"
      let members ← inlineMembers (value depth)
      exactly "\x7d"
      let table ← (members.foldlM (fun s (name, v) => s.add name v) {} : Option Section)
      return table.node.toToml) <|>
    scalar

/-- One statement of a document. -/
inductive Statement where
  | member (key : List String) (v : Toml)
  | tableHeader (path : List String)
  | arrayHeader (path : List String)

/-- A header or a member, with the rest of its line. -/
def statement : Reader Statement := do
  let s ← (do
      exactly "[["
      let path ← key
      exactly "]]"
      return .arrayHeader path) <|>
    (do
      exactly "["
      let path ← key
      exactly "]"
      return .tableHeader path) <|>
    (do
      let name ← key
      exactly "="
      spaces
      let v ← value (nestingLimit - 1)
      return .member name v)
  lineEnd
  return s

/-- All statements of a document, between blank lines and comments. A byte order mark may stand in
front. -/
def statements : Reader (List Statement) := do
  let _ ← optional (exactly "\uFEFF")
  let lines ← many do
    spaces
    (some <$> statement) <|> (do newline; return none) <|>
      (do comment; newline <|> atEnd; return none)
  spaces
  atEnd
  return lines.filterMap id

end Reader

/-- A document that is read up to some statement: the tables that are complete, and the one that the
last header opened, with its path and whether it is an item of an array. -/
structure Document where
  root : Section := {}
  current : Section := {}
  path : List String := []
  isItem : Bool := false

namespace Document

/-- Puts the open table into its place. -/
def close (d : Document) : Option Section :=
  match d.path.getLast? with
  | none => some d.current
  | some name =>
    let put (parent : Section) : Option Section :=
      match d.isItem, parent.get? name with
      | true, none => some (parent.set name (.tables [d.current.members]))
      | true, some (.tables items) => some (parent.set name (.tables (d.current.members :: items)))
      | false, none => some (parent.set name d.current.node)
      | _, _ => none
    Section.modify false put d.path.dropLast d.root

/-- Opens the table of a header. Such a table is new, or so far only made on the way to others. -/
def openTable (root : Section) (path : List String) : Option Document := do
  let name ← path.getLast?
  let take (parent : Section) : Option Section :=
    match parent.get? name with
    | none => some parent
    | some (.table true false _) => some (parent.erase name)
    | _ => none
  let root' ← Section.modify false take path.dropLast root
  let current : Section :=
    match (Section.descend path.dropLast root).get? name with
    | some (.table _ _ members) => { members }
    | _ => {}
  return { root := root', current, path }

/-- Opens one more table of an array of tables. -/
def openItem (root : Section) (path : List String) : Option Document := do
  let name ← path.getLast?
  let check (parent : Section) : Option Section :=
    match parent.get? name with
    | none | some (.tables _) => some parent
    | _ => none
  return { root := ← Section.modify false check path.dropLast root, path, isItem := true }

def step (d : Document) : Reader.Statement → Option Document
  | .member key v => do return { d with current := ← d.current.add key v }
  | .tableHeader path => do openTable (← d.close) path
  | .arrayHeader path => do openItem (← d.close) path

end Document

/-- Reads a document as its members. -/
def parse? (text : String) : Option (List (String × Toml)) := do
  let (statements, _) ← Reader.statements.run text.toList
  let root ← (← statements.foldlM Document.step {}).close
  return toMembers root.members

end Localization.Toml
