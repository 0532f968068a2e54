import Localization.Toml

namespace Localization.Toml

/-- What a name in a document stands for while the document is read. -/
inductive Node where
  /-- A value, which nothing can be added to. -/
  | value (v : Toml)
  /-- A table. It is implicit if no header of its own made it, and dotted if a dotted key did. -/
  | table (implicit dotted : Bool) (members : List (String × Node))
  /-- An array of tables, the last one first. -/
  | tables (items : List (List (String × Node)))

/-- A table while the document is read. -/
structure Section where
  implicit : Bool := false
  dotted : Bool := false
  members : List (String × Node) := []

namespace Section

/-- The table as what a name stands for. -/
def node (s : Section) : Node :=
  .table s.implicit s.dotted s.members

def get? (s : Section) (name : String) : Option Node :=
  s.members.lookup name

def erase (s : Section) (name : String) : Section :=
  { s with members := s.members.filter (·.1 != name) }

/-- The table with a name standing for something else. -/
def set (s : Section) (name : String) (node : Node) : Section :=
  { s with members := (s.erase name).members ++ [(name, node)] }

/-- Changes the table at the end of a path. Tables that the path lacks are made on the way; of an
array of tables the path means the last one. A dotted key cannot pass through a table that a header
made. -/
def modify (dotted : Bool) (change : Section → Option Section) :
    List String → Section → Option Section
  | [], s => change s
  | name :: path, s =>
    match s.get? name with
    | none => do
      let child ← modify dotted change path { implicit := true, dotted }
      return s.set name child.node
    | some (.value _) | some (.tables []) => none
    | some (.tables (last :: others)) => do
      let child ← modify dotted change path { members := last }
      return s.set name (.tables (child.members :: others))
    | some (.table implicit isDotted members) => do
      if dotted && !implicit then none
      let child ← modify dotted change path { implicit, dotted := isDotted, members }
      return s.set name child.node

/-- The table at the end of a path, an empty one if there is none yet. -/
def descend : List String → Section → Section
  | [], s => s
  | name :: path, s =>
    match s.get? name with
    | some (.tables (last :: _)) => descend path { members := last }
    | some (.table implicit dotted members) => descend path { implicit, dotted, members }
    | _ => {}

/-- Adds a value under a key, which must be new. A key with several parts makes dotted tables and
adds to such tables only. -/
def add (s : Section) (key : List String) (v : Toml) : Option Section := do
  let name ← key.getLast?
  let path := key.dropLast
  let put (t : Section) : Option Section :=
    if t.dotted == path.isEmpty || (t.get? name).isSome then none else some (t.set name (.value v))
  modify true put path s

end Section

mutual

/-- The value that a name stands for in the end. -/
def Node.toToml : Node → Toml
  | .value v => v
  | .table _ _ members => .table (toMembers members)
  | .tables items => .array (toTables items).reverse

/-- The members of a table in the end. -/
def toMembers : List (String × Node) → List (String × Toml)
  | [] => []
  | (name, node) :: rest => (name, node.toToml) :: toMembers rest

/-- The tables of an array in the end, still the last one first. -/
def toTables : List (List (String × Node)) → List Toml
  | [] => []
  | members :: rest => .table (toMembers members) :: toTables rest

end

end Localization.Toml
