import Localization.Json.Encoding

namespace Localization.Generation

/-- The two kinds of localizable interface. -/
inductive Kind where
  /-- Messages with parameters, whose methods may select a plural form. -/
  | messages
  /-- Fixed values. -/
  | constants
deriving DecidableEq

/-- One method of an interface, as its author declared it. -/
structure Method where
  name : String
  /-- The resource key, if it is not the name. -/
  key? : Option String := none
  /-- The value for when no resource has one. -/
  default? : Option Value := none
  /-- Whether the method takes a count and selects a plural form. -/
  plural : Bool := false
  /-- Whether the key may be missing from every resource. -/
  optional : Bool := false
deriving DecidableEq

/-- The key that resources are searched for. -/
def Method.key (m : Method) : String :=
  m.key?.getD m.name

inductive BoundValue where
  | resolved (binding : Binding)
  | selectable (table : FormTable)
  /-- The method's own default value. -/
  | declared (value : Value)
  | absent
deriving DecidableEq

/-- A method with the key that was searched for and what came of it. -/
structure BoundMethod where
  method : String
  key : String
  value : BoundValue
deriving DecidableEq

/-- An interface bound to one locale's resources. -/
structure Artifact where
  interface : Interface
  kind : Kind
  requested : Locale
  /-- The most specific locale that a bundle comes from. -/
  effective : Locale
  className : String
  methods : List BoundMethod
deriving DecidableEq

namespace Artifact

def method? (a : Artifact) (name : String) : Option BoundMethod :=
  a.methods.find? (·.method = name)

end Artifact

/-- The name of the class for an effective locale: the interface's simple name and the locale, which
for root is called `default`. -/
def className (interface : Interface) (effective : Locale) : String :=
  if effective.isRoot then s!"{interface.simpleName}_default"
  else s!"{interface.simpleName}_{effective}"

namespace Kind

def name : Kind → String
  | messages => "messages"
  | constants => "constants"

def toJson (k : Kind) : Json :=
  .ofString k.name

def ofJson? (v : Json) : Option Kind := do
  match ← v.choice? with
  | "messages" => some messages
  | "constants" => some constants
  | _ => none

end Kind

/-- An object whose member `source` tells the cases apart. -/
def BoundValue.toJson : BoundValue → Json
  | resolved binding => .ofMembers (("source", .ofString "resolved") :: binding.members)
  | selectable table => .ofMembers (("source", .ofString "selectable") :: table.members)
  | declared value => .ofMembers [("source", .ofString "declared"), ("value", value.toJson)]
  | absent => .ofMembers [("source", .ofString "absent")]

/-- An object with the method, the key and the value. -/
def BoundMethod.toJson (m : BoundMethod) : Json :=
  .ofMembers [("method", .ofString m.method), ("key", .ofString m.key), ("value", m.value.toJson)]

/-- An object that tells everything about the artifact. -/
def Artifact.toJson (a : Artifact) : Json :=
  .ofMembers
    [("interface", .ofString a.interface.name), ("kind", a.kind.toJson),
     ("requested", a.requested.toJson), ("effective", a.effective.toJson),
     ("class_name", .ofString a.className), ("methods", .array (a.methods.map BoundMethod.toJson))]

end Localization.Generation
