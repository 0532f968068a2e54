import Localization.Json
import Localization.Locale.Parse
import Localization.Lookup

namespace Localization

/-- Picks a member's value, the default if it is absent. A name that occurs twice is an error. -/
def Json.member? {α : Type} (name : String) (decode : Json → Option α) (default : α)
    (members : List (Option String × Json)) : Option α :=
  match members.filter (·.1 = some name) with
  | [] => some default
  | [(_, v)] => decode v
  | _ => none

/-- A name out of a fixed choice: a string, or an object whose one member has that name and the
value null. -/
def Json.choice? : Json → Option String
  | .string text? => text?
  | .object [(name?, .null)] => name?
  | _ => none

/-- A locale is a string in its written form. -/
def Locale.toJson (t : Locale) : Json :=
  .ofString t.name

def Locale.ofJson? (v : Json) : Option Locale := do
  (Locale.parse (← v.text?)).toOption

/-- A value is a string or an array of strings. -/
def Value.toJson : Value → Json
  | text t => .ofString t
  | list items => .array (items.map .ofString)

def Value.ofJson? : Json → Option Value
  | .string text? => text?.map .text
  | v => v.texts?.map .list

namespace Fallback

def name : Fallback → String
  | sameLocaleDefault => "same_locale_default"
  | acrossChainFirst => "across_chain_first"

def ofName? (name : String) : Option Fallback :=
  if name = "same_locale_default" then some sameLocaleDefault
  else if name = "across_chain_first" then some acrossChainFirst
  else none

def toJson (f : Fallback) : Json :=
  .ofString f.name

def ofJson? (v : Json) : Option Fallback := do
  ofName? (← v.choice?)

end Fallback

namespace LookupSettings

def toJson (c : LookupSettings) : Json :=
  .ofMembers [("selector_fallback", c.selectorFallback.toJson)]

/-- Reads the setting by its name; if it is missing it has its default. -/
def ofMembers? (members : List (Option String × Json)) : Option LookupSettings := do
  if members.any (·.1.isNone) then none
  return {
    selectorFallback :=
      ← Json.member? "selector_fallback" Fallback.ofJson? .sameLocaleDefault members }

/-- Reads an object, whose other members do not count, or an array of the one setting, which may be
missing. -/
def ofJson? : Json → Option LookupSettings
  | .object members => ofMembers? members
  | .array [] => some {}
  | .array [v] => ofMembers? [(some "selector_fallback", v)]
  | _ => none

end LookupSettings

/-- A binding's members in an object. -/
def Binding.members (b : Binding) : List (String × Json) :=
  [("value", b.value.toJson), ("locale", b.locale.toJson),
   ("form", (b.form?.map fun form => Json.ofString form.text).getD .null)]

/-- An object with the value, its locale and its form. -/
def Binding.toJson (b : Binding) : Json :=
  .ofMembers b.members

/-- A form table's members in an object. -/
def FormTable.members (t : FormTable) : List (String × Json) :=
  [("key", .ofString t.key), ("default", (t.default?.map Binding.toJson).getD .null),
   ("forms", .ofMembers (t.forms.entries.map fun (form, b) => (form.text, b.toJson)))]

/-- An object with the key, its default value and its forms. -/
def FormTable.toJson (t : FormTable) : Json :=
  .ofMembers t.members

end Localization
