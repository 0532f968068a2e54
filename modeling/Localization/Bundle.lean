import Localization.Error
import Localization.SortedMap

namespace Localization

/-- All that one bundle declares for a key: a default value, values for selector forms, or both. -/
structure Entry where
  default? : Option Value
  forms : SortedMap Selector Value
  declared : default?.isSome ∨ forms.entries ≠ []
deriving DecidableEq

/-- One locale's entries for an interface. -/
structure Bundle where
  interface : Interface
  locale : Locale
  /-- Where the entries were found, if that is known. -/
  source? : Option String
  entries : SortedMap String Entry
deriving DecidableEq

namespace Bundle

def default? (b : Bundle) (key : String) : Option Value :=
  (b.entries.get? key).bind (·.default?)

/-- The key's value for just this form. -/
def form? (b : Bundle) (key : String) (form : Selector) : Option Value :=
  (b.entries.get? key).bind (·.forms.get? form)

/-- The key's value for this form, or else its default value. -/
def select? (b : Bundle) (key : String) (form : Selector) : Option Value :=
  (b.form? key form).or (b.default? key)

/-- The forms that the key has values for, in order. -/
def forms (b : Bundle) (key : String) : List Selector :=
  match b.entries.get? key with
  | some entry => entry.forms.keys
  | none => []

def contains (b : Bundle) (key : String) : Bool :=
  (b.entries.get? key).isSome

def keys (b : Bundle) : List String :=
  b.entries.keys

def size (b : Bundle) : Nat :=
  b.entries.size

end Bundle

end Localization
