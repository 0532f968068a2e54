import Localization.Interface
import Localization.Locale.Fault
import Localization.Properties.Fault
import Localization.Selector
import Localization.Value

namespace Localization

/-- A required key that no bundle declares. -/
structure MissingKey where
  key : String
  /-- The locales of the bundles that were consulted, most specific first. -/
  tried : List Locale
  /-- The fallback chain of the requested locale, with or without bundles. -/
  chain : List Locale
deriving DecidableEq

/-- What can be wrong with locale tags, bundles and lookups. -/
inductive Error where
  | malformedLocale (text : String) (fault : Locale.Fault)
  | missingKey (missing : MissingKey)
  /-- One key and form were declared with two values. -/
  | ambiguousSelector (key : String) (form : Selector) (locale : Locale) (first second : Value)
  /-- Two bundles of one interface are for the same locale. -/
  | duplicateLocale (interface : Interface) (locale : Locale)
  /-- A bundle was put into the catalog of another interface. -/
  | foreignBundle (expected found : Interface)
  | invalidSelector (text : String)
  | malformedProperties (line : Nat) (fault : Properties.Fault)
  | invalidResourceName (interface : Interface) (name : String)
deriving DecidableEq

private def listLocales (locales : List Locale) : String :=
  ", ".intercalate (locales.map Locale.name)

/-- Names the locales that were consulted or, if none was, the whole chain. -/
def MissingKey.message (m : MissingKey) : String :=
  let consulted :=
    if m.tried ≠ [] then listLocales m.tried
    else if m.chain ≠ [] then "<no resources> for chain " ++ listLocales m.chain
    else "<no resources>"
  s!"no resource provides key '{m.key}' (tried: {consulted})"

def Error.message : Error → String
  | malformedLocale text fault => s!"malformed locale tag '{text}': {fault.reason}"
  | missingKey missing => missing.message
  | ambiguousSelector key form locale first second =>
    s!"ambiguous selector override for key '{key}' form '{form}' in locale '{locale}': " ++
      s!"'{first}' vs '{second}'"
  | duplicateLocale interface locale =>
    s!"interface '{interface}' has more than one resource for locale '{locale}'"
  | foreignBundle expected found =>
    s!"resource for interface '{found}' cannot be added to interface '{expected}'"
  | invalidSelector text => s!"invalid selector form '{text}'"
  | malformedProperties line fault => s!"parse error at line {line}: {fault.reason}"
  | invalidResourceName interface name =>
    s!"resource name '{name}' does not belong to interface '{interface}'"

end Localization
