import Localization.Text.Hex

namespace Localization.Properties

/-- Why a logical line of properties text is no entry. -/
inductive Fault where
  /-- A `\u` that four hexadecimal digits do not follow; `taken` is what stood there instead. -/
  | invalidEscape (taken : String)
  /-- A `\u` escape that is half of a surrogate pair without its other half. -/
  | unpairedSurrogate (unit : Nat)
  | unbalancedSelector (key : String)
  | invalidSelector (key : String)
  | emptyKey
deriving DecidableEq

def Fault.reason : Fault → String
  | invalidEscape taken => "invalid unicode escape '\\u" ++ taken ++ "'"
  | unpairedSurrogate unit =>
    "unpaired surrogate in unicode escape '\\u" ++ String.ofList (Text.hex4 unit) ++ "'"
  | unbalancedSelector key => "unbalanced selector suffix in '" ++ key ++ "'"
  | invalidSelector key => "invalid selector form in '" ++ key ++ "'"
  | emptyKey => "empty key"

end Localization.Properties
