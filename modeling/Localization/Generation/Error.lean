import Localization.Generation.Config

namespace Localization.Generation

/-- Why an interface is not generated. -/
inductive Error where
  | resource (error : Localization.Error)
  /-- The methods of the interface are not known. -/
  | unknownMethods (interface : Interface) (reason : String)
  /-- A method of a constants interface selects a plural form. -/
  | pluralConstant (interface : Interface) (method : String)
  /-- The artifact could not be delivered. -/
  | notEmitted (className : String) (reason : String)
  | invalidConfig (faults : List Config.Fault)
  /-- A folder cannot be listed or a file in it cannot be read as text. -/
  | unreadable (path : String)
deriving DecidableEq

/-- The error of a key that no resource has. -/
def Error.missingKey (missing : MissingKey) : Error :=
  .resource (.missingKey missing)

def Error.message : Error → String
  | resource error => error.message
  | unknownMethods interface reason => s!"interface '{interface}': {reason}"
  | pluralConstant interface method =>
    s!"interface '{interface}' method '{method}': plural selection requires a Messages interface"
  | notEmitted className reason => s!"failed to emit '{className}': {reason}"
  | invalidConfig faults =>
    "validation errors: " ++ "; ".intercalate (faults.map Config.Fault.message)
  | unreadable path => s!"I/O error at {path}"

end Localization.Generation
