import Localization.Error

namespace Localization.DateTime

/-- The shape that a value must have. -/
inductive Shape where
  | pattern | names | day
deriving DecidableEq

/-- Why date and time data cannot be read. -/
inductive Error where
  | resource (error : Localization.Error)
  | wrongShape (key : String) (locale : Locale) (shape : Shape)
deriving DecidableEq

/-- The error of a key that no table holds. -/
def Error.missingKey (missing : MissingKey) : Error :=
  .resource (.missingKey missing)

def Shape.description : Shape → String
  | pattern => "a pattern"
  | names => "a list of names of the expected length"
  | day => "a day index 0-6"

def Error.message : Error → String
  | resource error => error.message
  | wrongShape key locale shape => s!"key '{key}' in locale '{locale}' is not {shape.description}"

end Localization.DateTime
