import Localization.Error

namespace Localization

/-- Reads a form, or reports the text that is none. -/
def Selector.parse (text : String) : Except Error Selector :=
  match ofString? text with
  | some form => .ok form
  | none => .error (.invalidSelector text)

end Localization
