import Localization.Locale.Parse
import Localization.Properties

namespace Localization.Interface

def propertiesExtension : String := "properties"

/-- A file name without its folders and without all that follows its first dot. -/
def stemOf (fileName : List Char) : List Char :=
  let base := (fileName.reverse.takeWhile fun c => c != '/' && c != '\\').reverse
  base.takeWhile (· != '.')

/-- The locale that a resource of the interface is for by its name: root for `Messages.properties`,
else what follows `Messages_`. -/
def localeOfName (i : Interface) (fileName : String) : Except Error Locale :=
  match i.simpleName.toList.isPrefixOf? (stemOf fileName.toList) with
  | some [] => .ok .root
  | some ('_' :: c :: rest) => Locale.parse (String.ofList (c :: rest))
  | _ => .error (.invalidResourceName i fileName)

/-- The name of the interface's resource for a locale. -/
def resourceName (i : Interface) (locale : Locale) (extension : String) : String :=
  if locale.isRoot then s!"{i.simpleName}.{extension}"
  else s!"{i.simpleName}_{locale}.{extension}"

/-- The bundle of a properties file, for the locale in the file's name. -/
def bundleOfFile (i : Interface) (fileName text : String) : Except Error Bundle := do
  let locale ← i.localeOfName fileName
  Bundle.ofProperties i locale (some fileName) text

end Localization.Interface
