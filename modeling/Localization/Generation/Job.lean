import Localization.Generation.Artifact
import Localization.Generation.Error
import Localization.ResourceName

namespace Localization.Generation

/-- An interface with all resources that were found for it. -/
structure Job where
  kind : Kind
  catalog : Catalog

namespace Job

def interface (j : Job) : Interface :=
  j.catalog.interface

end Job

/-- What a folder holds under a name. -/
inductive FileContent where
  | text (text : String)
  /-- A folder, or bytes that are no text. -/
  | unreadable
deriving DecidableEq

/-- A folder with files, in the order in which it lists them. -/
structure Directory where
  /-- What comes before the name of a file in its path. -/
  location : String
  files : List (String × FileContent)
deriving DecidableEq

/-- The parts of a file name before and after its last dot. A dot in front does not count. -/
def splitExtension (fileName : String) : String × Option String :=
  match Text.splitLast? '.' fileName.toList with
  | some (c :: stem, extension) => (String.ofList (c :: stem), some (String.ofList extension))
  | _ => (fileName, none)

/-- Whether a file is a properties file of the interface by its name: the simple name, with nothing
or an underscore and more after it. -/
def isResourceOf (interface : Interface) (fileName : String) : Bool :=
  match splitExtension fileName with
  | (stem, some extension) =>
    extension == Interface.propertiesExtension &&
      match interface.simpleName.toList.isPrefixOf? stem.toList with
      | some [] | some ('_' :: _) => true
      | _ => false
  | (_, none) => false

namespace Directory

/-- The interface's files, in the order of their names. -/
def resourcesOf (d : Directory) (interface : Interface) : List (String × FileContent) :=
  (d.files.filter fun (name, _) => isResourceOf interface name).mergeSort fun a b => a.1 ≤ b.1

def addFile (d : Directory) (catalog : Catalog) : String × FileContent → Except Error Catalog
  | (name, .unreadable) => .error (.unreadable (d.location ++ name))
  | (name, .text text) =>
    (do catalog.insert (← catalog.interface.bundleOfFile name text) : Except _ _).mapError .resource

/-- The catalog of the interface's files. The first file by name that cannot be used is the error;
files of other interfaces do not count. -/
def catalog (d : Directory) (interface : Interface) : Except Error Catalog :=
  (d.resourcesOf interface).foldlM d.addFile (.empty interface)

end Directory

/-- The job of an interface whose resources are in a folder. -/
def Job.ofDirectory (kind : Kind) (interface : Interface) (d : Directory) : Except Error Job := do
  return { kind, catalog := ← d.catalog interface }

end Localization.Generation
