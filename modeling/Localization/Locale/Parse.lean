import Localization.Error

namespace Localization.Locale

/-- Four letters. -/
def isScript (subtag : List Char) : Bool :=
  subtag.length == 4 && subtag.all Char.isAlpha

/-- Two letters or three digits. -/
def isRegion (subtag : List Char) : Bool :=
  (subtag.length == 2 && subtag.all Char.isAlpha) || (subtag.length == 3 && subtag.all Char.isDigit)

/-- The first letter in upper case and the others in lower case. -/
def titlecase (subtag : List Char) : List Char :=
  (subtag.map Char.toLower).modifyHead Char.toUpper

/-- The characters between the segments of a tag. -/
def isSeparator (c : Char) : Bool :=
  c == '_' || c == '-'

/-- The characters that a tag is made of. -/
def isTagChar (c : Char) : Bool :=
  c.isAlphanum || isSeparator c

/-- Whether a text names the root locale: no text, `root` or `default`, in either case. -/
def isRootName (text : List Char) : Bool :=
  let name := text.map Char.toLower
  text.isEmpty || name == "root".toList || name == "default".toList

/-- Takes the first subtag if it passes the test. -/
def takeSubtag (test : List Char → Bool) : List (List Char) → List Char × List (List Char)
  | [] => ([], [])
  | s :: rest => if test s then (s, rest) else ([], s :: rest)

/-- The locale of a language and the subtags after it: a script if one comes next, then a region if
one comes next; what is left is the variant and keeps its spelling. -/
def ofSubtags (language : List Char) (subtags : List (List Char)) : Locale :=
  let (script, afterScript) := takeSubtag isScript subtags
  let (region, afterRegion) := takeSubtag isRegion afterScript
  { language := String.ofList (language.map Char.toLower)
    script := String.ofList (titlecase script)
    region := String.ofList (region.map Char.toUpper)
    variant := String.ofList (['_'].intercalate afterRegion) }

/-- Reads a tag without blanks around it. Empty segments after the language do not count. -/
def read (text : List Char) : Except Fault Locale :=
  if isRootName text then .ok root
  else
    match text.find? fun c => !isTagChar c with
    | some c => .error (.unexpectedCharacter c)
    | none =>
      match text.splitOnP isSeparator with
      | [] => .error .emptyLanguage
      | language :: segments =>
        if language.isEmpty then .error .emptyLanguage
        else if !language.all Char.isAlpha then .error .languageNotAlphabetic
        else .ok (ofSubtags language (segments.filter (!·.isEmpty)))

/-- Reads a tag with `_` or `-` between its segments, in any case and with blanks around it. -/
def parse (text : String) : Except Error Locale :=
  (read (Text.trim text.toList)).mapError (.malformedLocale text)

end Localization.Locale
