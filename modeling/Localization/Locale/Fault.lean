namespace Localization

/-- Why a text is no locale tag. -/
inductive Locale.Fault where
  | unexpectedCharacter (c : Char)
  | emptyLanguage
  | languageNotAlphabetic
deriving DecidableEq

def Locale.Fault.reason : Locale.Fault → String
  | unexpectedCharacter c => "unexpected character '" ++ String.singleton c ++ "'"
  | emptyLanguage => "empty language segment"
  | languageNotAlphabetic => "language subtag must be alphabetic"

end Localization
