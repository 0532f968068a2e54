import Localization.Locale

namespace Localization

inductive PluralCategory where
  | zero | one | two | few | many | other
deriving DecidableEq

/-- The grammatical genders a message may select on. -/
inductive Gender where
  | male | female | other
deriving DecidableEq

/-- Maps a count to its plural category. -/
inductive PluralRule where
  | english | russian | arabic | french | cjk | polish
  /-- A rule of the caller's own; unlike the others it sees the sign of the count. -/
  | custom (categorize : Int → PluralCategory)

namespace PluralCategory

def name : PluralCategory → String
  | zero => "zero"
  | one => "one"
  | two => "two"
  | few => "few"
  | many => "many"
  | other => "other"

end PluralCategory

namespace Gender

def name : Gender → String
  | male => "male"
  | female => "female"
  | other => "other"

end Gender

namespace PluralRule

/-- One is singular, all else is not. -/
def englishCategory (n : Nat) : PluralCategory :=
  if n = 1 then .one else .other

/-- Zero and one are singular. -/
def frenchCategory (n : Nat) : PluralCategory :=
  if n ≤ 1 then .one else .other

/-- The last digit decides, save for the numbers that end in 11 to 14. -/
def russianCategory (n : Nat) : PluralCategory :=
  if n % 10 = 1 ∧ n % 100 ≠ 11 then .one
  else if (2 ≤ n % 10 ∧ n % 10 ≤ 4) ∧ ¬(12 ≤ n % 100 ∧ n % 100 ≤ 14) then .few
  else if n % 10 = 0 ∨ (5 ≤ n % 10 ∧ n % 10 ≤ 9) ∨ (11 ≤ n % 100 ∧ n % 100 ≤ 14) then .many
  else .other

/-- As in Russian, except that only 1 itself is singular. -/
def polishCategory (n : Nat) : PluralCategory :=
  if n = 1 then .one
  else if (2 ≤ n % 10 ∧ n % 10 ≤ 4) ∧ ¬(12 ≤ n % 100 ∧ n % 100 ≤ 14) then .few
  else .many

/-- Zero, one and two have categories of their own; the last two digits decide the rest. -/
def arabicCategory (n : Nat) : PluralCategory :=
  if n = 0 then .zero
  else if n = 1 then .one
  else if n = 2 then .two
  else if 3 ≤ n % 100 ∧ n % 100 ≤ 10 then .few
  else if 11 ≤ n % 100 ∧ n % 100 ≤ 99 then .many
  else .other

/-- The category of a count. The built-in rules look at its absolute value. -/
def categorize : PluralRule → Int → PluralCategory
  | english, count => englishCategory count.natAbs
  | russian, count => russianCategory count.natAbs
  | arabic, count => arabicCategory count.natAbs
  | french, count => frenchCategory count.natAbs
  | cjk, _ => .other
  | polish, count => polishCategory count.natAbs
  | custom f, count => f count

/-- The rule of a language, whose code may be written in either case; languages not listed follow
the English rule. -/
def ofLanguage (language : String) : PluralRule :=
  let code := String.ofList (language.toList.map Char.toLower)
  if code ∈ ["fr", "hi", "bn"] then french
  else if code ∈ ["ru", "uk", "hr", "sr", "bs"] then russian
  else if code = "pl" then polish
  else if code = "ar" then arabic
  else if code ∈ ["zh", "ja", "ko", "th", "vi", "id", "ms"] then cjk
  else english

def ofLocale (locale : Locale) : PluralRule :=
  ofLanguage locale.language

def name : PluralRule → String
  | english => "English"
  | russian => "Russian"
  | arabic => "Arabic"
  | french => "French"
  | cjk => "CJK"
  | polish => "Polish"
  | custom _ => "Custom"

end PluralRule

end Localization
