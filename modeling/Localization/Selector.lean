import Localization.Plural

namespace Localization

/-- A form that a value may vary by: a plural category (`one`), a gender (`female`), an exact count
(`=0`) or a compound of those (`one|female`), in lower case. -/
structure Selector where
  text : String
deriving DecidableEq, Inhabited

namespace Selector

/-- The characters of forms in lower case. -/
def isFormChar (c : Char) : Bool :=
  c.isAlphanum || c == '=' || c == '|' || c == '_' || c == '-'

/-- Reads a form in either case, with blanks around it; it has a character, and form characters
only. -/
def ofString? (text : String) : Option Selector :=
  let form := (Text.trim text.toList).map Char.toLower
  if form ≠ [] ∧ form.all isFormChar then some ⟨String.ofList form⟩ else none

def exact (count : Int) : Selector :=
  ⟨"=" ++ toString count⟩

def ofCategory (category : PluralCategory) : Selector :=
  ⟨category.name⟩

def ofGender (gender : Gender) : Selector :=
  ⟨gender.name⟩

instance : ToString Selector := ⟨text⟩

instance : Ord Selector := ⟨compareOn text⟩

instance : Std.TransOrd Selector :=
  inferInstanceAs (Std.TransCmp (compareOn text))

instance : Std.LawfulEqOrd Selector where
  eq_of_compare {a b} h := by
    have htext : compare a.text b.text = .eq := h
    cases a
    cases b
    exact congrArg mk (Std.LawfulEqCmp.eq_of_compare htext)

end Selector

end Localization
