import Localization.Text.Blank

namespace Localization

/-- A locale tag `language[_Script][_REGION][_variant]`. An absent subtag is the empty string; the
root locale has no subtag at all. -/
structure Locale where
  language : String := ""
  script : String := ""
  region : String := ""
  variant : String := ""
deriving DecidableEq, Inhabited

namespace Locale

/-- The locale that every fallback chain ends in. -/
def root : Locale := {}

/-- The four subtags in the order in which a tag lists them, absent ones included. -/
def subtags (t : Locale) : List String :=
  [t.language, t.script, t.region, t.variant]

def presentSubtags (t : Locale) : List String :=
  t.subtags.filter (· ≠ "")

/-- How many subtags are present: 0 for root, at most 4. -/
def specificity (t : Locale) : Nat :=
  t.presentSubtags.length

def isRoot (t : Locale) : Bool :=
  t.specificity == 0

/-- The tag without its last present subtag; root has no parent. -/
def parent? (t : Locale) : Option Locale :=
  if t.variant ≠ "" then some { t with variant := "" }
  else if t.region ≠ "" then some { t with region := "" }
  else if t.script ≠ "" then some { t with script := "" }
  else if t.language ≠ "" then some { t with language := "" }
  else none

/-- The next `n` ancestors, nearest first, or as many as there are. -/
def ancestors : Nat → Locale → List Locale
  | 0, _ => []
  | n + 1, t =>
    match t.parent? with
    | none => []
    | some p => p :: ancestors n p

/-- The tag, then each ancestor, root last. A step to the parent takes away one present subtag, so
the specificity counts the ancestors. -/
def chain (t : Locale) : List Locale :=
  t :: ancestors t.specificity t

/-- The written form: the present subtags joined by `_`, or `root`. -/
def name (t : Locale) : String :=
  if t.isRoot then "root" else "_".intercalate t.presentSubtags

instance : ToString Locale := ⟨name⟩

/-- Less specific tags come first; equally specific ones go by their subtags in order. -/
instance : Ord Locale where
  compare := compareLex (compareOn specificity) <| compareLex (compareOn language) <|
    compareLex (compareOn script) <| compareLex (compareOn region) (compareOn variant)

instance : Std.TransOrd Locale :=
  inferInstanceAs <| Std.TransCmp <|
    compareLex (compareOn specificity) <| compareLex (compareOn language) <|
      compareLex (compareOn script) <| compareLex (compareOn region) (compareOn variant)

instance : Std.LawfulEqOrd Locale where
  eq_of_compare {a b} h := by
    have hstring {x y : String} (hxy : compare x y = .eq) : x = y :=
      Std.LawfulEqCmp.eq_of_compare hxy
    obtain ⟨_, h⟩ := compareLex_eq_eq.1 h
    obtain ⟨hlanguage, h⟩ := compareLex_eq_eq.1 h
    obtain ⟨hscript, h⟩ := compareLex_eq_eq.1 h
    obtain ⟨hregion, hvariant⟩ := compareLex_eq_eq.1 h
    cases a
    cases b
    rw [Locale.mk.injEq]
    exact ⟨hstring hlanguage, hstring hscript, hstring hregion, hstring hvariant⟩

/-- A parent has one subtag less. -/
theorem specificity_of_parent? {t p : Locale} (h : t.parent? = some p) :
    t.specificity = p.specificity + 1 := by
  grind [parent?, specificity, presentSubtags, subtags]

end Locale

end Localization
