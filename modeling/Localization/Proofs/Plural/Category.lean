import Mathlib.Tactic.SplitIfs
import Localization.Plural

namespace Localization.PluralRule

/-- Whether a rule is one of the library's own. -/
def IsBuiltIn : PluralRule → Prop
  | custom _ => False
  | _ => True

/-- Whether a number ends in 1, but not in 11. -/
def EndsInOne (n : Nat) : Prop :=
  n % 10 = 1 ∧ n % 100 ≠ 11

/-- Whether a number ends in 2, 3 or 4, but not in 12, 13 or 14. -/
def EndsInFew (n : Nat) : Prop :=
  n % 10 ∈ [2, 3, 4] ∧ n % 100 ∉ [12, 13, 14]

/-- The condition on the absolute value of a count for a rule to give a category. -/
def Covers : PluralRule → PluralCategory → Nat → Prop
  | english, .one, n => n = 1
  | english, .other, n => n ≠ 1
  | french, .one, n => n = 0 ∨ n = 1
  | french, .other, n => ¬(n = 0 ∨ n = 1)
  | russian, .one, n => EndsInOne n
  | russian, .few, n => EndsInFew n
  | russian, .many, n => ¬EndsInOne n ∧ ¬EndsInFew n
  | polish, .one, n => n = 1
  | polish, .few, n => EndsInFew n
  | polish, .many, n => n ≠ 1 ∧ ¬EndsInFew n
  | arabic, .zero, n => n = 0
  | arabic, .one, n => n = 1
  | arabic, .two, n => n = 2
  | arabic, .few, n => 3 ≤ n % 100 ∧ n % 100 ≤ 10
  | arabic, .many, n => 11 ≤ n % 100 ∧ n % 100 ≤ 99
  | arabic, .other, n =>
    ¬(n = 0 ∨ n = 1 ∨ n = 2) ∧ ¬(3 ≤ n % 100 ∧ n % 100 ≤ 10) ∧ ¬(11 ≤ n % 100 ∧ n % 100 ≤ 99)
  | cjk, .other, _ => True
  | _, _, _ => False

theorem endsInFew_iff (n : Nat) :
    EndsInFew n ↔ (2 ≤ n % 10 ∧ n % 10 ≤ 4) ∧ ¬(12 ≤ n % 100 ∧ n % 100 ≤ 14) := by
  simp only [EndsInFew, List.mem_cons, List.not_mem_nil, or_false]
  omega

/-- A number that ends neither in one nor in few ends in a digit for many, or in 11 to 14. The last
two digits are needed for that: 12 ends in 2, and 11 in 1. -/
theorem endsInMany {n : Nat} (hone : ¬EndsInOne n) (hfew : ¬EndsInFew n) :
    n % 10 = 0 ∨ (5 ≤ n % 10 ∧ n % 10 ≤ 9) ∨ (11 ≤ n % 100 ∧ n % 100 ≤ 14) := by
  rw [endsInFew_iff] at hfew
  unfold EndsInOne at hone
  omega

theorem not_endsInFew_of_endsInOne {n : Nat} (h : EndsInOne n) : ¬EndsInFew n := by
  rw [endsInFew_iff]
  unfold EndsInOne at h
  omega

theorem russianCategory_eq_iff (n : Nat) (category : PluralCategory) :
    russianCategory n = category ↔ Covers russian category n := by
  by_cases hone : EndsInOne n
  · have hvalue : russianCategory n = .one := if_pos hone
    have hfew := not_endsInFew_of_endsInOne hone
    cases category <;> simp [Covers, hvalue, hone, hfew]
  · by_cases hfew : EndsInFew n
    · have hvalue : russianCategory n = .few :=
        (if_neg hone).trans (if_pos ((endsInFew_iff n).1 hfew))
      cases category <;> simp [Covers, hvalue, hone, hfew]
    · have hvalue : russianCategory n = .many :=
        (if_neg hone).trans <|
          (if_neg (mt (endsInFew_iff n).2 hfew)).trans (if_pos (endsInMany hone hfew))
      cases category <;> simp [Covers, hvalue, hone, hfew]

theorem polishCategory_eq_iff (n : Nat) (category : PluralCategory) :
    polishCategory n = category ↔ Covers polish category n := by
  by_cases hone : n = 1
  · subst hone
    have hfew : ¬EndsInFew 1 := by simp [EndsInFew]
    cases category <;> simp [Covers, polishCategory, hfew]
  · by_cases hfew : EndsInFew n
    · have hvalue : polishCategory n = .few :=
        (if_neg hone).trans (if_pos ((endsInFew_iff n).1 hfew))
      cases category <;> simp [Covers, hvalue, hone, hfew]
    · have hvalue : polishCategory n = .many :=
        (if_neg hone).trans (if_neg (mt (endsInFew_iff n).2 hfew))
      cases category <;> simp [Covers, hvalue, hone, hfew]

theorem arabicCategory_eq_iff (n : Nat) (category : PluralCategory) :
    arabicCategory n = category ↔ Covers arabic category n := by
  unfold arabicCategory
  split_ifs <;> cases category <;> simp [Covers] <;> omega

/-- Each rule of the library gives a category just where the category's condition holds for the
absolute value of the count, however large it is, and the sign of the count does not matter. The
Russian rule never comes to its last case. -/
theorem categorize_exact (count : Int) :
    (∀ rule : PluralRule, rule.IsBuiltIn →
      (∀ category, rule.categorize count = category ↔ rule.Covers category count.natAbs) ∧
        rule.categorize (-count) = rule.categorize count) ∧
      russian.categorize count ≠ .other := by
  refine ⟨fun rule hrule => ⟨fun category => ?_, ?_⟩, ?_⟩
  · cases rule with
    | english =>
      simp only [categorize, englishCategory]
      split_ifs <;> cases category <;> simp [Covers, *]
    | french =>
      simp only [categorize, frenchCategory]
      split_ifs <;> cases category <;> simp [Covers] <;> omega
    | cjk => cases category <;> simp [categorize, Covers]
    | russian => exact russianCategory_eq_iff count.natAbs category
    | polish => exact polishCategory_eq_iff count.natAbs category
    | arabic => exact arabicCategory_eq_iff count.natAbs category
    | custom => exact hrule.elim
  · cases rule with
    | custom => exact hrule.elim
    | _ => simp only [categorize, Int.natAbs_neg]
  · exact mt (russianCategory_eq_iff count.natAbs .other).1 id

/-- The absolute value of the least count of 64 bits, which is no such count itself, ends in 08;
112 ends in 2 and in 12, and 1101 in 01. -/
theorem categorize_exact_least :
    russian.IsBuiltIn ∧ polish.IsBuiltIn ∧ arabic.IsBuiltIn ∧
      russian.categorize (-9223372036854775808) = .many ∧ polish.categorize (-112) = .many ∧
      arabic.categorize (-1101) = .other ∧ arabic.categorize 1101 = .other := by
  have hleast := (categorize_exact (-9223372036854775808)).1 russian trivial
  have hteens := (categorize_exact (-112)).1 polish trivial
  have hsign := (categorize_exact (-1101)).1 arabic trivial
  have hnegative : arabic.categorize (-1101) = .other := (hsign.1 .other).2 (by simp [Covers])
  refine ⟨trivial, trivial, trivial, (hleast.1 .many).2 ?_, (hteens.1 .many).2 ?_, hnegative,
    hsign.2.trans hnegative⟩
  · simp [Covers, EndsInOne, EndsInFew]
  · simp [Covers, EndsInFew]

end Localization.PluralRule
