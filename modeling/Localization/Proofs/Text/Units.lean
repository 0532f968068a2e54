import Mathlib
import Localization.Text.Blank
import Localization.Text.Hex

namespace Localization.Text

theorem isDigit_iff (c : Char) : c.isDigit = true ↔ 48 ≤ c.toNat ∧ c.toNat ≤ 57 := by
  simp only [Char.isDigit, Bool.and_eq_true, decide_eq_true_eq]
  exact Iff.rfl

theorem isLower_iff (c : Char) : c.isLower = true ↔ 97 ≤ c.toNat ∧ c.toNat ≤ 122 := by
  simp only [Char.isLower, Bool.and_eq_true, decide_eq_true_eq]
  exact Iff.rfl

theorem isUpper_iff (c : Char) : c.isUpper = true ↔ 65 ≤ c.toNat ∧ c.toNat ≤ 90 := by
  simp only [Char.isUpper, decide_eq_true_eq]
  exact Iff.rfl

theorem isAlphanum_iff (c : Char) : c.isAlphanum = true ↔
    48 ≤ c.toNat ∧ c.toNat ≤ 57 ∨ 65 ≤ c.toNat ∧ c.toNat ≤ 90 ∨ 97 ≤ c.toNat ∧ c.toNat ≤ 122 := by
  simp only [Char.isAlphanum, Char.isAlpha, Bool.or_eq_true, isDigit_iff, isLower_iff, isUpper_iff]
  omega

theorem ne_of_isAlphanum {c d : Char} (hc : c.isAlphanum) (hd : d.isAlphanum = false) : c ≠ d := by
  rintro rfl
  simp [hc] at hd

theorem isBlank_of_isAlphanum {c : Char} (h : c.isAlphanum) : isBlank c = false := by
  rw [isAlphanum_iff] at h
  rw [Bool.eq_false_iff]
  intro hblank
  simp only [isBlank, Bool.or_eq_true, Bool.and_eq_true, decide_eq_true_eq, beq_iff_eq] at hblank
  omega

/-- A text without blanks is not trimmed. -/
theorem trim_of_no_blank {s : List Char} (h : ∀ c ∈ s, isBlank c = false) : trim s = s := by
  have hdrop {s : List Char} (h : ∀ c ∈ s, isBlank c = false) : s.dropWhile isBlank = s := by
    cases s with
    | nil => rfl
    | cons c s => simp [h c List.mem_cons_self]
  have hreverse : ∀ c ∈ s.reverse, isBlank c = false := fun c hc => h c (List.mem_reverse.1 hc)
  rw [trim, trimLeft, hdrop h, trimRight, hdrop hreverse, List.reverse_reverse]

theorem toNat_toUpper (c : Char) :
    c.toUpper.toNat = if 97 ≤ c.toNat ∧ c.toNat ≤ 122 then c.toNat - 32 else c.toNat := by
  by_cases hlower : c.isLower
  · have hbounds := (isLower_iff c).1 hlower
    have hvalid : (c.toNat - 32).isValidChar := .inl (by omega)
    rw [if_pos hbounds, Char.toUpper_eq_of_isLower hlower, Char.toNat_ofNat, if_pos hvalid]
  · have hbounds := mt (isLower_iff c).2 hlower
    rw [if_neg hbounds, Char.toUpper_eq_of_not_isLower hlower]

theorem hexDigit?_eq (c : Char) : hexDigit? c =
    if 48 ≤ c.toNat ∧ c.toNat ≤ 57 then some (c.toNat - 48)
    else if 97 ≤ c.toNat ∧ c.toNat ≤ 102 then some (c.toNat - 87)
    else if 65 ≤ c.toNat ∧ c.toNat ≤ 70 then some (c.toNat - 55)
    else none := by
  have hlower : ('a' ≤ c ∧ c ≤ 'f') ↔ (97 ≤ c.toNat ∧ c.toNat ≤ 102) := Iff.rfl
  have hupper : ('A' ≤ c ∧ c ≤ 'F') ↔ (65 ≤ c.toNat ∧ c.toNat ≤ 70) := Iff.rfl
  simp only [hexDigit?, isDigit_iff, hlower, hupper]

theorem isAlphanum_of_hexDigit? {c : Char} {n : Nat} (h : hexDigit? c = some n) : c.isAlphanum := by
  rw [hexDigit?_eq] at h
  rw [isAlphanum_iff]
  grind

theorem hexDigit?_hexDigit : ∀ n < 16, hexDigit? (hexDigit n) = some n := by
  decide

/-- A digit counts the same in either case. -/
theorem hexDigit?_of_toUpper {c : Char} {n : Nat} (hn : n < 16) (h : c.toUpper = hexDigit n) :
    hexDigit? c = some n := by
  have hcase : hexDigit? c.toUpper = hexDigit? c := by
    rw [hexDigit?_eq, hexDigit?_eq, toNat_toUpper]
    grind
  rw [← hcase, h, hexDigit?_hexDigit n hn]

/-- Four digits of either case that spell a unit: each counts for one of its parts. -/
theorem hexDigit?_of_spelled {a b c d : Char} {unit : Nat}
    (h : [a, b, c, d].map Char.toUpper = hex4 unit) :
    hexDigit? a = some (unit / 4096 % 16) ∧ hexDigit? b = some (unit / 256 % 16) ∧
      hexDigit? c = some (unit / 16 % 16) ∧ hexDigit? d = some (unit % 16) := by
  simp only [List.map_cons, List.map_nil, hex4, List.cons.injEq, and_true] at h
  obtain ⟨ha, hb, hc, hd⟩ := h
  have hmod (n : Nat) : n % 16 < 16 := Nat.mod_lt n (by decide)
  exact ⟨hexDigit?_of_toUpper (hmod _) ha, hexDigit?_of_toUpper (hmod _) hb,
    hexDigit?_of_toUpper (hmod _) hc, hexDigit?_of_toUpper (hmod _) hd⟩

theorem readHex4?_of_spelled {a b c d : Char} {unit : Nat} (hunit : unit < 0x10000)
    (h : [a, b, c, d].map Char.toUpper = hex4 unit) : readHex4? a b c d = some unit := by
  obtain ⟨ha, hb, hc, hd⟩ := hexDigit?_of_spelled h
  have hsum : ((unit / 4096 % 16 * 16 + unit / 256 % 16) * 16 + unit / 16 % 16) * 16 + unit % 16 =
      unit := by omega
  simp [readHex4?, ha, hb, hc, hd, hsum]

/-- The UTF-16 units of a character: one, or two that make a surrogate pair. -/
def utf16Units (c : Char) : List Nat :=
  if c.toNat < 0x10000 then [c.toNat]
  else [0xD800 + (c.toNat - 0x10000) / 0x400, 0xDC00 + (c.toNat - 0x10000) % 0x400]

/-- A character is no surrogate. -/
theorem toNat_range (c : Char) : c.toNat < 0xD800 ∨ 0xDFFF < c.toNat ∧ c.toNat < 0x110000 :=
  c.valid

/-- A character has one unit that is no surrogate, or two that make it. -/
theorem utf16Units_cases (c : Char) :
    (∃ unit < 0x10000, utf16Units c = [unit] ∧ isHighSurrogate unit = false ∧
      isLowSurrogate unit = false ∧ Char.ofNat unit = c) ∨
    (∃ high < 0x10000, ∃ low < 0x10000, utf16Units c = [high, low] ∧ isHighSurrogate high ∧
      isLowSurrogate low ∧ ofSurrogates high low = c) := by
  have hrange := toNat_range c
  by_cases hplane : c.toNat < 0x10000
  · refine .inl ⟨c.toNat, hplane, if_pos hplane, ?_, ?_, Char.ofNat_toNat c⟩
    · simp only [isHighSurrogate, Bool.and_eq_false_iff, decide_eq_false_iff_not]
      omega
    · simp only [isLowSurrogate, Bool.and_eq_false_iff, decide_eq_false_iff_not]
      omega
  · have hhigh : (c.toNat - 0x10000) / 0x400 < 0x400 := by omega
    have hlow : (c.toNat - 0x10000) % 0x400 < 0x400 := Nat.mod_lt _ (by decide)
    refine .inr ⟨_, ?_, _, ?_, if_neg hplane, ?_, ?_, ?_⟩
    · omega
    · omega
    · simp only [isHighSurrogate, Bool.and_eq_true, decide_eq_true_eq]
      omega
    · simp only [isLowSurrogate, Bool.and_eq_true, decide_eq_true_eq]
      omega
    · have hsum : 0x10000 + (0xD800 + (c.toNat - 0x10000) / 0x400 - 0xD800) * 0x400 +
          (0xDC00 + (c.toNat - 0x10000) % 0x400 - 0xDC00) = c.toNat := by omega
      rw [ofSurrogates, hsum, Char.ofNat_toNat]

end Localization.Text
