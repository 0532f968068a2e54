import Localization.Proofs.Properties.Escaped
import Localization.Proofs.Results
import Localization.Proofs.Text.Units

namespace Localization.Properties

/-- What escapes stand for where they are resolved from the start of a text on: the text, what has
been resolved so far, and what is left of the text. -/
inductive Resolves : List Char → List Char → List Char → Prop
  | nil {text} : Resolves text [] text
  | plain {c rest s left} (hc : c ≠ '\\') (h : Resolves rest s left) :
      Resolves (c :: rest) (c :: s) left
  | pair {c rest s left} (hc : c ≠ 'u') (h : Resolves rest s left) :
      Resolves ('\\' :: c :: rest) (escaped c :: s) left
  | unit {a b c d unit rest s left} (hread : Text.readHex4? a b c d = some unit)
      (hhigh : Text.isHighSurrogate unit = false) (hlow : Text.isLowSurrogate unit = false)
      (h : Resolves rest s left) :
      Resolves ('\\' :: 'u' :: a :: b :: c :: d :: rest) (Char.ofNat unit :: s) left
  | surrogates {a b c d a' b' c' d' high low rest s left}
      (hreadHigh : Text.readHex4? a b c d = some high)
      (hreadLow : Text.readHex4? a' b' c' d' = some low) (hhigh : Text.isHighSurrogate high)
      (hlow : Text.isLowSurrogate low) (h : Resolves rest s left) :
      Resolves ('\\' :: 'u' :: a :: b :: c :: d :: '\\' :: 'u' :: a' :: b' :: c' :: d' :: rest)
        (Text.ofSurrogates high low :: s) left

/-! One character or escape -/

theorem unescape_plain {c : Char} (hc : c ≠ '\\') (rest : List Char) :
    unescape (c :: rest) = (c :: ·) <$> unescape rest := by
  rw [unescape]
  · rfl
  · exact hc

theorem unescape_pair {c : Char} (hc : c ≠ 'u') (rest : List Char) :
    unescape ('\\' :: c :: rest) = (escaped c :: ·) <$> unescape rest := by
  rw [unescape]
  · rfl
  · simp [hc]
  · simp [hc]

theorem unitOf_eq_ok_iff {a b c d : Char} {unit : Nat} :
    unitOf a b c d = .ok unit ↔ Text.readHex4? a b c d = some unit := by
  unfold unitOf
  split <;> simp [*]

theorem ofUnit_eq_ok_iff {unit : Nat} {c : Char} :
    ofUnit unit = .ok c ↔ Text.isLowSurrogate unit = false ∧ Char.ofNat unit = c := by
  unfold ofUnit
  split <;> simp [*]

theorem ofUnits_eq_ok_iff {high low : Nat} {c : Char} :
    ofUnits high low = .ok c ↔ Text.isLowSurrogate low ∧ Text.ofSurrogates high low = c := by
  unfold ofUnits
  split <;> simp [*]

theorem unescape_unit {a b c d : Char} {unit : Nat} (hread : Text.readHex4? a b c d = some unit)
    (hhigh : Text.isHighSurrogate unit = false) (hlow : Text.isLowSurrogate unit = false)
    (rest : List Char) :
    unescape ('\\' :: 'u' :: a :: b :: c :: d :: rest) =
      (Char.ofNat unit :: ·) <$> unescape rest := by
  rw [unescape]
  simp only [unitOf, hread, ok_bind, ofUnit, hhigh, hlow, Bool.false_eq_true, if_false]
  rfl

theorem unescape_surrogates {a b c d a' b' c' d' : Char} {high low : Nat}
    (hreadHigh : Text.readHex4? a b c d = some high)
    (hreadLow : Text.readHex4? a' b' c' d' = some low) (hhigh : Text.isHighSurrogate high)
    (hlow : Text.isLowSurrogate low) (rest : List Char) :
    unescape ('\\' :: 'u' :: a :: b :: c :: d :: '\\' :: 'u' :: a' :: b' :: c' :: d' :: rest) =
      (Text.ofSurrogates high low :: ·) <$> unescape rest := by
  rw [unescape]
  simp only [unitOf, hreadHigh, hreadLow, ok_bind, ofUnits, hhigh, hlow, if_true]
  rfl

/-! The digits of a unit -/

section Digits

variable {a b c d : Char} {unit : Nat}

theorem isAlphanum_of_readHex4? (h : Text.readHex4? a b c d = some unit) :
    a.isAlphanum ∧ b.isAlphanum ∧ c.isAlphanum ∧ d.isAlphanum := by
  simp only [Text.readHex4?, Option.bind_eq_bind, Option.bind_eq_some_iff] at h
  obtain ⟨_, ha, _, hb, _, hc, _, hd, -⟩ := h
  exact ⟨Text.isAlphanum_of_hexDigit? ha, Text.isAlphanum_of_hexDigit? hb,
    Text.isAlphanum_of_hexDigit? hc, Text.isAlphanum_of_hexDigit? hd⟩

/-- What stands behind a unit's digits is whole if the escape and what follows it are. -/
theorem Whole.of_unit (hread : Text.readHex4? a b c d = some unit) {rest : List Char}
    (h : Whole ('\\' :: 'u' :: a :: b :: c :: d :: rest)) : Whole rest := by
  obtain ⟨ha, hb, hc, hd⟩ := isAlphanum_of_readHex4? hread
  have hescape {e : Char} (he : e.isAlphanum) : e ≠ '\\' := Text.ne_of_isAlphanum he rfl
  have hdigits := h.of_pair.of_plain (hescape ha)
  exact ((hdigits.of_plain (hescape hb)).of_plain (hescape hc)).of_plain (hescape hd)

/-- The digits of an escape are none but letters and digits. -/
theorem hasUnescaped_unit {mark : Char} (hmark : mark.isAlphanum = false) (hescape : mark ≠ '\\')
    (hread : Text.readHex4? a b c d = some unit) (rest : List Char) :
    HasUnescaped (· == mark) ('\\' :: 'u' :: a :: b :: c :: d :: rest) ↔
      HasUnescaped (· == mark) rest := by
  have hdigit {e : Char} (he : e.isAlphanum) (text : List Char) :
      HasUnescaped (· == mark) (e :: text) ↔ HasUnescaped (· == mark) text := by
    have hne := Text.ne_of_isAlphanum he hmark
    rw [hasUnescaped_cons (Text.ne_of_isAlphanum he (by decide)), beq_iff_eq]
    exact or_iff_right hne
  obtain ⟨ha, hb, hc, hd⟩ := isAlphanum_of_readHex4? hread
  rw [hasUnescaped_pair (by simpa using hescape.symm), hdigit ha, hdigit hb, hdigit hc, hdigit hd]

end Digits

/-! One after the other -/

variable {text s left : List Char}

namespace Resolves

/-- Escapes are resolved with no regard to what follows them. -/
theorem append (h : Resolves text s left) (more : List Char) :
    Resolves (text ++ more) s (left ++ more) := by
  induction h with
  | nil => exact .nil
  | plain hc _ ih => exact .plain hc ih
  | pair hc _ ih => exact .pair hc ih
  | unit hread hhigh hlow _ ih => exact .unit hread hhigh hlow ih
  | surrogates hreadHigh hreadLow hhigh hlow _ ih =>
    exact .surrogates hreadHigh hreadLow hhigh hlow ih

theorem unescape_eq (h : Resolves text s left) :
    unescape text = (s ++ ·) <$> unescape left := by
  induction h with
  | nil => simp
  | plain hc _ ih => simp [unescape_plain hc, ih]
  | pair hc _ ih => simp [unescape_pair hc, ih]
  | unit hread hhigh hlow _ ih => simp [unescape_unit hread hhigh hlow, ih]
  | surrogates hreadHigh hreadLow hhigh hlow _ ih =>
    simp [unescape_surrogates hreadHigh hreadLow hhigh hlow, ih]

/-- What is left of a text that does not end within an escape does not either. -/
theorem whole (h : Resolves text s left) (hwhole : Whole text) : Whole left := by
  induction h with
  | nil => exact hwhole
  | plain hc _ ih => exact ih (hwhole.of_plain hc)
  | pair _ _ ih => exact ih hwhole.of_pair
  | unit hread _ _ _ ih => exact ih (hwhole.of_unit hread)
  | surrogates hreadHigh hreadLow _ _ _ ih =>
    exact ih ((hwhole.of_unit hreadHigh).of_unit hreadLow)

/-- A character that is not escaped stands for itself. -/
theorem mem_or_hasUnescaped (h : Resolves text s left) {mark : Char}
    (hmark : mark.isAlphanum = false) (hescape : mark ≠ '\\')
    (hmem : HasUnescaped (· == mark) text) : mark ∈ s ∨ HasUnescaped (· == mark) left := by
  have hpair : ('\\' == mark) = false := by simpa using hescape.symm
  induction h with
  | nil => exact .inr hmem
  | plain hc _ ih =>
    rw [hasUnescaped_cons hc, beq_iff_eq] at hmem
    rcases hmem with rfl | hmem
    · exact .inl List.mem_cons_self
    · exact (ih hmem).imp_left (List.mem_cons_of_mem _)
  | pair _ _ ih =>
    rw [hasUnescaped_pair hpair] at hmem
    exact (ih hmem).imp_left (List.mem_cons_of_mem _)
  | unit hread _ _ _ ih =>
    rw [hasUnescaped_unit hmark hescape hread] at hmem
    exact (ih hmem).imp_left (List.mem_cons_of_mem _)
  | surrogates hreadHigh hreadLow _ _ _ ih =>
    rw [hasUnescaped_unit hmark hescape hreadHigh, hasUnescaped_unit hmark hescape hreadLow] at hmem
    exact (ih hmem).imp_left (List.mem_cons_of_mem _)

end Resolves

/-- Where escapes are resolved, all of the text is, but for a backslash that ends it alone. -/
theorem resolves_of_unescape (h : unescape text = .ok s) :
    Resolves text s [] ∨ Resolves text s ['\\'] := by
  fun_induction unescape text generalizing s with
  | case1 =>
    obtain rfl := Except.ok.inj h
    exact .inl .nil
  | case2 =>
    obtain rfl := Except.ok.inj h
    exact .inr .nil
  | case3 a b c d rest ihPair ih =>
    obtain ⟨unit, hread, h⟩ := bind_eq_ok_iff.1 h
    rw [unitOf_eq_ok_iff] at hread
    split at h
    · rename_i hhigh
      split at h
      · -- The second half of a surrogate pair stands in the escape behind.
        obtain ⟨low, hreadLow, h⟩ := bind_eq_ok_iff.1 h
        rw [unitOf_eq_ok_iff] at hreadLow
        obtain ⟨decoded, hdecoded, h⟩ := bind_eq_ok_iff.1 h
        obtain ⟨hlow, rfl⟩ := ofUnits_eq_ok_iff.1 hdecoded
        obtain ⟨s', hs', h⟩ := bind_eq_ok_iff.1 h
        obtain rfl := Except.ok.inj h
        exact (ihPair hs').imp (.surrogates hread hreadLow hhigh hlow)
          (.surrogates hread hreadLow hhigh hlow)
      · cases h
      · cases h
    · rename_i hhigh
      rw [Bool.not_eq_true] at hhigh
      obtain ⟨decoded, hdecoded, h⟩ := bind_eq_ok_iff.1 h
      obtain ⟨hlow, rfl⟩ := ofUnit_eq_ok_iff.1 hdecoded
      obtain ⟨s', hs', h⟩ := bind_eq_ok_iff.1 h
      obtain rfl := Except.ok.inj h
      exact (ih hs').imp (.unit hread hhigh hlow) (.unit hread hhigh hlow)
  | case4 taken hshort => cases h
  | case5 c rest hshort hc ih =>
    have hu : c ≠ 'u' := by
      rintro rfl
      exact hc rfl
    obtain ⟨s', hs', h⟩ := bind_eq_ok_iff.1 h
    obtain rfl := Except.ok.inj h
    exact (ih hs').imp (.pair hu) (.pair hu)
  | case6 c rest hc ih =>
    obtain ⟨s', hs', h⟩ := bind_eq_ok_iff.1 h
    obtain rfl := Except.ok.inj h
    exact (ih hs').imp (.plain hc) (.plain hc)

theorem unescape_eq_ok_iff :
    unescape text = .ok s ↔ Resolves text s [] ∨ Resolves text s ['\\'] := by
  refine ⟨resolves_of_unescape, ?_⟩
  have hend : unescape [] = .ok [] := rfl
  have hescape : unescape ['\\'] = .ok [] := rfl
  rintro (h | h)
  · simp [h.unescape_eq, hend]
  · simp [h.unescape_eq, hescape]

/-- The escapes of text that does not end within one are resolved up to no backslash that ends it. -/
theorem Whole.not_resolves_escape (h : Whole text) : ¬Resolves text s ['\\'] := by
  intro hresolves
  have hcontinues := (hresolves.whole h).continues_eq_false
  cases hcontinues

theorem Whole.unescape_eq_ok_iff (h : Whole text) :
    unescape text = .ok s ↔ Resolves text s [] := by
  rw [Properties.unescape_eq_ok_iff, or_iff_left h.not_resolves_escape]

/-- Text that does not end within an escape stands for the same, whatever comes after it. -/
theorem Whole.unescape_append (h : Whole text) (hs : unescape text = .ok s) (rest : List Char) :
    unescape (text ++ rest) = (s ++ ·) <$> unescape rest :=
  ((h.unescape_eq_ok_iff.1 hs).append rest).unescape_eq

/-- Where no backslash is, there is nothing to resolve. -/
theorem unescape_of_no_escape (h : '\\' ∉ s) : unescape s = .ok s := by
  induction s with
  | nil => rfl
  | cons c s ih =>
    obtain ⟨hc, hs⟩ : '\\' ≠ c ∧ '\\' ∉ s := by simpa using h
    rw [unescape_plain hc.symm, ih hs]
    rfl

theorem mem_of_unescape {mark : Char} (hmark : mark.isAlphanum = false) (hescape : mark ≠ '\\')
    (h : unescape text = .ok s) (hmem : HasUnescaped (· == mark) text) : mark ∈ s := by
  rcases resolves_of_unescape h with h | h
  · exact (h.mem_or_hasUnescaped hmark hescape hmem).resolve_right not_hasUnescaped_nil
  · exact (h.mem_or_hasUnescaped hmark hescape hmem).resolve_right
      (not_hasUnescaped (by simpa using hescape.symm))

end Localization.Properties
