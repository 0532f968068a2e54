import Mathlib
import Localization.Properties

namespace Localization.Properties

theorem continues_concat (line : List Char) (c : Char) :
    continues (line ++ [c]) = (c == '\\' && !continues line) := by
  by_cases hc : c = '\\'
  · subst hc
    have hparity (n : Nat) : ((n + 1) % 2 == 1) = !(n % 2 == 1) := by grind
    simp [continues, hparity]
  · simp [continues, hc]

/-- Text that does not end within an escape: its backslashes each have a character behind them. -/
inductive Whole : List Char → Prop
  | nil : Whole []
  | plain {c text} (hc : c ≠ '\\') (h : Whole text) : Whole (c :: text)
  | pair {c text} (h : Whole text) : Whole ('\\' :: c :: text)

theorem Whole.not_continues {text : List Char} (h : Whole text) {line : List Char}
    (hline : continues line = false) : continues (line ++ text) = false := by
  induction h generalizing line with
  | nil => simpa using hline
  | @plain c text hc _ ih =>
    have hplain : continues (line ++ [c]) = false := by simp [continues_concat, hc]
    simpa using ih hplain
  | @pair c text _ ih =>
    have hpair : continues (line ++ ['\\'] ++ [c]) = false := by
      simp [-List.append_assoc, continues_concat, hline]
    simpa using ih hpair

theorem Whole.continues_eq_false {text : List Char} (h : Whole text) : continues text = false := by
  have hnil : continues [] = false := rfl
  exact h.not_continues hnil

/-- Whether a text ends within an escape does not depend on what stands before it, if that does not. -/
theorem Whole.continues_append {before : List Char} (h : Whole before) (text : List Char) :
    continues (before ++ text) = continues text := by
  induction text using List.reverseRecOn with
  | nil =>
    rw [List.append_nil]
    exact h.continues_eq_false
  | append_singleton text c ih => rw [← List.append_assoc, continues_concat, continues_concat, ih]

/-- The escapes of a text, taken from its start on, leave no backslash at its end alone if and only if
the number of backslashes there is even. -/
theorem whole_iff {text : List Char} : Whole text ↔ continues text = false := by
  refine ⟨Whole.continues_eq_false, fun h => ?_⟩
  induction text using List.twoStepInduction with
  | nil => exact .nil
  | singleton c =>
    have hc : c ≠ '\\' := by
      rintro rfl
      cases h
    exact .plain hc .nil
  | cons_cons c d text hpair hplain =>
    by_cases hc : c = '\\'
    · subst hc
      have hwhole : Whole ['\\', d] := .pair .nil
      exact .pair (hpair (hwhole.continues_append text ▸ h))
    · have hwhole : Whole [c] := .plain hc .nil
      exact .plain hc (hplain d (hwhole.continues_append (d :: text) ▸ h))

theorem whole_of_no_escape {text : List Char} (h : '\\' ∉ text) : Whole text := by
  induction text with
  | nil => exact .nil
  | cons c text ih =>
    obtain ⟨hc, htext⟩ : '\\' ≠ c ∧ '\\' ∉ text := by simpa using h
    exact .plain hc.symm (ih htext)

theorem Whole.of_plain {c : Char} (hc : c ≠ '\\') {rest : List Char} (h : Whole (c :: rest)) :
    Whole rest := by
  cases h with
  | plain _ h => exact h
  | pair => exact absurd rfl hc

theorem Whole.of_pair {c : Char} {rest : List Char} (h : Whole ('\\' :: c :: rest)) :
    Whole rest := by
  cases h with
  | plain hescape => exact absurd rfl hescape
  | pair h => exact h

/-- What stands behind a place outside the escapes of a text has the escapes of the text there. -/
theorem Whole.append_iff {text rest : List Char} (h : Whole text) :
    Whole (text ++ rest) ↔ Whole rest := by
  rw [whole_iff, whole_iff, h.continues_append]

/-- Whether a character of a kind stands in a text behind an even number of backslashes, so that it
is not escaped. -/
def HasUnescaped (kind : Char → Bool) (text : List Char) : Prop :=
  ∃ before c after, text = before ++ c :: after ∧ kind c ∧ continues before = false

variable {kind : Char → Bool}

theorem not_hasUnescaped {text : List Char} (h : ∀ c ∈ text, kind c = false) :
    ¬HasUnescaped kind text := by
  rintro ⟨before, c, after, rfl, hc, -⟩
  rw [h c (List.mem_append_right _ List.mem_cons_self)] at hc
  cases hc

theorem not_hasUnescaped_nil : ¬HasUnescaped kind [] :=
  not_hasUnescaped (by simp)

theorem Whole.hasUnescaped_append {before : List Char} (h : Whole before) {text : List Char}
    (htext : HasUnescaped kind text) : HasUnescaped kind (before ++ text) := by
  obtain ⟨inner, c, after, rfl, hc, hinner⟩ := htext
  refine ⟨before ++ inner, c, after, by simp, hc, ?_⟩
  rw [h.continues_append, hinner]

theorem hasUnescaped_cons {c : Char} (hc : c ≠ '\\') (text : List Char) :
    HasUnescaped kind (c :: text) ↔ kind c ∨ HasUnescaped kind text := by
  have hwhole : Whole [c] := .plain hc .nil
  constructor
  · rintro ⟨before, d, after, heq, hd, hbefore⟩
    cases before with
    | nil =>
      obtain ⟨rfl, rfl⟩ := List.cons.inj heq
      exact .inl hd
    | cons e before =>
      obtain ⟨rfl, rfl⟩ := List.cons.inj heq
      exact .inr ⟨before, d, after, rfl, hd, hwhole.continues_append before ▸ hbefore⟩
  · rintro (hd | htext)
    · exact ⟨[], c, text, rfl, hd, rfl⟩
    · exact hwhole.hasUnescaped_append htext

theorem hasUnescaped_pair (hkind : kind '\\' = false) (c : Char) (text : List Char) :
    HasUnescaped kind ('\\' :: c :: text) ↔ HasUnescaped kind text := by
  have hwhole : Whole ['\\', c] := .pair .nil
  constructor
  · rintro ⟨before, d, after, heq, hd, hbefore⟩
    match before with
    | [] =>
      obtain ⟨rfl, -⟩ := List.cons.inj heq
      simp [hkind] at hd
    | [e] =>
      obtain ⟨rfl, -⟩ := List.cons.inj heq
      cases hbefore
    | e :: e' :: before =>
      obtain ⟨rfl, htext⟩ := List.cons.inj heq
      obtain ⟨rfl, rfl⟩ := List.cons.inj htext
      exact ⟨before, d, after, rfl, hd, hwhole.continues_append before ▸ hbefore⟩
  · exact hwhole.hasUnescaped_append

/-- The key goes on through text that none of its characters can end, in brackets or not. -/
theorem Whole.splitKey_append {text : List Char} (h : Whole text)
    (hends : ¬HasUnescaped endsKey text) (bracketed : Bool) (rest : List Char) :
    ∃ after, splitKey bracketed (text ++ rest) =
      (text ++ (splitKey after rest).1, (splitKey after rest).2) := by
  induction h generalizing bracketed with
  | nil => exact ⟨bracketed, rfl⟩
  | @plain c text hc _ ih =>
    rw [hasUnescaped_cons hc, not_or, Bool.not_eq_true] at hends
    obtain ⟨after, hafter⟩ := ih hends.2 (bracketedAfter bracketed c)
    refine ⟨after, ?_⟩
    rw [List.cons_append, splitKey]
    · simp [hends.1, hafter]
    · exact hc
  | @pair c text _ ih =>
    rw [hasUnescaped_pair (by decide)] at hends
    obtain ⟨after, hafter⟩ := ih hends bracketed
    exact ⟨after, by simp [splitKey, hafter]⟩

/-- Brackets that are not closed hold all that follows. -/
theorem splitKey_of_not_closed {bracketed : Bool} (hopen : bracketed = true) {text : List Char}
    (h : ¬HasUnescaped (· == ']') text) : splitKey bracketed text = (text, []) := by
  fun_induction splitKey bracketed text with
  | case1 => rfl
  | case2 => rfl
  | case3 bracketed c rest key after hsplit ih =>
    rw [hasUnescaped_pair (by decide)] at h
    obtain ⟨rfl, rfl⟩ := Prod.mk.inj (hsplit.symm.trans (ih hopen h))
    rfl
  | case4 bracketed c rest hc hends => simp [hopen] at hends
  | case5 bracketed c rest hc hends key after hsplit ih =>
    rw [hasUnescaped_cons hc, not_or, beq_iff_eq] at h
    have hstill : bracketedAfter bracketed c = true := by simp [bracketedAfter, h.1, hopen]
    obtain ⟨rfl, rfl⟩ := Prod.mk.inj (hsplit.symm.trans (ih hstill h.2))
    rfl

end Localization.Properties
