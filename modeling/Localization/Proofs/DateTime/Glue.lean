import Mathlib
import Localization.Proofs.DateTime.Complete

namespace Localization.DateTime

/-- A digit in braces. -/
def slot (digit : Char) : List Char :=
  ['\x7b', digit, '\x7d']

/-- The number of places in a text where a slot with this digit starts. -/
def slotCount (digit : Char) (text : List Char) : Nat :=
  text.tails.countP ((slot digit).isPrefixOf ·)

/-- Fills the slots for the date and for the time at once: what is put in is not looked at again. -/
def fillBoth (date time : List Char) : List Char → List Char
  | c :: d :: e :: rest =>
    if [c, d, e] = slot '1' then date ++ fillBoth date time rest
    else if [c, d, e] = slot '0' then time ++ fillBoth date time rest
    else c :: fillBoth date time (d :: e :: rest)
  | short => short
termination_by structural s => s

/-- One text comes from another by putting something in place of some of its slots, so many of
them. -/
inductive Fills (digit : Char) (put : List Char) : List Char → List Char → Nat → Prop
  | nil : Fills digit put [] [] 0
  | keep {c text filled n} (h : Fills digit put text filled n) :
      Fills digit put (c :: text) (c :: filled) n
  | fill {text filled n} (h : Fills digit put text filled n) :
      Fills digit put (slot digit ++ text) (put ++ filled) (n + 1)

variable {digit : Char} {put text filled : List Char} {n : Nat}

/-- The number of places at which two texts differ, as far as both go. -/
def mismatches (s t : List Char) : Nat :=
  (s.zip t).countP fun (c, d) => c != d

/-! The places where a slot starts -/

theorem slotCount_cons_of_slot {c : Char} (h : slot digit <+: c :: text) :
    slotCount digit (c :: text) = slotCount digit text + 1 := by
  rw [slotCount, List.tails_cons, List.countP_cons, if_pos (List.isPrefixOf_iff_prefix.2 h)]
  rfl

theorem slotCount_cons_of_not_slot {c : Char} (h : ¬slot digit <+: c :: text) :
    slotCount digit (c :: text) = slotCount digit text := by
  rw [slotCount, List.tails_cons, List.countP_cons, if_neg (mt List.isPrefixOf_iff_prefix.1 h)]
  rfl

theorem slotCount_le_cons (digit c : Char) (text : List Char) :
    slotCount digit text ≤ slotCount digit (c :: text) := by
  by_cases h : slot digit <+: c :: text
  · rw [slotCount_cons_of_slot h]
    exact Nat.le_succ _
  · rw [slotCount_cons_of_not_slot h]

theorem not_slot_prefix_of_ne {c : Char} (hc : c ≠ '\x7b') : ¬slot digit <+: c :: text := by
  rw [slot, List.cons_prefix_cons]
  exact fun h => hc h.1.symm

theorem slot_prefix_slot_append_iff {other : Char} :
    slot digit <+: slot other ++ text ↔ digit = other := by
  simp [slot]

/-- No slot starts at the digit of another. -/
theorem not_slot_prefix_within (hdigit : digit ≠ '\x7d') (other : Char) (text : List Char) :
    ¬slot digit <+: other :: '\x7d' :: text := by
  rw [slot, List.cons_prefix_cons, List.cons_prefix_cons]
  exact fun h => hdigit h.2.1

theorem slotCount_within (hdigit : digit ≠ '\x7d') (other : Char) (text : List Char) :
    slotCount digit (other :: '\x7d' :: text) = slotCount digit text := by
  rw [slotCount_cons_of_not_slot (not_slot_prefix_within hdigit other text),
    slotCount_cons_of_not_slot (not_slot_prefix_of_ne (by decide))]

theorem slotCount_slot_append (hdigit : digit ≠ '\x7d') (text : List Char) :
    slotCount digit (slot digit ++ text) = slotCount digit text + 1 := by
  have hslot : slot digit <+: '\x7b' :: ([digit, '\x7d'] ++ text) :=
    slot_prefix_slot_append_iff.2 rfl
  exact (slotCount_cons_of_slot hslot).trans (congrArg (· + 1) (slotCount_within hdigit digit text))

theorem slotCount_other_append (hdigit : digit ≠ '\x7d') {other : Char} (hother : digit ≠ other)
    (text : List Char) : slotCount digit (slot other ++ text) = slotCount digit text := by
  have hslot : ¬slot digit <+: '\x7b' :: ([other, '\x7d'] ++ text) :=
    mt slot_prefix_slot_append_iff.1 hother
  exact (slotCount_cons_of_not_slot hslot).trans (slotCount_within hdigit other text)

/-! Filling one slot after the other -/

theorem fillSlot_slot_append (digit : Char) (put text : List Char) :
    fillSlot digit put (slot digit ++ text) = put ++ fillSlot digit put text := by
  simp [slot, fillSlot]

theorem fillSlot_cons_of_not_slot {c : Char} (h : ¬slot digit <+: c :: text) :
    fillSlot digit put (c :: text) = c :: fillSlot digit put text := by
  match text with
  | [] => rfl
  | [d] => rfl
  | d :: e :: rest =>
    have hslot : ¬(c = '\x7b' ∧ d = digit ∧ e = '\x7d') := by
      rintro ⟨rfl, rfl, rfl⟩
      exact h (slot_prefix_slot_append_iff.2 rfl)
    rw [fillSlot, if_neg hslot]

theorem fillSlot_other_append (hdigit : digit ≠ '\x7d') {other : Char} (hother : digit ≠ other)
    (put text : List Char) :
    fillSlot digit put (slot other ++ text) = slot other ++ fillSlot digit put text := by
  have hslot : ¬slot digit <+: '\x7b' :: other :: '\x7d' :: text :=
    mt slot_prefix_slot_append_iff.1 hother
  change fillSlot digit put ('\x7b' :: other :: '\x7d' :: text) =
    '\x7b' :: other :: '\x7d' :: fillSlot digit put text
  rw [fillSlot_cons_of_not_slot hslot,
    fillSlot_cons_of_not_slot (not_slot_prefix_within hdigit other text),
    fillSlot_cons_of_not_slot (not_slot_prefix_of_ne (by decide))]

/-- A text is made of slots with some digits and of characters at which none of them starts. -/
theorem slot_induction {motive : List Char → Prop} (digits : List Char) (nil : motive [])
    (filled : ∀ digit ∈ digits, ∀ text, motive text → motive (slot digit ++ text))
    (plain : ∀ c text, (∀ digit ∈ digits, ¬slot digit <+: c :: text) → motive text →
      motive (c :: text)) (text : List Char) : motive text := by
  induction hlength : text.length using Nat.strongRecOn generalizing text with
  | ind length ih =>
    subst hlength
    cases text with
    | nil => exact nil
    | cons c text =>
      by_cases h : ∃ digit ∈ digits, slot digit <+: c :: text
      · obtain ⟨digit, hdigit, rest, hrest⟩ := h
        have hlt : rest.length < (c :: text).length := by
          rw [← hrest, List.length_append]
          exact Nat.lt_add_of_pos_left (by simp [slot])
        rw [← hrest]
        exact filled digit hdigit rest (ih _ hlt rest rfl)
      · have hplain : ∀ digit ∈ digits, ¬slot digit <+: c :: text :=
          fun digit hdigit hslot => h ⟨digit, hdigit, hslot⟩
        exact plain c text hplain (ih _ (Nat.lt_succ_self _) text rfl)

/-- Filling goes through all slots. -/
theorem fills_fillSlot (hdigit : digit ≠ '\x7d') (put text : List Char) :
    Fills digit put text (fillSlot digit put text) (slotCount digit text) := by
  induction text using slot_induction [digit] with
  | nil => exact .nil
  | filled other hother text ih =>
    obtain rfl := List.mem_singleton.1 hother
    rw [fillSlot_slot_append, slotCount_slot_append hdigit]
    exact .fill ih
  | plain c text h ih =>
    have hslot := h digit (List.mem_singleton_self digit)
    rw [fillSlot_cons_of_not_slot hslot, slotCount_cons_of_not_slot hslot]
    exact .keep ih

theorem eq_of_mismatches_eq_zero {s t : List Char} (hlength : s.length = t.length)
    (h : mismatches s t = 0) : s = t := by
  induction s generalizing t with
  | nil => exact (List.length_eq_zero_iff.1 hlength.symm).symm
  | cons c s ih =>
    obtain ⟨d, t, rfl⟩ := List.exists_cons_of_length_eq_add_one hlength.symm
    rw [mismatches, List.zip_cons_cons, List.countP_cons, Nat.add_eq_zero_iff] at h
    obtain ⟨hrest, hcd⟩ := h
    have hcd : c = d := by simpa using hcd
    rw [hcd, ih (Nat.succ.inj hlength) hrest]

namespace Fills

theorem append (h : Fills digit put text filled n) (kept : List Char) :
    Fills digit put (kept ++ text) (kept ++ filled) n := by
  induction kept with
  | nil => exact h
  | cons c kept ih => exact .keep ih

theorem le_slotCount (hdigit : digit ≠ '\x7d') (h : Fills digit put text filled n) :
    n ≤ slotCount digit text := by
  induction h with
  | nil => exact Nat.zero_le _
  | keep _ ih => exact ih.trans (slotCount_le_cons _ _ _)
  | fill _ ih =>
    rw [slotCount_slot_append hdigit]
    omega

/-- There is one way of filling all slots. -/
theorem eq_fillSlot_of_all (hdigit : digit ≠ '\x7d') (h : Fills digit put text filled n)
    (hall : n = slotCount digit text) : filled = fillSlot digit put text := by
  induction h with
  | nil => rfl
  | @keep c text filled n h ih =>
    have hle := h.le_slotCount hdigit
    have hslot : ¬slot digit <+: c :: text := by
      intro hslot
      rw [slotCount_cons_of_slot hslot] at hall
      omega
    rw [slotCount_cons_of_not_slot hslot] at hall
    rw [fillSlot_cons_of_not_slot hslot, ih hall]
  | fill _ ih =>
    rw [slotCount_slot_append hdigit] at hall
    rw [fillSlot_slot_append, ih (by omega)]

theorem eq_of_slot (h : Fills digit (slot digit) text filled n) : filled = text := by
  induction h with
  | nil => rfl
  | keep _ ih => rw [ih]
  | fill _ ih => rw [ih]

theorem length_eq (h : Fills digit put text filled n) :
    filled.length + 3 * n = text.length + n * put.length := by
  induction h with
  | nil => simp
  | keep _ ih =>
    simp only [List.length_cons]
    omega
  | @fill text filled n _ ih =>
    simp only [List.length_append, Nat.add_mul, slot, List.length_cons, List.length_nil]
    omega

/-- Where what is put in is as long as a slot, all else stays in its place. -/
theorem mismatches_eq (hput : (slot digit).length = put.length) (h : Fills digit put text filled n) :
    mismatches text filled = n * mismatches (slot digit) put := by
  induction h with
  | nil => simp [mismatches]
  | keep _ ih => simpa [mismatches] using ih
  | fill _ ih =>
    rw [mismatches, List.zip_append hput, List.countP_append, ← mismatches, ← mismatches, ih]
    ring

/-- Two ways of filling slots give the same only if they fill as many, or change nothing. -/
theorem count_unique (hput : put ≠ slot digit) {n' : Nat} (h : Fills digit put text filled n)
    (h' : Fills digit put text filled n') : n = n' := by
  by_cases hlength : (slot digit).length = put.length
  · have hpos : 0 < mismatches (slot digit) put := by
      rw [Nat.pos_iff_ne_zero]
      intro hzero
      exact hput (eq_of_mismatches_eq_zero hlength hzero).symm
    have heq := (h.mismatches_eq hlength).symm.trans (h'.mismatches_eq hlength)
    exact Nat.eq_of_mul_eq_mul_right hpos heq
  · have heq := h.length_eq
    have heq' := h'.length_eq
    have hne : (put.length : ℤ) - 3 ≠ 0 := by
      simp only [slot, List.length_cons, List.length_nil] at hlength
      omega
    have hproduct : ((n : ℤ) - n') * (put.length - 3) = 0 := by
      zify at heq heq'
      linarith
    have hzero := (mul_eq_zero.1 hproduct).resolve_right hne
    omega

/-- Filling some slots is filling all of them if there are no others, or if a slot is put in place of
itself. -/
theorem eq_fillSlot_iff (hdigit : digit ≠ '\x7d') (h : Fills digit put text filled n) :
    filled = fillSlot digit put text ↔ put = slot digit ∨ n = slotCount digit text := by
  have hall := fills_fillSlot hdigit put text
  constructor
  · intro heq
    by_cases hput : put = slot digit
    · exact .inl hput
    · exact .inr (h.count_unique hput (heq ▸ hall))
  · rintro (rfl | hn)
    · rw [h.eq_of_slot, hall.eq_of_slot]
    · exact h.eq_fillSlot_of_all hdigit hn

end Fills

/-! Filling two slots -/

theorem fillBoth_date_append (date time text : List Char) :
    fillBoth date time (slot '1' ++ text) = date ++ fillBoth date time text := by
  simp [slot, fillBoth]

theorem fillBoth_time_append (date time text : List Char) :
    fillBoth date time (slot '0' ++ text) = time ++ fillBoth date time text := by
  simp [slot, fillBoth]

theorem fillBoth_cons_of_not_slot {date time : List Char} {c : Char}
    (hdate : ¬slot '1' <+: c :: text) (htime : ¬slot '0' <+: c :: text) :
    fillBoth date time (c :: text) = c :: fillBoth date time text := by
  match text with
  | [] => rfl
  | [d] => rfl
  | d :: e :: rest =>
    have hne (digit : Char) (h : ¬slot digit <+: c :: d :: e :: rest) : [c, d, e] ≠ slot digit :=
      fun heq => h ⟨rest, by rw [← heq]; rfl⟩
    rw [fillBoth, if_neg (hne '1' hdate), if_neg (hne '0' htime)]

/-- Filling both slots at once fills, in the text with the date in it, as many slots for the time as
there are in the text without it. -/
theorem fills_fillBoth (date time text : List Char) :
    Fills '0' time (fillSlot '1' date text) (fillBoth date time text) (slotCount '0' text) := by
  induction text using slot_induction ['1', '0'] with
  | nil => exact .nil
  | filled digit hdigit text ih =>
    obtain rfl | rfl : digit = '1' ∨ digit = '0' := by simpa using hdigit
    · rw [fillBoth_date_append, fillSlot_slot_append,
        slotCount_other_append (by decide) (by decide)]
      exact ih.append date
    · rw [fillBoth_time_append, fillSlot_other_append (by decide) (by decide),
        slotCount_slot_append (by decide)]
      exact .fill ih
  | plain c text h ih =>
    have hdate := h '1' (by simp)
    have htime := h '0' (by simp)
    rw [fillBoth_cons_of_not_slot hdate htime, fillSlot_cons_of_not_slot hdate,
      slotCount_cons_of_not_slot htime]
    exact .keep ih

/-- The pattern of root for both in short. -/
theorem Tabled.gluePattern_root {c : Catalog} (h : Tabled c) {f : Formats}
    (hf : Formats.ofResolution (c.resolve .root) = .ok f) :
    f.gluePatterns.get .short = "\x7b1\x7d, \x7b0\x7d" := by
  obtain ⟨-, -, -, hshort⟩ := patternsOf_eq_ok_iff.1 (Formats.gluePatterns_of_ofResolution hf)
  obtain ⟨found, hfound, htext⟩ := patternOf_eq_ok_iff.1 hshort
  obtain ⟨b, hmem, hvalue⟩ := Resolution.default?_of_findDefault? hfound
  obtain ⟨b', hget, hholds⟩ := h.root
  have hown : c.get? .root = some b := by
    obtain ⟨u, hu, hget'⟩ := List.mem_filterMap.1 hmem
    obtain rfl : u = .root := List.mem_singleton.1 hu
    exact hget'
  obtain rfl : b = b' := Option.some.inj (hown.symm.trans hget)
  have hcells : ∀ cell ∈ rootTable.cells, cell.1 = "dateTimeShort" →
      cell.2 = .text "\x7b1\x7d, \x7b0\x7d" := by
    decide +kernel
  have hpattern : found.value = .text "\x7b1\x7d, \x7b0\x7d" :=
    hcells _ (hholds.mem_cells _ _ hvalue) rfl
  rw [hpattern] at htext
  exact (Option.some.inj htext).symm

/-- A date and a time are put together, as the pattern for both says, by filling its slots at once if
and only if the date makes no new slot for the time, neither by itself nor with what stands beside
it, or the time is the text of such a slot. -/
theorem Formats.glue_eq_fillBoth_iff (f : Formats) (width : Width) (date time : String) :
    f.glue width date time =
        String.ofList (fillBoth date.toList time.toList (f.gluePatterns.get width).toList) ↔
      time.toList = slot '0' ∨
        slotCount '0' (fillSlot '1' date.toList (f.gluePatterns.get width).toList) =
          slotCount '0' (f.gluePatterns.get width).toList := by
  have hboth := fills_fillBoth date.toList time.toList (f.gluePatterns.get width).toList
  rw [glue, String.ofList_inj, eq_comm, hboth.eq_fillSlot_iff (by decide)]
  exact or_congr_right eq_comm

/-- With the pattern of root, a date that is itself a slot for the time is filled with the time. -/
theorem glue_slot_as_date : ∃ c f, catalog = .ok c ∧ (Formats.resolve {} c .root).1 = .ok f ∧
    f.glue .short "\x7b0\x7d" "h:mm a" = "h:mm a, h:mm a" ∧
    String.ofList (fillBoth "\x7b0\x7d".toList "h:mm a".toList
      (f.gluePatterns.get .short).toList) = "\x7b0\x7d, h:mm a" := by
  obtain ⟨c, hc, htabled⟩ := exists_catalog
  obtain ⟨f, hf, -⟩ := htabled.exists_formats .root
  have hglue := htabled.gluePattern_root hf
  have hresolve : (Formats.resolve {} c .root).1 = .ok f := by
    rw [Formats.resolve_of_mirrors (.empty c)]
    exact hf
  refine ⟨c, f, hc, hresolve, ?_, ?_⟩
  · rw [Formats.glue, hglue]
    rfl
  · rw [hglue]
    rfl

end Localization.DateTime
