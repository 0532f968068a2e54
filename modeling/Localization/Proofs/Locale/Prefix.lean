import Localization.Proofs.Locale.Chain
import Mathlib.Data.List.Chain

namespace Localization.Locale

/-- Some slots with their first `k` subtags where they are, and no other subtag. -/
def keepSlots : Nat → List String → List String
  | _, [] => []
  | k, slot :: rest =>
    if slot = "" then "" :: keepSlots k rest
    else
      match k with
      | 0 => "" :: keepSlots 0 rest
      | k + 1 => slot :: keepSlots k rest

theorem length_keepSlots (k : Nat) (slots : List String) :
    (keepSlots k slots).length = slots.length := by
  fun_induction keepSlots k slots <;> simp [*]

theorem keepSlots_zero (slots : List String) : keepSlots 0 slots = slots.map fun _ => "" := by
  induction slots with
  | nil => rfl
  | cons slot rest ih => simp [keepSlots, ih]

theorem filter_keepSlots (k : Nat) (slots : List String) :
    (keepSlots k slots).filter (· ≠ "") = (slots.filter (· ≠ "")).take k := by
  induction slots generalizing k with
  | nil => simp [keepSlots]
  | cons slot rest ih =>
    by_cases hslot : slot = ""
    · simpa [keepSlots, hslot] using ih k
    · cases k with
      | zero => simpa [keepSlots, hslot] using ih 0
      | succ k => simpa [keepSlots, hslot] using ih k

/-- Keeping as many subtags as some slots hold keeps just these slots. -/
theorem keepSlots_append (slots rest : List String) :
    keepSlots (slots.filter (· ≠ "")).length (slots ++ rest) = slots ++ rest.map fun _ => "" := by
  induction slots with
  | nil => exact keepSlots_zero rest
  | cons slot slots ih => by_cases hslot : slot = "" <;> simpa [keepSlots, hslot] using ih

theorem keepSlots_keepSlots {j k : Nat} (h : j ≤ k) (slots : List String) :
    keepSlots j (keepSlots k slots) = keepSlots j slots := by
  induction slots generalizing j k with
  | nil => rfl
  | cons slot rest ih =>
    by_cases hslot : slot = ""
    · simp [keepSlots, hslot, ih h]
    · cases k with
      | zero =>
        obtain rfl : j = 0 := by omega
        simp [keepSlots, hslot, ih h]
      | succ k =>
        cases j with
        | zero => simp [keepSlots, hslot, ih (Nat.zero_le k)]
        | succ j => simp [keepSlots, hslot, ih (Nat.le_of_succ_le_succ h)]

/-- The tag of four slots. -/
def ofSlots (slots : List String) : Locale where
  language := slots.getD 0 ""
  script := slots.getD 1 ""
  region := slots.getD 2 ""
  variant := slots.getD 3 ""

/-- The tag that has the first `k` subtags of `t`, each in its slot, and no other. -/
def keepFirst (t : Locale) (k : Nat) : Locale :=
  ofSlots (keepSlots k t.subtags)

variable {t p u : Locale}

theorem ofSlots_subtags (t : Locale) : ofSlots t.subtags = t := rfl

theorem subtags_ofSlots {slots : List String} (h : slots.length = 4) :
    (ofSlots slots).subtags = slots := by
  obtain ⟨language, script, region, variant, rfl⟩ := List.length_eq_four.1 h
  rfl

theorem subtags_keepFirst (t : Locale) (k : Nat) :
    (t.keepFirst k).subtags = keepSlots k t.subtags :=
  subtags_ofSlots (length_keepSlots k t.subtags)

theorem presentSubtags_keepFirst (t : Locale) (k : Nat) :
    (t.keepFirst k).presentSubtags = t.presentSubtags.take k := by
  rw [presentSubtags, subtags_keepFirst, filter_keepSlots]
  rfl

theorem keepFirst_specificity (t : Locale) : t.keepFirst t.specificity = t := by
  have hslots : keepSlots t.specificity t.subtags = t.subtags := by
    simpa [specificity, presentSubtags] using keepSlots_append t.subtags []
  rw [keepFirst, hslots, ofSlots_subtags]

theorem keepFirst_keepFirst {j k : Nat} (h : j ≤ k) (t : Locale) :
    (t.keepFirst k).keepFirst j = t.keepFirst j := by
  rw [keepFirst, subtags_keepFirst, keepSlots_keepSlots h, keepFirst]

/-- A parent has the slots before the one with the last subtag, and no subtag in the others. -/
theorem exists_slots_of_parent? (h : t.parent? = some p) :
    ∃ slots rest, t.subtags = slots ++ rest ∧ p.subtags = slots ++ rest.map fun _ => "" := by
  unfold parent? at h
  split at h
  · cases h
    exact ⟨[t.language, t.script, t.region], [t.variant], rfl, rfl⟩
  · rename_i hvariant
    rw [ne_eq, Decidable.not_not] at hvariant
    split at h
    · cases h
      exact ⟨[t.language, t.script], [t.region, t.variant], rfl, by simp [subtags, hvariant]⟩
    · rename_i hregion
      rw [ne_eq, Decidable.not_not] at hregion
      split at h
      · cases h
        exact ⟨[t.language], [t.script, t.region, t.variant], rfl, by
          simp [subtags, hvariant, hregion]⟩
      · rename_i hscript
        rw [ne_eq, Decidable.not_not] at hscript
        split at h
        · cases h
          exact ⟨[], t.subtags, rfl, by simp [subtags, hvariant, hregion, hscript]⟩
        · cases h

theorem eq_keepFirst_of_parent? (h : t.parent? = some p) : p = t.keepFirst p.specificity := by
  obtain ⟨slots, rest, ht, hp⟩ := exists_slots_of_parent? h
  have hcount : p.specificity = (slots.filter (· ≠ "")).length := by
    simp [specificity, presentSubtags, hp]
  rw [keepFirst, hcount, ht, keepSlots_append, ← hp, ofSlots_subtags]

/-- A chain keeps all of a tag's subtags, then one less in each step. -/
theorem chain_eq_map_keepFirst (t : Locale) :
    t.chain = (List.range (t.specificity + 1)).reverse.map t.keepFirst := by
  induction t using induction_on_parent with
  | root => rfl
  | step t p hparent ih =>
    have hless := specificity_of_parent? hparent
    have hrest : ∀ k ∈ (List.range (p.specificity + 1)).reverse,
        p.keepFirst k = t.keepFirst k := by
      intro k hk
      have hle : k ≤ p.specificity := by simpa [Nat.lt_succ_iff] using hk
      rw [eq_keepFirst_of_parent? hparent, keepFirst_keepFirst hle]
    calc
      t.chain = t.keepFirst t.specificity :: p.chain := by
        rw [chain_of_parent? hparent, keepFirst_specificity]
      _ = t.keepFirst t.specificity ::
          (List.range (p.specificity + 1)).reverse.map t.keepFirst := by
        rw [ih, List.map_congr_left hrest]
      _ = (List.range (t.specificity + 1)).reverse.map t.keepFirst := by
        rw [List.range_succ (n := t.specificity), List.reverse_append, hless]
        rfl

theorem getLast?_chain (t : Locale) : t.chain.getLast? = some root := by
  induction t using induction_on_parent with
  | root => rfl
  | step t p hparent ih =>
    rw [chain_of_parent? hparent, List.getLast?_cons, ih]
    rfl

theorem isChain_specificity_chain (t : Locale) :
    t.chain.IsChain fun u v => u.specificity = v.specificity + 1 := by
  induction t using induction_on_parent with
  | root => exact .singleton root
  | step t p hparent ih =>
    rw [chain_of_parent? hparent]
    exact .cons_cons (specificity_of_parent? hparent) ih

/-- From each of its locales on, a chain is the chain of that locale. -/
theorem chain_of_append {before after : List Locale} (h : t.chain = before ++ u :: after) :
    u.chain = u :: after := by
  induction t using induction_on_parent generalizing before with
  | root =>
    rw [chain_of_no_parent rfl, List.singleton_eq_append_iff] at h
    rcases h with ⟨-, hroot⟩ | ⟨-, hnil⟩
    · obtain ⟨rfl, rfl⟩ := List.cons.inj hroot
      rfl
    · cases hnil
  | step t p hparent ih =>
    have hchain := chain_of_parent? hparent
    cases before with
    | nil =>
      obtain ⟨rfl, -⟩ := List.cons.inj (hchain.symm.trans h)
      exact h
    | cons first before =>
      obtain ⟨-, hrest⟩ := List.cons.inj (hchain.symm.trans h)
      exact ih hrest

/-- The chain of a tag with `n` subtags lists the tags that keep the first `k` of them, each in its
slot, for `k` from `n` down to none. It starts with the tag, ends in root, loses one subtag in each
step and has no locale twice, and from each of its locales on it is the chain of that locale. -/
theorem chain_keeps_first (t : Locale) :
    t.chain = (List.range (t.presentSubtags.length + 1)).reverse.map t.keepFirst ∧
      (∀ k, (t.keepFirst k).subtags = keepSlots k t.subtags ∧
        (t.keepFirst k).presentSubtags = t.presentSubtags.take k) ∧
      t.chain.head? = some t ∧ t.chain.getLast? = some root ∧
      t.chain.length = t.specificity + 1 ∧
      t.chain.IsChain (fun u v => u.specificity = v.specificity + 1) ∧
      t.chain.Nodup ∧
      ∀ before u after, t.chain = before ++ u :: after → u.chain = u :: after := by
  have hlength : t.chain.length = t.specificity + 1 := by
    simpa using congrArg List.length (chain_eq_map_keepFirst t)
  exact ⟨chain_eq_map_keepFirst t,
    fun k => ⟨subtags_keepFirst t k, presentSubtags_keepFirst t k⟩,
    rfl, getLast?_chain t, hlength, isChain_specificity_chain t, nodup_chain t,
    fun _ _ _ => chain_of_append⟩

/-- An empty slot is no step of its own. -/
example : ({ language := "az", region := "AZ", variant := "x" } : Locale).chain =
    [⟨"az", "", "AZ", "x"⟩, ⟨"az", "", "AZ", ""⟩, ⟨"az", "", "", ""⟩, root] := by
  decide

end Localization.Locale
