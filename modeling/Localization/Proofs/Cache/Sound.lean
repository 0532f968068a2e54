import Localization.Cache.Operation
import Mathlib.Data.Set.Card

namespace Localization

/-- In a list with one pair for each key, the pairs are what looking up their keys finds. -/
theorem lookup_eq_some_iff_mem {α β : Type} [BEq α] [LawfulBEq α] {pairs : List (α × β)}
    (hkeys : (pairs.map (·.1)).Nodup) {a : α} {b : β} :
    pairs.lookup a = some b ↔ (a, b) ∈ pairs := by
  induction pairs with
  | nil => simp
  | cons e rest ih =>
    obtain ⟨a', b'⟩ := e
    rw [List.map_cons, List.nodup_cons] at hkeys
    by_cases ha : a = a'
    · subst ha
      have hnot : (a, b) ∉ rest := fun hmem => hkeys.1 (List.mem_map.2 ⟨_, hmem, rfl⟩)
      simp [hnot, eq_comm]
    · have hbeq : (a == a') = false := by simpa using ha
      simp [List.lookup_cons, hbeq, ha, ih hkeys.2]

namespace Cache

@[simp] theorem get?_hit (c : Cache) (key : Key) : c.hit.get? key = c.get? key := rfl

@[simp] theorem get?_miss (c : Cache) (key : Key) : c.miss.get? key = c.get? key := rfl

@[simp] theorem get?_clear (c : Cache) (key : Key) : c.clear.get? key = none := rfl

theorem get?_store_self (c : Cache) (key : Key) (resolution : Resolution) :
    (c.store key resolution).2.get? key = some (c.store key resolution).1 := by
  simp [store, get?]

theorem get?_store_of_ne (c : Cache) {key other : Key} (hne : other ≠ key)
    (resolution : Resolution) : (c.store key resolution).2.get? other = c.get? other := by
  have hbeq : (other == key) = false := by simpa using hne
  simp [store, get?, List.lookup_cons, hbeq]

theorem get?_eq_none_iff (c : Cache) (key : Key) :
    c.get? key = none ↔ key ∉ c.slots.map (·.1) := by
  simp only [get?, List.lookup_eq_none_iff, List.mem_map, not_exists, not_and]
  constructor
  · intro h e he hk
    simpa [hk] using h e he
  · intro h e he
    simpa using fun hk : key = e.1 => h e he hk.symm

/-- A cache that was filled from empty has one entry for each key, no serial number twice, and
counters that agree with its entries. -/
structure Sound (c : Cache) : Prop where
  keys : (c.slots.map (·.1)).Nodup
  serials : (c.slots.map (·.2.serial)).Nodup
  serial_lt : ∀ e ∈ c.slots, e.2.serial < c.nextSerial
  entries : c.entries = c.slots.length
  computations : c.computations = c.slots.length

namespace Sound

theorem cleared (c : Cache) : c.clear.Sound := by
  constructor <;> simp [clear]

variable {c : Cache}

theorem hit (h : c.Sound) : c.hit.Sound := ⟨h.keys, h.serials, h.serial_lt, h.entries, h.computations⟩

theorem miss (h : c.Sound) : c.miss.Sound := ⟨h.keys, h.serials, h.serial_lt, h.entries, h.computations⟩

/-- Storing keeps a cache sound if nothing is stored under the key yet. -/
theorem store (h : c.Sound) {key : Key} (habsent : c.get? key = none) (resolution : Resolution) :
    (c.store key resolution).2.Sound where
  keys := List.nodup_cons.2 ⟨(get?_eq_none_iff c key).1 habsent, h.keys⟩
  serials := by
    refine List.nodup_cons.2 ⟨fun hmem => ?_, h.serials⟩
    obtain ⟨e, he, hserial⟩ := List.mem_map.1 hmem
    have hlt := h.serial_lt e he
    simp only [hserial] at hlt
    exact Nat.lt_irrefl _ hlt
  serial_lt := by
    intro e he
    rcases List.mem_cons.1 he with rfl | he
    · exact Nat.lt_succ_self _
    · exact Nat.lt_succ_of_lt (h.serial_lt e he)
  entries := congrArg Nat.succ h.entries
  computations := congrArg Nat.succ h.computations

theorem get?_eq_some_iff (h : c.Sound) (key : Key) (stored : Stored) :
    c.get? key = some stored ↔ (key, stored) ∈ c.slots :=
  lookup_eq_some_iff_mem h.keys

/-- Resolutions under different keys are different resolutions. -/
theorem key_unique (h : c.Sound) {key other : Key} {stored found : Stored}
    (hstored : c.get? key = some stored) (hfound : c.get? other = some found)
    (hserial : stored.serial = found.serial) : key = other := by
  rw [h.get?_eq_some_iff] at hstored hfound
  have heq := List.inj_on_of_nodup_map h.serials hstored hfound hserial
  exact congrArg Prod.fst heq

/-- The counter of entries is the number of keys under which something is stored. -/
theorem encard_filled (h : c.Sound) :
    {key : Key | (c.get? key).isSome}.encard = c.stats.entries := by
  have hkeys : {key : Key | (c.get? key).isSome} = ((c.slots.map (·.1)).toFinset : Set Key) := by
    ext key
    have hiff := not_congr (get?_eq_none_iff c key)
    rw [not_not, ← ne_eq, Option.ne_none_iff_isSome] at hiff
    simpa using hiff
  rw [hkeys, Set.encard_coe_eq_coe_finsetCard, List.toFinset_card_of_nodup h.keys, List.length_map]
  exact congrArg _ h.entries.symm

end Sound

end Cache

end Localization
