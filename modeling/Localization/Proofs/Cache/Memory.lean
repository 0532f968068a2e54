import Localization.Cache.Shared
import Localization.Proofs.Cache.Sound

namespace Localization.Cache.Memory

@[simp] theorem slot?_hit (m : Memory) (key : Key) : m.hit.slot? key = m.slot? key := rfl

@[simp] theorem slot?_miss (m : Memory) (key : Key) : m.miss.slot? key = m.slot? key := rfl

@[simp] theorem slot?_store (m : Memory) (slot : Nat) (resolution : Resolution) (key : Key) :
    (m.store slot resolution).2.slot? key = m.slot? key := rfl

@[simp] theorem stored?_hit (m : Memory) (key : Key) : m.hit.stored? key = m.stored? key := rfl

@[simp] theorem stored?_miss (m : Memory) (key : Key) : m.miss.stored? key = m.stored? key := rfl

@[simp] theorem contents_hit (m : Memory) : m.hit.contents = m.contents := rfl

@[simp] theorem contents_miss (m : Memory) : m.miss.contents = m.contents := rfl

@[simp] theorem contents_remove (m : Memory) (key : Key) : (m.remove key).contents = m.contents := rfl

@[simp] theorem contents_create (m : Memory) (key : Key) (slot : Nat) :
    (m.create key).contents slot = if slot = m.nextSlot then none else m.contents slot := rfl

@[simp] theorem contents_store (m : Memory) (slot other : Nat) (resolution : Resolution) :
    (m.store slot resolution).2.contents other =
      if other = slot then some (m.store slot resolution).1 else m.contents other := rfl

theorem slot?_create_self (m : Memory) (key : Key) : (m.create key).slot? key = some m.nextSlot := by
  simp [create, slot?]

theorem slot?_create_of_ne (m : Memory) {key other : Key} (hne : other ≠ key) :
    (m.create key).slot? other = m.slot? other := by
  have hbeq : (other == key) = false := by simpa using hne
  simp [create, slot?, List.lookup_cons, hbeq]

theorem slot?_remove_self (m : Memory) (key : Key) : (m.remove key).slot? key = none := by
  simp only [slot?, remove, List.lookup_eq_none_iff]
  intro e he
  have hne : e.1 ≠ key := by simpa using (List.mem_filter.1 he).2
  simpa using hne.symm

theorem slot?_remove_of_ne (m : Memory) {key other : Key} (hne : other ≠ key) :
    (m.remove key).slot? other = m.slot? other := by
  simp only [slot?, remove]
  induction m.slots with
  | nil => rfl
  | cons e rest ih =>
    obtain ⟨k, slot⟩ := e
    by_cases hkey : k = key
    · subst hkey
      have hbeq : (other == k) = false := by simpa using hne
      rw [List.filter_cons_of_neg (by simp), ih, List.lookup_cons, hbeq]
    · rw [List.filter_cons_of_pos (by simpa using hkey), List.lookup_cons, List.lookup_cons, ih]

/-- The map has one slot for each key and one key for each slot, and new slots get new numbers. -/
structure Wellformed (m : Memory) : Prop where
  keys : (m.slots.map (·.1)).Nodup
  slots : (m.slots.map (·.2)).Nodup
  slot_lt : ∀ e ∈ m.slots, e.2 < m.nextSlot

namespace Wellformed

variable {m : Memory}

theorem mem_slots_iff (h : m.Wellformed) {key : Key} {slot : Nat} :
    m.slot? key = some slot ↔ (key, slot) ∈ m.slots :=
  lookup_eq_some_iff_mem h.keys

theorem key_unique (h : m.Wellformed) {key other : Key} {slot : Nat}
    (hkey : m.slot? key = some slot) (hother : m.slot? other = some slot) : key = other := by
  rw [h.mem_slots_iff] at hkey hother
  exact congrArg Prod.fst (List.inj_on_of_nodup_map h.slots hkey hother rfl)

theorem slot?_lt (h : m.Wellformed) {key : Key} {slot : Nat} (hslot : m.slot? key = some slot) :
    slot < m.nextSlot :=
  h.slot_lt _ (h.mem_slots_iff.1 hslot)

theorem cleared (m : Memory) : m.clear.Wellformed := by
  constructor <;> simp [clear]

theorem create (h : m.Wellformed) {key : Key} (hslot : m.slot? key = none) :
    (m.create key).Wellformed where
  keys := by
    refine List.nodup_cons.2 ⟨fun hmem => ?_, h.keys⟩
    obtain ⟨e, he, hkey⟩ := List.mem_map.1 hmem
    obtain rfl : e.1 = key := hkey
    have hsome := h.mem_slots_iff.2 he
    simp [hslot] at hsome
  slots := by
    refine List.nodup_cons.2 ⟨fun hmem => ?_, h.slots⟩
    obtain ⟨e, he, hnext⟩ := List.mem_map.1 hmem
    have hlt := h.slot_lt e he
    simp only [hnext] at hlt
    exact Nat.lt_irrefl _ hlt
  slot_lt := by
    intro e he
    rcases List.mem_cons.1 he with rfl | he
    · exact Nat.lt_succ_self _
    · exact Nat.lt_succ_of_lt (h.slot_lt e he)

theorem remove (h : m.Wellformed) (key : Key) : (m.remove key).Wellformed where
  keys := h.keys.sublist (List.filter_sublist.map _)
  slots := h.slots.sublist (List.filter_sublist.map _)
  slot_lt := fun e he => h.slot_lt e (List.mem_filter.1 he).1

theorem hit (h : m.Wellformed) : m.hit.Wellformed := ⟨h.keys, h.slots, h.slot_lt⟩

theorem miss (h : m.Wellformed) : m.miss.Wellformed := ⟨h.keys, h.slots, h.slot_lt⟩

theorem store (h : m.Wellformed) (slot : Nat) (resolution : Resolution) :
    (m.store slot resolution).2.Wellformed := ⟨h.keys, h.slots, h.slot_lt⟩

end Wellformed

/-- A new slot for a key that had none changes nothing about what is stored. -/
theorem stored?_create {m : Memory} (h : m.Wellformed) {key : Key} (hslot : m.slot? key = none)
    (other : Key) : (m.create key).stored? other = m.stored? other := by
  by_cases hkey : other = key
  · subst hkey
    simp only [stored?, slot?_create_self, hslot, Option.bind_some, Option.bind_none]
    simp
  · simp only [stored?, slot?_create_of_ne m hkey]
    cases hother : m.slot? other with
    | none => rfl
    | some slot =>
      have hne : slot ≠ m.nextSlot := Nat.ne_of_lt (h.slot?_lt hother)
      simp [hne]

/-- Taking an empty slot out of the map changes nothing about what is stored. -/
theorem stored?_remove {m : Memory} {key : Key} {slot : Nat} (hslot : m.slot? key = some slot)
    (hempty : m.contents slot = none) (other : Key) :
    (m.remove key).stored? other = m.stored? other := by
  by_cases hkey : other = key
  · subst hkey
    simp [stored?, slot?_remove_self, hslot, hempty]
  · simp [stored?, slot?_remove_of_ne m hkey]

theorem stored?_store_self {m : Memory} {key : Key} {slot : Nat} (hslot : m.slot? key = some slot)
    (resolution : Resolution) :
    (m.store slot resolution).2.stored? key = some (m.store slot resolution).1 := by
  simp [stored?, hslot]

theorem stored?_store_of_ne {m : Memory} (h : m.Wellformed) {key other : Key} {slot : Nat}
    (hslot : m.slot? key = some slot) (hne : other ≠ key) (resolution : Resolution) :
    (m.store slot resolution).2.stored? other = m.stored? other := by
  simp only [stored?, slot?_store]
  cases hother : m.slot? other with
  | none => rfl
  | some found =>
    have hfound : found ≠ slot := by
      rintro rfl
      exact hne (h.key_unique hother hslot)
    simp [hfound]

/-- The memory holds under each key what the cache holds, with the same counters. -/
structure Represents (m : Memory) (c : Cache) : Prop where
  stored : ∀ key, m.stored? key = c.get? key
  stats : m.stats = c.stats
  serial : m.nextSerial = c.nextSerial

namespace Represents

variable {m : Memory} {c : Cache}

theorem cleared (h : m.Represents c) : m.clear.Represents c.clear where
  stored := by simp [clear, stored?, slot?]
  stats := rfl
  serial := h.serial

theorem hit (h : m.Represents c) : m.hit.Represents c.hit where
  stored := h.stored
  stats := by simp only [Memory.hit, h.stats]; rfl
  serial := h.serial

theorem miss (h : m.Represents c) : m.miss.Represents c.miss where
  stored := h.stored
  stats := by simp only [Memory.miss, h.stats]; rfl
  serial := h.serial

/-- Filling the slot of a key is storing under the key. -/
theorem store (h : m.Represents c) (hm : m.Wellformed) {key : Key} {slot : Nat}
    (hslot : m.slot? key = some slot) (resolution : Resolution) :
    (m.store slot resolution).1 = (c.store key resolution).1 ∧
      (m.store slot resolution).2.Represents (c.store key resolution).2 := by
  have hstored : (m.store slot resolution).1 = (c.store key resolution).1 := by
    simp only [Memory.store, Cache.store, h.serial]
  refine ⟨hstored, ?_, ?_, ?_⟩
  · intro other
    by_cases hkey : other = key
    · subst hkey
      rw [stored?_store_self hslot, get?_store_self, hstored]
    · rw [stored?_store_of_ne hm hslot hkey, get?_store_of_ne c hkey, h.stored]
  · simp only [Memory.store, h.stats]
    rfl
  · simp only [Memory.store, Cache.store, h.serial]

theorem create (h : m.Represents c) (hm : m.Wellformed) {key : Key} (hslot : m.slot? key = none) :
    (m.create key).Represents c where
  stored := fun other => (stored?_create hm hslot other).trans (h.stored other)
  stats := h.stats
  serial := h.serial

theorem remove (h : m.Represents c) {key : Key} {slot : Nat} (hslot : m.slot? key = some slot)
    (hempty : m.contents slot = none) : (m.remove key).Represents c where
  stored := fun other => (stored?_remove hslot hempty other).trans (h.stored other)
  stats := h.stats
  serial := h.serial

theorem release {ε : Type} (h : m.Represents c) (callers : List (Caller ε)) (key : Key)
    (slot : Nat) : (m.release callers key slot).Represents c := by
  unfold Memory.release
  split
  · rename_i hcond
    exact h.remove hcond.1 hcond.2.2
  · exact h

end Represents

end Localization.Cache.Memory
