import Localization.Cache

namespace Localization.Cache

/-- What a call of a shared cache is for: the resolution under its key, computed if need be, or
what is stored there already. -/
inductive Wish where
  | fetch
  | get
deriving DecidableEq

inductive Answer (ε : Type) where
  | found (stored : Stored)
  | computed (stored : Stored)
  | failed (error : ε)
  | brokenOff
  | read (stored? : Option Stored)

namespace Answer

variable {ε : Type}

def stored? : Answer ε → Option Stored
  | found stored => some stored
  | computed stored => some stored
  | failed _ => none
  | brokenOff => none
  | read stored? => stored?

def isComputed : Answer ε → Bool
  | computed _ => true
  | _ => false

end Answer

/-- How far a call has come. It has a handle of its slot from the time it looked at the map until it
drops the handle, and the lock of that slot while it checks, computes and stores. -/
inductive Phase (ε : Type) where
  | entered
  | waiting (slot : Nat)
  | computing (slot : Nat)
  | storing (slot : Nat) (resolution : Resolution)
  | failing (slot : Nat) (error : ε)
  /-- The computation failed and the lock is free again, but the slot is still to be looked after. -/
  | releasing (slot : Nat) (error : ε)
  /-- The answer is known; the lock is not free yet. -/
  | answered (slot : Nat) (answer : Answer ε)
  /-- The lock is free; the handle is not dropped yet. -/
  | leaving (slot : Nat) (answer : Answer ε)
  | returned (answer : Answer ε)

namespace Phase

variable {ε : Type}

/-- The slot that the call has a handle of. -/
def slot? : Phase ε → Option Nat
  | entered => none
  | waiting slot => some slot
  | computing slot => some slot
  | storing slot _ => some slot
  | failing slot _ => some slot
  | releasing slot _ => some slot
  | answered slot _ => some slot
  | leaving slot _ => some slot
  | returned _ => none

/-- The slot whose lock the call has. -/
def locked? : Phase ε → Option Nat
  | computing slot => some slot
  | storing slot _ => some slot
  | failing slot _ => some slot
  | answered slot _ => some slot
  | _ => none

/-- The slot that the call may still read or fill, or has to look after. -/
def attached? : Phase ε → Option Nat
  | leaving _ _ => none
  | phase => phase.slot?

/-- The slot that the call found empty and has locked since. -/
def vacant? : Phase ε → Option Nat
  | computing slot => some slot
  | storing slot _ => some slot
  | failing slot _ => some slot
  | _ => none

def answer? : Phase ε → Option (Answer ε)
  | answered _ answer => some answer
  | leaving _ answer => some answer
  | returned answer => some answer
  | _ => none

def isReturned : Phase ε → Bool
  | returned _ => true
  | _ => false

end Phase

structure Caller (ε : Type) where
  key : Key
  wish : Wish
  phase : Phase ε

namespace Caller

variable {ε : Type}

def stored? (caller : Caller ε) : Option Stored :=
  caller.phase.answer?.bind Answer.stored?

/-- Whether the call's own computation succeeded and was stored. -/
def succeeded (caller : Caller ε) : Bool :=
  caller.phase.answer?.any Answer.isComputed

end Caller

/-- What the callers of a cache share: the map from keys to slots, what the slots hold, and the
counters. Slots are known by number; a number is never given to a second slot. -/
structure Memory where
  slots : List (Key × Nat) := []
  contents : Nat → Option Stored := fun _ => none
  nextSlot : Nat := 0
  stats : Stats := ⟨0, 0, 0, 0⟩
  nextSerial : Nat := 0

namespace Memory

def slot? (m : Memory) (key : Key) : Option Nat :=
  m.slots.lookup key

def stored? (m : Memory) (key : Key) : Option Stored :=
  (m.slot? key).bind m.contents

def clear (m : Memory) : Memory where
  nextSlot := m.nextSlot
  nextSerial := m.nextSerial

def create (m : Memory) (key : Key) : Memory :=
  { m with
    slots := (key, m.nextSlot) :: m.slots
    contents := fun slot => if slot = m.nextSlot then none else m.contents slot
    nextSlot := m.nextSlot + 1 }

def hit (m : Memory) : Memory :=
  { m with stats := { m.stats with hits := m.stats.hits + 1 } }

def miss (m : Memory) : Memory :=
  { m with stats := { m.stats with misses := m.stats.misses + 1 } }

/-- The slot filled with a resolution, and what it now holds. -/
def store (m : Memory) (slot : Nat) (resolution : Resolution) : Stored × Memory :=
  let stored := { serial := m.nextSerial, resolution }
  (stored,
    { m with
      contents := fun other => if other = slot then some stored else m.contents other
      stats := { m.stats with
        entries := m.stats.entries + 1
        computations := m.stats.computations + 1 }
      nextSerial := m.nextSerial + 1 })

def remove (m : Memory) (key : Key) : Memory :=
  { m with slots := m.slots.filter (·.1 ≠ key) }

variable {ε : Type}

/-- How many handles of a slot there are, in the map and with the callers. -/
def handles (m : Memory) (callers : List (Caller ε)) (slot : Nat) : Nat :=
  m.slots.countP (·.2 = slot) + callers.countP (·.phase.slot? = some slot)

/-- Takes the slot of a failed computation out of the map, unless the map has another one for the
key by now, or a third handle of it is around, or it was filled. -/
def release (m : Memory) (callers : List (Caller ε)) (key : Key) (slot : Nat) : Memory :=
  if m.slot? key = some slot ∧ m.handles callers slot = 2 ∧ m.contents slot = none then m.remove key
  else m

end Memory

variable {ε : Type}

def Unlocked (callers : List (Caller ε)) (slot : Nat) : Prop :=
  ∀ caller ∈ callers, caller.phase.locked? ≠ some slot

instance (callers : List (Caller ε)) (slot : Nat) : Decidable (Unlocked callers slot) :=
  inferInstanceAs (Decidable (∀ caller ∈ callers, caller.phase.locked? ≠ some slot))

/-- One step of one call, taken while the callers are at the given phases. The steps that look at
the map happen under the lock of the map, so that each of them is one whole. -/
inductive Moves (callers : List (Caller ε)) :
    Memory → Caller ε → Memory → Caller ε → Prop where
  | findSlot {m key wish slot} (hslot : m.slot? key = some slot) :
      Moves callers m ⟨key, wish, .entered⟩ m ⟨key, wish, .waiting slot⟩
  | createSlot {m key} (hslot : m.slot? key = none) :
      Moves callers m ⟨key, .fetch, .entered⟩ (m.create key) ⟨key, .fetch, .waiting m.nextSlot⟩
  | findNothing {m key} (hslot : m.slot? key = none) :
      Moves callers m ⟨key, .get, .entered⟩ m ⟨key, .get, .returned (.read none)⟩
  | hit {m key slot stored} (hlock : Unlocked callers slot) (hfull : m.contents slot = some stored) :
      Moves callers m ⟨key, .fetch, .waiting slot⟩ m.hit ⟨key, .fetch, .answered slot (.found stored)⟩
  | miss {m key slot} (hlock : Unlocked callers slot) (hempty : m.contents slot = none) :
      Moves callers m ⟨key, .fetch, .waiting slot⟩ m.miss ⟨key, .fetch, .computing slot⟩
  | read {m key slot} (hlock : Unlocked callers slot) :
      Moves callers m ⟨key, .get, .waiting slot⟩ m
        ⟨key, .get, .answered slot (.read (m.contents slot))⟩
  | succeed {m key wish slot} (resolution : Resolution) :
      Moves callers m ⟨key, wish, .computing slot⟩ m ⟨key, wish, .storing slot resolution⟩
  | fail {m key wish slot} (error : ε) :
      Moves callers m ⟨key, wish, .computing slot⟩ m ⟨key, wish, .failing slot error⟩
  | breakOff {m key wish slot} :
      Moves callers m ⟨key, wish, .computing slot⟩ m ⟨key, wish, .answered slot .brokenOff⟩
  | store {m key wish slot resolution} :
      Moves callers m ⟨key, wish, .storing slot resolution⟩ (m.store slot resolution).2
        ⟨key, wish, .answered slot (.computed (m.store slot resolution).1)⟩
  | unlockFailed {m key wish slot error} :
      Moves callers m ⟨key, wish, .failing slot error⟩ m ⟨key, wish, .releasing slot error⟩
  /-- Only a slot that may have to go is locked, to see whether it is empty. -/
  | release {m key wish slot error}
      (hlock : m.slot? key = some slot → m.handles callers slot = 2 → Unlocked callers slot) :
      Moves callers m ⟨key, wish, .releasing slot error⟩ (m.release callers key slot)
        ⟨key, wish, .leaving slot (.failed error)⟩
  | unlock {m key wish slot answer} :
      Moves callers m ⟨key, wish, .answered slot answer⟩ m ⟨key, wish, .leaving slot answer⟩
  | drop {m key wish slot answer} :
      Moves callers m ⟨key, wish, .leaving slot answer⟩ m ⟨key, wish, .returned answer⟩

/-- A cache that any number of calls use at once, those that are over included. -/
structure Shared (ε : Type) where
  memory : Memory
  callers : List (Caller ε)

namespace Shared

/-- A new call comes in, or one of the calls takes a step. -/
inductive Step : Shared ε → Shared ε → Prop where
  | enter (s : Shared ε) (key : Key) (wish : Wish) :
      Step s { s with callers := s.callers ++ [⟨key, wish, .entered⟩] }
  | move {m m' : Memory} {caller caller' : Caller ε} (before after : List (Caller ε))
      (hmove : Moves (before ++ caller :: after) m caller m' caller') :
      Step ⟨m, before ++ caller :: after⟩ ⟨m', before ++ caller' :: after⟩

/-- The states that calls in any order lead to from an empty cache. -/
inductive Reachable : Shared ε → Prop where
  | start (m : Memory) : Reachable ⟨m.clear, []⟩
  | step {s s' : Shared ε} (h : Reachable s) (hstep : Step s s') : Reachable s'

end Shared

end Localization.Cache
