import Localization.Cache

namespace Localization.Cache

/-- A call for the resolution under a key: the computation that came with it and the cache as the
call found it. -/
structure Call (ε : Type) where
  key : Key
  compute : Compute ε
  before : Cache

variable {ε : Type}

namespace Call

/-- Whether nothing was stored under the key, so that the computation ran. -/
def ran (call : Call ε) : Bool :=
  (call.before.get? call.key).isNone

def outcome (call : Call ε) : Outcome ε Stored :=
  (call.before.fetch call.key call.compute).1

def after (call : Call ε) : Cache :=
  (call.before.fetch call.key call.compute).2

def succeeded (call : Call ε) : Bool :=
  call.ran && call.outcome.isDone

end Call

/-- The calls that running a computation makes, to any depth, in the order in which they end. -/
def Compute.calls : Compute ε → Cache → List (Call ε)
  | done _, _ => []
  | fail _, _ => []
  | breakOff, _ => []
  | nested key inner next, c =>
    let call : Call ε := ⟨key, inner, c⟩
    (if call.ran then inner.calls c.miss else []) ++
      call :: if call.outcome.isBrokenOff then [] else next.calls call.after

namespace Call

/-- The calls that the call's own computation made, to any depth, in the order in which they
ended. -/
def inner (call : Call ε) : List (Call ε) :=
  if call.ran then call.compute.calls call.before.miss else []

/-- The call after all calls that its computation made. -/
def unfold (call : Call ε) : List (Call ε) :=
  call.inner ++ [call]

/-- No call was made for the key while it was being computed. -/
def Grounded (call : Call ε) : Prop :=
  ∀ inner ∈ call.inner, inner.key ≠ call.key

instance (call : Call ε) : Decidable call.Grounded :=
  inferInstanceAs (Decidable (∀ inner ∈ call.inner, inner.key ≠ call.key))

end Call

theorem Compute.calls_nested (key : Key) (inner next : Compute ε) (c : Cache) :
    (nested key inner next).calls c = (⟨key, inner, c⟩ : Call ε).unfold ++
      if (⟨key, inner, c⟩ : Call ε).outcome.isBrokenOff then []
      else next.calls (⟨key, inner, c⟩ : Call ε).after := by
  simp [calls, Call.unfold, Call.inner]

theorem Compute.run_nested (key : Key) (inner next : Compute ε) (c : Cache) :
    ((nested key inner next).run c).2 =
      if (⟨key, inner, c⟩ : Call ε).outcome.isBrokenOff then (⟨key, inner, c⟩ : Call ε).after
      else (next.run (⟨key, inner, c⟩ : Call ε).after).2 := by
  simp only [run, Call.outcome, Call.after, fetch]
  split
  · rename_i c' hfetch
    simp [hfetch]
  · rename_i outcome c' hbroke hfetch
    cases outcome with
    | done stored => simp [hfetch]
    | failed error => simp [hfetch]
    | brokenOff => exact absurd rfl hbroke

/-- Resolving a locale through the cache is a call with a computation that resolves it. -/
theorem fetch_done_resolve (c : Cache) (catalog : Catalog) (locale : Locale) :
    c.fetch ⟨catalog.interface, locale⟩ (.done (catalog.resolve locale) : Compute ε) =
      (.done (c.resolve catalog locale).1, (c.resolve catalog locale).2) := by
  simp only [resolve, fetch, fetchWith, Compute.run]
  split <;> simp [*]

/-- What the owner of a cache can do with it. -/
inductive Operation (ε : Type) where
  | resolve (catalog : Catalog) (locale : Locale)
  | fetch (key : Key) (compute : Compute ε)
  | get (key : Key)
  | clear

namespace Operation

def isClear : Operation ε → Bool
  | clear => true
  | _ => false

/-- The call that the operation makes; a computation that resolves a locale cannot fail. -/
def call? : Operation ε → Cache → Option (Call ε)
  | resolve catalog locale, c =>
    some ⟨⟨catalog.interface, locale⟩, .done (catalog.resolve locale), c⟩
  | fetch key compute, c => some ⟨key, compute, c⟩
  | get _, _ => none
  | clear, _ => none

/-- The calls of the operation, nested ones included, in the order in which they end. -/
def calls (operation : Operation ε) (c : Cache) : List (Call ε) :=
  (operation.call? c).elim [] Call.unfold

/-- What the operation answers with if it makes a call. -/
def answer? : Operation ε → Cache → Option (Outcome ε Stored)
  | resolve catalog locale, c => some (.done (c.resolve catalog locale).1)
  | fetch key compute, c => some (c.fetch key compute).1
  | get _, _ => none
  | clear, _ => none

def apply : Operation ε → Cache → Cache
  | resolve catalog locale, c => (c.resolve catalog locale).2
  | fetch key compute, c => (c.fetch key compute).2
  | get _, c => c
  | clear, c => c.clear

end Operation

/-- The cache after some operations, executed one after another. -/
def run (operations : List (Operation ε)) (c : Cache) : Cache :=
  operations.foldl (fun c operation => operation.apply c) c

/-- The calls of some operations, nested ones included, in the order in which they end. -/
def callsOf : List (Operation ε) → Cache → List (Call ε)
  | [], _ => []
  | operation :: rest, c => operation.calls c ++ callsOf rest (operation.apply c)

end Localization.Cache
