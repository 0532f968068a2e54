import Localization.Resolution

namespace Localization

namespace Cache

/-- What a resolution is kept under: the interface and the requested locale. -/
structure Key where
  interface : Interface
  locale : Locale
deriving DecidableEq

/-- A resolution in a cache. The serial number tells it from all others the cache ever stored. -/
structure Stored where
  serial : Nat
  resolution : Resolution
deriving DecidableEq

/-- How a call or a computation ends: with a result, with an error, or with neither because the
computation broke off. -/
inductive Outcome (ε α : Type) where
  | done (result : α)
  | failed (error : ε)
  | brokenOff

namespace Outcome

variable {ε α : Type}

def isDone : Outcome ε α → Bool
  | done _ => true
  | _ => false

def isFailed : Outcome ε α → Bool
  | failed _ => true
  | _ => false

def isBrokenOff : Outcome ε α → Bool
  | brokenOff => true
  | _ => false

@[simp] theorem isDone_done (a : α) : (done a : Outcome ε α).isDone = true := rfl
@[simp] theorem isDone_failed (e : ε) : (failed e : Outcome ε α).isDone = false := rfl
@[simp] theorem isDone_brokenOff : (brokenOff : Outcome ε α).isDone = false := rfl
@[simp] theorem isFailed_done (a : α) : (done a : Outcome ε α).isFailed = false := rfl
@[simp] theorem isFailed_failed (e : ε) : (failed e : Outcome ε α).isFailed = true := rfl
@[simp] theorem isFailed_brokenOff : (brokenOff : Outcome ε α).isFailed = false := rfl
@[simp] theorem isBrokenOff_done (a : α) : (done a : Outcome ε α).isBrokenOff = false := rfl
@[simp] theorem isBrokenOff_failed (e : ε) : (failed e : Outcome ε α).isBrokenOff = false := rfl
@[simp] theorem isBrokenOff_brokenOff : (brokenOff : Outcome ε α).isBrokenOff = true := rfl

end Outcome

/-- A computation of a resolution. It may first call the cache for another key; how that call ends
matters only if it breaks off. -/
inductive Compute (ε : Type) where
  | done (resolution : Resolution)
  | fail (error : ε)
  | breakOff
  | nested (key : Key) (inner next : Compute ε)
deriving Inhabited

/-- The counters of a cache and the number of resolutions in it. -/
structure Stats where
  entries : Nat
  hits : Nat
  misses : Nat
  computations : Nat
deriving DecidableEq

end Cache

/-- Resolutions that were computed before, with counts of the calls that found one, of those that
did not, and of the computations that succeeded. -/
structure Cache where
  slots : List (Cache.Key × Cache.Stored) := []
  entries : Nat := 0
  hits : Nat := 0
  misses : Nat := 0
  computations : Nat := 0
  /-- The serial number of the next resolution; emptying the cache does not set it back. -/
  nextSerial : Nat := 0
deriving DecidableEq

namespace Cache

def get? (c : Cache) (key : Key) : Option Stored :=
  c.slots.lookup key

/-- The number of stored resolutions, counted as they come in. -/
def size (c : Cache) : Nat :=
  c.entries

def stats (c : Cache) : Stats where
  entries := c.size
  hits := c.hits
  misses := c.misses
  computations := c.computations

/-- The cache without resolutions and with its counters at zero. -/
def clear (c : Cache) : Cache where
  nextSerial := c.nextSerial

def hit (c : Cache) : Cache :=
  { c with hits := c.hits + 1 }

def miss (c : Cache) : Cache :=
  { c with misses := c.misses + 1 }

/-- The cache after a computation succeeded, and what it now stores under the key. -/
def store (c : Cache) (key : Key) (resolution : Resolution) : Stored × Cache :=
  let stored := { serial := c.nextSerial, resolution }
  (stored,
    { c with
      slots := (key, stored) :: c.slots
      entries := c.entries + 1
      computations := c.computations + 1
      nextSerial := c.nextSerial + 1 })

variable {ε : Type}

/-- Answers from the cache, or else runs the computation on it and stores what comes out. A
computation that fails or breaks off stores nothing under the key, but counts as a miss. -/
def fetchWith (c : Cache) (key : Key) (compute : Cache → Outcome ε Resolution × Cache) :
    Outcome ε Stored × Cache :=
  match c.get? key with
  | some stored => (.done stored, c.hit)
  | none =>
    match compute c.miss with
    | (.done resolution, c) =>
      let (stored, c) := c.store key resolution
      (.done stored, c)
    | (.failed error, c) => (.failed error, c)
    | (.brokenOff, c) => (.brokenOff, c)

/-- Runs a computation on the cache that called it. -/
def Compute.run : Compute ε → Cache → Outcome ε Resolution × Cache
  | done resolution, c => (.done resolution, c)
  | fail error, c => (.failed error, c)
  | breakOff, c => (.brokenOff, c)
  | nested key inner next, c =>
    match c.fetchWith key inner.run with
    | (.brokenOff, c) => (.brokenOff, c)
    | (_, c) => next.run c

/-- The resolution under a key, from the cache or else from the computation. -/
def fetch (c : Cache) (key : Key) (compute : Compute ε) :
    Outcome ε Stored × Cache :=
  c.fetchWith key compute.run

/-- The resolution of a locale in a catalog, kept under the catalog's interface. -/
def resolve (c : Cache) (catalog : Catalog) (locale : Locale) : Stored × Cache :=
  let key := { interface := catalog.interface, locale }
  match c.get? key with
  | some stored => (stored, c.hit)
  | none => c.miss.store key (catalog.resolve locale)

end Cache

end Localization
