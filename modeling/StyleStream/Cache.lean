/-
  A bounded cache of compiled sheet lists.

  The key of an entry is the list of sheets that was compiled: where each sheet
  came from, and what it says. When a new key meets a full cache, half of the
  entries go, rounded up. Which half is a choice that nothing else depends on,
  so the operations that may evict take the choice as an argument; by default
  the newest entries stay.
-/
import StyleStream.Log
import StyleStream.Sheet

namespace StyleStream

/-- What a compiled automaton depends on. -/
structure CacheKey where
  /-- The names of the sources, sheet by sheet. -/
  sources : List (Option String)
  /-- The origins and the rules, sheet by sheet. -/
  contents : List (Origin × List Rule)
deriving DecidableEq

namespace CacheKey

/-- The key of a list of sheets. -/
def of (sheets : List Sheet) : CacheKey where
  sources := sheets.map (·.source)
  contents := sheets.map fun sheet => (sheet.origin, sheet.rules)

/-- Whether a sheet of the list came from a source. -/
def involves (key : CacheKey) (source : String) : Bool :=
  key.sources.contains (some source)

end CacheKey

structure Cache (α : Type) where
  capacity : Nat := 64
  /-- The entries, the oldest first. -/
  entries : List (CacheKey × α) := []
deriving DecidableEq

namespace Cache

variable {α : Type}

def size (c : Cache α) : Nat := c.entries.length

/-- The entry of a key. -/
def get? (c : Cache α) (key : CacheKey) : Option α :=
  c.entries.lookup key

/-! ### Insertion -/

/-- Sets the entry of a key. A key that has an entry keeps its place. -/
def put (key : CacheKey) (a : α) : List (CacheKey × α) → List (CacheKey × α)
  | [] => [(key, a)]
  | (k, old) :: rest => if k = key then (k, a) :: rest else (k, old) :: put key a rest

/-- The entries that stay when the older half goes, rounded up. -/
def newerHalf (entries : List (CacheKey × α)) : List (CacheKey × α) :=
  entries.drop ((entries.length + 1) / 2)

/-- Sets the entry of a key. If the cache is full and the key is new, only what
`keep` retains of the entries stays. A cache without capacity stays empty. -/
def insertKeeping (keep : List (CacheKey × α) → List (CacheKey × α)) (c : Cache α)
    (key : CacheKey) (a : α) : Cache α :=
  if c.capacity = 0 then c
  else if c.capacity ≤ c.size ∧ (c.get? key).isNone then
    { c with entries := put key a (keep c.entries) }
  else { c with entries := put key a c.entries }

/-- Sets the entry of a key, and drops the older half of a full cache for a new key. -/
def insert (c : Cache α) (key : CacheKey) (a : α) : Cache α :=
  c.insertKeeping newerHalf key a

/-- The entry of a key, made and inserted if the key has none. -/
def fetchKeeping (keep : List (CacheKey × α) → List (CacheKey × α)) (c : Cache α)
    (key : CacheKey) (make : Unit → α) : α × Cache α :=
  match c.get? key with
  | some a => (a, c)
  | none =>
    let a := make ()
    (a, c.insertKeeping keep key a)

/-- The entry of a key, made and inserted if the key has none. The older half
of a full cache goes for a new key. -/
def fetch (c : Cache α) (key : CacheKey) (make : Unit → α) : α × Cache α :=
  c.fetchKeeping newerHalf key make

/-- The report on fetching a key, given the report on making its entry. -/
def logFetch (c : Cache α) (key : CacheKey) (making : Unit → List LogEntry) : List LogEntry :=
  if (c.get? key).isSome then [.cacheHit] else making ()

/-! ### Removal -/

/-- Drops the entries to which a source contributed. -/
def invalidate (c : Cache α) (source : String) : Cache α :=
  { c with entries := c.entries.filter fun entry => !entry.1.involves source }

def clear (c : Cache α) : Cache α :=
  { c with entries := [] }

end Cache

end StyleStream
