import Std.Data.TreeMap

/-!
# Caches

A cache remembers results up to a limit and is cleared when a new one would go
beyond it. With a limit of zero nothing is remembered.
-/

namespace ShaDiff

structure Cache (κ β : Type) [Ord κ] where
  entries : Std.TreeMap κ β := ∅
  limit : Nat
  /-- The look-ups that found a result. -/
  hits : Nat := 0
  misses : Nat := 0
  /-- The times the cache was cleared. -/
  clears : Nat := 0

namespace Cache

variable {κ β : Type} [Ord κ]

def empty (limit : Nat) : Cache κ β := { limit }

def size (c : Cache κ β) : Nat := c.entries.size

def get? (c : Cache κ β) (k : κ) : Option β × Cache κ β :=
  match c.entries[k]? with
  | some v => (some v, { c with hits := c.hits + 1 })
  | none => (none, { c with misses := c.misses + 1 })

def insert (c : Cache κ β) (k : κ) (v : β) : Cache κ β :=
  if c.limit = 0 then c
  else if c.limit ≤ c.entries.size ∧ !c.entries.contains k then
    { c with entries := (∅ : Std.TreeMap κ β).insert k v, clears := c.clears + 1 }
  else { c with entries := c.entries.insert k v }

def getOrInsert (c : Cache κ β) (k : κ) (f : κ → β) : β × Cache κ β :=
  match c.get? k with
  | (some v, c) => (v, c)
  | (none, c) =>
    let v := f k
    (v, c.insert k v)

end Cache

end ShaDiff
