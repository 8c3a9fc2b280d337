/-!
# A cache ordered by recency

The entries of a cache stand in the order of their last use, the most recent first.
Looking a key up or storing a value uses its entry.  When storing a new entry makes
the cache larger than its capacity, the entries used longest ago are dropped.

A capacity of zero or less is no limit.
-/

namespace MicroFlow

/-- A cache of values by key. -/
structure Recency (V : Type) where
  /-- The largest number of entries; zero or less is no limit. -/
  capacity : Int := 0
  /-- Keys and values, the most recently used first. -/
  entries : List (String × V) := []
  hits : Nat := 0
  misses : Nat := 0
  evictions : Nat := 0
deriving DecidableEq, Repr, Inhabited

namespace Recency

variable {V : Type}

/-- The keys, the most recently used first. -/
def keys (c : Recency V) : List String := c.entries.map Prod.fst

/-- The number of entries. -/
def size (c : Recency V) : Nat := c.entries.length

/-- The value stored for a key. -/
def find? (c : Recency V) (key : String) : Option V := c.entries.lookup key

/-- The entries without those of a key. -/
def without (key : String) (entries : List (String × V)) : List (String × V) :=
  entries.filter fun e => e.1 != key

/-- The number of entries that may stay of so many. -/
def room (c : Recency V) (size : Nat) : Nat :=
  if 0 < c.capacity then min c.capacity.toNat size else size

/-- The cache with these entries, less those for which there is no room. -/
def trim (c : Recency V) (entries : List (String × V)) : Recency V :=
  let kept := c.room entries.length
  { c with entries := entries.take kept, evictions := c.evictions + (entries.length - kept) }

/-- The entries that `trim` drops, the one used longest ago first. -/
def dropped (c : Recency V) (entries : List (String × V)) : List (String × V) :=
  (entries.drop (c.room entries.length)).reverse

/-- Looks a key up; a hit uses the entry. -/
def get (c : Recency V) (key : String) : Option V × Recency V :=
  match c.find? key with
  | some v => (some v, { c with entries := (key, v) :: without key c.entries, hits := c.hits + 1 })
  | none => (none, { c with misses := c.misses + 1 })

/-- The entries after a value has been stored, before room is made. -/
def stored (c : Recency V) (key : String) (v : V) : List (String × V) :=
  (key, v) :: without key c.entries

/-- Stores a value for a key, which uses its entry. -/
def set (c : Recency V) (key : String) (v : V) : Recency V :=
  if (c.find? key).isSome then { c with entries := c.stored key v } else c.trim (c.stored key v)

/-- The entries that storing a value drops. -/
def evictedBy (c : Recency V) (key : String) (v : V) : List (String × V) :=
  if (c.find? key).isSome then [] else c.dropped (c.stored key v)

/-- Removes the entry of a key. -/
def delete (c : Recency V) (key : String) : Recency V := { c with entries := without key c.entries }

/-- Removes all entries. -/
def clear (c : Recency V) : Recency V := { c with entries := [] }

/-- Replaces the entries by those of a list, used one after the other in its order. -/
def restore (c : Recency V) (entries : List (String × V)) : Recency V :=
  c.trim (entries.foldl (fun acc e => e :: without e.1 acc) [])

/-- The entries, the one used longest ago first. -/
def oldestFirst (c : Recency V) : List (String × V) := c.entries.reverse

end Recency

end MicroFlow
