import MicroFlow.Fault
import Std.Data.HashMap

/-!
# A cache as a linked list with an index

`Recency` keeps the entries of a cache in a plain list.  Here the same cache is kept so that no
operation goes through the entries: the items stand at places of their own and know their
neighbours, the next newer and the next older one, and an index leads from a key to the place
of its item.  Using an item takes it out of the chain and puts it in again as the newest;
what is dropped to make room is taken off the oldest end.

* `Chain` — the items with their links, both ends and the length;
* `LinkedCache` — a chain with its index, the capacity and the counters.

A place without an item is a broken reference.
-/

namespace MicroFlow

/-- An entry of a chain, with the places of its neighbours. -/
structure ChainItem (V : Type) where
  key : String
  value : V
  newer : Option Nat := none
  older : Option Nat := none
deriving DecidableEq, Repr, Inhabited

namespace ChainItem

variable {V : Type}

def entry (item : ChainItem V) : String × V := (item.key, item.value)

end ChainItem

/-- Items that are linked with each other. -/
structure Chain (V : Type) where
  /-- The items by place. -/
  items : Std.HashMap Nat (ChainItem V) := {}
  /-- The first place that was never given to an item. -/
  unused : Nat := 0
  /-- The place of the newest item. -/
  newest : Option Nat := none
  /-- The place of the oldest item. -/
  oldest : Option Nat := none
  length : Nat := 0
deriving Inhabited

namespace Chain

variable {V : Type}

/-- The item at a place, which has to be there. -/
def item (c : Chain V) (place : Nat) : Except Fault (ChainItem V) :=
  match c.items[place]? with
  | some x => .ok x
  | none => .error .brokenReference

/-- Changes the item at a place. -/
def amend (c : Chain V) (place : Nat) (f : ChainItem V → ChainItem V) : Except Fault (Chain V) := do
  let x ← c.item place
  return { c with items := c.items.insert place (f x) }

/-- Makes `older` what follows the item at `newer`; without such an item it is the newest now. -/
def linkOlder (c : Chain V) (newer older : Option Nat) : Except Fault (Chain V) :=
  match newer with
  | some place => c.amend place ({ · with older })
  | none => .ok { c with newest := older }

/-- Makes `newer` what precedes the item at `older`; without such an item it is the oldest now. -/
def linkNewer (c : Chain V) (older newer : Option Nat) : Except Fault (Chain V) :=
  match older with
  | some place => c.amend place ({ · with newer })
  | none => .ok { c with oldest := newer }

/-- Takes the item at a place out of the chain; it stays where it is. -/
def unlink (c : Chain V) (place : Nat) : Except Fault (Chain V) := do
  let x ← c.item place
  let c ← c.linkOlder x.newer x.older
  let c ← c.linkNewer x.older x.newer
  let c ← c.amend place ({ · with newer := none, older := none })
  return { c with length := c.length - 1 }

/-- Puts the item at a place, which is not in the chain, in as the newest. -/
def push (c : Chain V) (place : Nat) : Except Fault (Chain V) := do
  let head := c.newest
  let c ← c.amend place ({ · with newer := none, older := head })
  let c ← match head with
    | some next => c.amend next ({ · with newer := some place })
    | none => pure c
  let oldest := if c.oldest.isNone then some place else c.oldest
  return { c with newest := some place, oldest, length := c.length + 1 }

/-- Makes the item at a place the newest. -/
def renew (c : Chain V) (place : Nat) : Except Fault (Chain V) :=
  if c.newest = some place then .ok c else do (← c.unlink place).push place

/-- Takes the item at a place out of the chain and away from its place. -/
def remove (c : Chain V) (place : Nat) : Except Fault (Chain V) := do
  let c ← c.unlink place
  return { c with items := c.items.erase place }

/-- Puts a new item in as the newest, and gives its place. -/
def add (c : Chain V) (key : String) (value : V) : Except Fault (Nat × Chain V) := do
  let place := c.unused
  let c ← { c with items := c.items.insert place { key, value }, unused := place + 1 }.push place
  return (place, c)

/--
The entries from a place on, in the direction of `next`.  Each step takes one unit of `fuel`; as
many units as there are items are enough, unless the links run in a circle.
-/
def follow (c : Chain V) (next : ChainItem V → Option Nat) :
    Nat → Option Nat → Except Fault (List (String × V))
  | _, none => .ok []
  | 0, some _ => .error .endless
  | fuel + 1, some place => do
    let x ← c.item place
    let rest ← c.follow next fuel (next x)
    return x.entry :: rest

/-- The entries from the newest to the oldest. -/
def newestFirst (c : Chain V) : Except Fault (List (String × V)) :=
  c.follow ChainItem.older c.items.size c.newest

/-- The entries from the oldest to the newest. -/
def oldestFirst (c : Chain V) : Except Fault (List (String × V)) :=
  c.follow ChainItem.newer c.items.size c.oldest

end Chain

/-- A cache of values by key. -/
structure LinkedCache (V : Type) where
  /-- The largest number of entries; zero or less is no limit. -/
  capacity : Int := 0
  /-- The places of the items by key. -/
  index : Std.HashMap String Nat := {}
  chain : Chain V := {}
  hits : Nat := 0
  misses : Nat := 0
  evictions : Nat := 0
deriving Inhabited

namespace LinkedCache

variable {V : Type}

/-- The number of entries. -/
def size (c : LinkedCache V) : Nat := c.index.size

/-- Looks a key up; a hit uses the entry. -/
def get (c : LinkedCache V) (key : String) : Except Fault (Option V × LinkedCache V) :=
  match c.index[key]? with
  | some place => do
    let chain ← c.chain.renew place
    let x ← chain.item place
    return (some x.value, { c with chain, hits := c.hits + 1 })
  | none => .ok (none, { c with misses := c.misses + 1 })

/-- Drops the oldest entry. -/
def evict (c : LinkedCache V) : Except Fault ((String × V) × LinkedCache V) :=
  match c.chain.oldest with
  | some place => do
    let x ← c.chain.item place
    let chain ← c.chain.remove place
    return (x.entry, { c with index := c.index.erase x.key, chain, evictions := c.evictions + 1 })
  | none => .error .brokenReference

/-- Drops so many of the oldest entries; they are listed in the order in which they go. -/
def evictMany : Nat → LinkedCache V → Except Fault (List (String × V) × LinkedCache V)
  | 0, c => .ok ([], c)
  | n + 1, c => do
    let (entry, c) ← c.evict
    let (entries, c) ← evictMany n c
    return (entry :: entries, c)

/-- The number of entries for which there is no room. -/
def surplus (c : LinkedCache V) : Nat :=
  if 0 < c.capacity then c.chain.length - c.capacity.toNat else 0

/-- Drops the entries for which there is no room. -/
def makeRoom (c : LinkedCache V) : Except Fault (List (String × V) × LinkedCache V) :=
  evictMany c.surplus c

/-- Puts in an item for a key, to which the index leads from now on. -/
def insert (c : LinkedCache V) (key : String) (value : V) : Except Fault (LinkedCache V) := do
  let (place, chain) ← c.chain.add key value
  return { c with index := c.index.insert key place, chain }

/-- Stores a value for a key, which uses its entry; gives the entries that were dropped. -/
def set (c : LinkedCache V) (key : String) (value : V) :
    Except Fault (List (String × V) × LinkedCache V) :=
  match c.index[key]? with
  | some place => do
    let chain ← c.chain.amend place ({ · with value })
    let chain ← chain.renew place
    return ([], { c with chain })
  | none => do (← c.insert key value).makeRoom

/-- Removes the entry of a key. -/
def delete (c : LinkedCache V) (key : String) : Except Fault (LinkedCache V) :=
  match c.index[key]? with
  | some place => do
    let chain ← c.chain.remove place
    return { c with index := c.index.erase key, chain }
  | none => .ok c

/-- Removes all entries. -/
def clear (c : LinkedCache V) : LinkedCache V := { c with index := {}, chain := {} }

/-- Takes over an entry as the newest, in the place of what its key led to. -/
def takeOver (c : LinkedCache V) (entry : String × V) : Except Fault (LinkedCache V) :=
  match c.index[entry.1]? with
  | some place => do
    let chain ← c.chain.remove place
    { c with chain }.insert entry.1 entry.2
  | none => c.insert entry.1 entry.2

/-- Replaces the entries by those of a list, used one after the other in its order. -/
def restore (c : LinkedCache V) (entries : List (String × V)) : Except Fault (LinkedCache V) := do
  let c ← entries.foldlM takeOver c.clear
  return (← c.makeRoom).2

end LinkedCache

/-! ## Operations and what they did -/

/-- What can be done with a cache. -/
inductive CacheOp (V : Type) where
  | get (key : String)
  | set (key : String) (value : V)
  | delete (key : String)
  | clear
deriving DecidableEq, Repr

/-- What was done with a cache, and what came of it. -/
inductive CacheEvent (V : Type) where
  | got (key : String) (found : Option V)
  /-- The evicted entries, the one used longest ago first. -/
  | stored (key : String) (value : V) (evicted : List (String × V))
  | deleted (key : String)
  | cleared
deriving DecidableEq, Repr

/-- The entries that were dropped to make room. -/
def CacheEvent.evicted {V : Type} : CacheEvent V → List (String × V)
  | stored _ _ evicted => evicted
  | _ => []

namespace LinkedCache

variable {V : Type}

/-- Carries out an operation. -/
def perform (c : LinkedCache V) : CacheOp V → Except Fault (CacheEvent V × LinkedCache V)
  | .get key => do
    let (found, c) ← c.get key
    return (.got key found, c)
  | .set key value => do
    let (evicted, c) ← c.set key value
    return (.stored key value evicted, c)
  | .delete key => do return (.deleted key, ← c.delete key)
  | .clear => .ok (.cleared, c.clear)

/-- Carries out operations one after the other; gives what came of each. -/
def run (c : LinkedCache V) : List (CacheOp V) → Except Fault (List (CacheEvent V) × LinkedCache V)
  | [] => .ok ([], c)
  | op :: ops => do
    let (event, c) ← c.perform op
    let (events, c) ← run c ops
    return (event :: events, c)

end LinkedCache

end MicroFlow
