import MicroFlow.Cache.Store
import MicroFlow.Proofs.Cache.Refinement

/-!
# Reloading a store

A store is written with the entry used longest ago first, and the entries of a file are taken over
one after the other, so that the last of them is the most recent.  What a key led to before is taken
out: of several entries for a key the last one stays, where it stands.  Room is made only at the
end.
-/

namespace MicroFlow

open MicroFlow.Text (Bytes)

/-! ## Lists with repeated keys -/

namespace Recency

variable {V : Type} {c : Recency V}

end Recency

/-! ## What can be done with a store -/

/-- What can be done with a store, besides writing it out. -/
inductive StoreCall where
  | get (key : String)
  | set (key : String) (value : Option Report)
  | delete (key : String)
  | clear
  | run (request : Request)
  | load (bytes : Bytes)
  | fetch (path : String) (fs : Files)

namespace StoreCall

/-- The store behind a call; a load that fails leaves it as it is. -/
def apply (c : ReportCache) : StoreCall → ReportCache
  | get key => (c.get key).2
  | set key value => c.set key value
  | delete key => c.delete key
  | clear => c.clear
  | run request => (request.run (some c)).cache.getD c
  | load bytes => (c.load bytes).toOption.getD c
  | fetch path fs => (c.fetch path fs).toOption.getD c

/-- The store behind a sequence of calls, which starts empty. -/
def reached (capacity : Int) (calls : List StoreCall) : ReportCache :=
  calls.foldl apply { capacity }

variable {c : ReportCache}

end StoreCall

/-! ## Files -/

end MicroFlow
