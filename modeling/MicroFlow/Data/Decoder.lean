import MicroFlow.Data.Basic

/-!
# Reading structured values

Formats differ in how they fill a record from a value: whether an absent value clears
the field or leaves it, how keys are compared, what counts as a number.  A `Decoder`
says this for one format, and records are read with it in one way.

A value that does not fit makes the whole reading fail.
-/

namespace MicroFlow

/-- What a value in the place of a record says. -/
inductive RecordForm (V : Type) where
  /-- The record stays as it is. -/
  | keep
  /-- The record becomes the empty one. -/
  | clear
  /-- Fields by their proper names, in the order in which they are set. -/
  | fields (entries : List (String × V))

/-- What a value in the place of a list says. -/
inductive ListForm (V : Type) where
  | absent
  | items (values : List V)

/-- How one format fills records from its values. -/
structure Decoder (V : Type) where
  int : V → Int → Option Int
  text : V → String → Option String
  flag : V → Bool → Option Bool
  /-- The fields of a record, given their names. -/
  record : List String → V → Option (RecordForm V)
  list : V → Option (ListForm V)
  /-- The items of a list that is read again start from those that were read before. -/
  refills : Bool

namespace Decoder

variable {V R : Type} (d : Decoder V)

/-- Sets fields one after the other. -/
def setFields (set : String → V → R → Option R) : List (String × V) → R → Option R
  | [], r => some r
  | (key, v) :: rest, r => do setFields set rest (← set key v r)

/-- Fills a record; `set` sets one field. -/
def readRecord (names : List String) (empty : R) (set : String → V → R → Option R) (v : V)
    (old : R) :
    Option R := do
  match ← d.record names v with
  | .keep => return old
  | .clear => return empty
  | .fields entries => setFields set entries old

/-- Reads items, each starting from the one in its place before, or from the empty one. -/
def readItems (item : V → R → Option R) (empty : R) : List V → List R → Option (List R)
  | [], _ => some []
  | v :: rest, old => do
    let r ← item v (old.head?.getD empty)
    return r :: (← readItems item empty rest old.tail)

/-- Fills a list that can be absent. -/
def readList (item : V → R → Option R) (empty : R) (v : V) (old : Option (List R)) :
    Option (Option (List R)) := do
  match ← d.list v with
  | .absent => return none
  | .items values =>
    return some (← readItems item empty values (if d.refills then old.getD [] else []))

end Decoder

end MicroFlow
