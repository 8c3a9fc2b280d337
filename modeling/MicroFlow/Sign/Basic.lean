/-!
# Signs and sets of signs

The sign of an integer is `-`, `0` or `+`.  A fourth sign, `undef`, marks the value
of a division by zero.  Sets of signs, ordered by inclusion, are the values of the
sign analysis; the empty set marks what cannot be reached.

A set is exchanged as a byte with one bit per sign.  The four high bits of the byte
name no sign.  They are kept as `spare`, so that every byte is a set: union,
intersection and inclusion treat them like the signs, everything else passes them
by.
-/

namespace MicroFlow

/-- The sign of a value. -/
inductive Sign where
  | minus
  | zero
  | plus
  /-- The sign of a division by zero. -/
  | undef
deriving DecidableEq, Repr, Inhabited

namespace Sign

/-- The signs in the order in which they are listed. -/
def all : List Sign := [minus, zero, plus, undef]

/-- How a sign is written. -/
def text : Sign → String
  | minus => "-"
  | zero => "0"
  | plus => "+"
  | undef => "undef"

/-- The sign written as `s`. -/
def ofText? : String → Option Sign
  | "-" => some minus
  | "0" => some zero
  | "+" => some plus
  | "undef" => some undef
  | _ => none

/-- The sign of an integer. -/
def of (n : Int) : Sign := if 0 < n then plus else if n < 0 then minus else zero

/-- The sign of the negated value. -/
def negate : Sign → Sign
  | minus => plus
  | plus => minus
  | s => s

/-- Every sign is listed. -/
theorem mem_all (s : Sign) : s ∈ all := by cases s <;> decide

@[simp] theorem negate_negate (s : Sign) : s.negate.negate = s := by cases s <;> rfl

end Sign

structure SignSet where
  minus : Bool := false
  zero : Bool := false
  plus : Bool := false
  undef : Bool := false
  /-- The bits of a byte that name no sign. -/
  spare : BitVec 4 := 0
deriving DecidableEq, Repr, Inhabited

namespace SignSet

/-- The set without members. -/
def empty : SignSet := {}

/-- All signs of integers. -/
def top : SignSet := { minus := true, zero := true, plus := true }

def all : SignSet := { top with undef := true }

/-- Membership of a sign. -/
def has (s : SignSet) : Sign → Bool
  | .minus => s.minus
  | .zero => s.zero
  | .plus => s.plus
  | .undef => s.undef

instance : Membership Sign SignSet where
  mem s x := s.has x = true

instance (x : Sign) (s : SignSet) : Decidable (x ∈ s) :=
  inferInstanceAs (Decidable (s.has x = true))

/-- The set of the signs that satisfy a test. -/
def ofTest (p : Sign → Bool) : SignSet :=
  { minus := p .minus, zero := p .zero, plus := p .plus, undef := p .undef }

/-- The set with one member. -/
def single (x : Sign) : SignSet := ofTest (· == x)

/-- The members in listed order. -/
def signs (s : SignSet) : List Sign := Sign.all.filter s.has

/-- The set has no member. -/
def isEmpty (s : SignSet) : Bool := s == empty

def union (s t : SignSet) : SignSet where
  minus := s.minus || t.minus
  zero := s.zero || t.zero
  plus := s.plus || t.plus
  undef := s.undef || t.undef
  spare := s.spare ||| t.spare

def inter (s t : SignSet) : SignSet where
  minus := s.minus && t.minus
  zero := s.zero && t.zero
  plus := s.plus && t.plus
  undef := s.undef && t.undef
  spare := s.spare &&& t.spare

/-- Inclusion: meeting with the larger set changes nothing. -/
def subset (s t : SignSet) : Bool := s.inter t == s

def unions (sets : List SignSet) : SignSet := sets.foldr union empty

/-- The integer signs that are not in the set.  The marker `undef` stays as it is. -/
def complement (s : SignSet) : SignSet :=
  { minus := !s.minus, zero := !s.zero, plus := !s.plus, undef := s.undef }

/-- The set without the marker `undef`. -/
def defined (s : SignSet) : SignSet := { s with undef := false }

/-- Swaps `+` and `-`. -/
def negate (s : SignSet) : SignSet := { s with minus := s.plus, plus := s.minus }

/-- The byte of a set: `-` is 1, `0` is 2, `+` is 4 and `undef` is 8. -/
def toNat (s : SignSet) : Nat :=
  s.minus.toNat + 2 * s.zero.toNat + 4 * s.plus.toNat + 8 * s.undef.toNat + 16 * s.spare.toNat

/-- The set of a byte. -/
def ofNat (n : Nat) : SignSet where
  minus := n.testBit 0
  zero := n.testBit 1
  plus := n.testBit 2
  undef := n.testBit 3
  spare := BitVec.ofNat 4 (n / 16)

@[ext] theorem ext' {s t : SignSet} (h : ∀ x, s.has x = t.has x) (hs : s.spare = t.spare) :
    s = t := by
  cases s; cases t
  have h1 := h .minus
  have h2 := h .zero
  have h3 := h .plus
  have h4 := h .undef
  simp only [has] at h1 h2 h3 h4
  subst h1 h2 h3 h4 hs
  rfl

@[simp] theorem has_union (s t : SignSet) (x : Sign) :
    (s.union t).has x = (s.has x || t.has x) := by
  cases x <;> rfl

@[simp] theorem has_inter (s t : SignSet) (x : Sign) :
    (s.inter t).has x = (s.has x && t.has x) := by
  cases x <;> rfl

@[simp] theorem has_empty (x : Sign) : empty.has x = false := by cases x <;> rfl

@[simp] theorem has_ofTest (p : Sign → Bool) (x : Sign) : (ofTest p).has x = p x := by
  cases x <;> rfl

@[simp] theorem has_single (x y : Sign) : (single x).has y = (y == x) := by simp [single]

@[simp] theorem has_negate (s : SignSet) (x : Sign) : s.negate.has x = s.has x.negate := by
  cases x <;> rfl

@[simp] theorem mem_signs {s : SignSet} {x : Sign} : x ∈ s.signs ↔ s.has x = true := by
  simp [signs, Sign.mem_all]

@[simp] theorem has_unions (sets : List SignSet) (x : Sign) :
    (unions sets).has x = sets.any (·.has x) := by
  induction sets with
  | nil => simp [unions]
  | cons s sets ih => simpa [unions] using congrArg (s.has x || ·) ih

end SignSet

end MicroFlow
