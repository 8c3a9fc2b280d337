import MicroFlow.Graph.Lowering
import MicroFlow.Proofs.Except

/-!
# The layout of a program as arrows

A statement is laid out between points.  It starts at a point that exists, it may be
told where to end, and it takes new points as it needs them.  What keeps the parts of
a program apart is which points a part *owns*: its start and the new points it takes,
but not the point where it ends.  So parts laid out one after the other, or side by side,
own different points, although they share points of arrival: the body of a loop ends at the
head of the loop, and both blocks of a branch end at one join.

Only checked programs are laid out: nothing is missing and no body is empty.
-/

namespace MicroFlow

variable {vars : Variables} {layed : Layed}

theorem mem_enclosed {α : Type} {x a b : α} {l : List α} :
    x ∈ a :: l ++ [b] ↔ x = a ∨ x ∈ l ∨ x = b := by
  simp

namespace Source

/-! ## Checked parts -/

/-- The operator of a checked arithmetic expression is arithmetic, and its operands are checked. -/
theorem Arith.binary_of_check {pos : Pos} {op : Operator} {l r : Arith}
    (h : (Arith.binary pos op l r).check vars = .ok ()) :
    (∃ o, op = .arith o) ∧ l.check vars = .ok () ∧ r.check vars = .ok () := by
  rw [Arith.check] at h
  cases op with
  | arith o => exact ⟨⟨o, rfl⟩, check_bind_eq_ok.mp h⟩
  | rel | and | or | not | unknown => simp [Operator.isArithmetic, bind, Except.bind] at h

/-- The operator of a checked comparison is a relation, and its operands are checked. -/
theorem Cond.rel_of_check {pos : Pos} {op : Operator} {l r : Arith}
    (h : (Cond.rel pos op l r).check vars = .ok ()) :
    (∃ o, op = .rel o) ∧ l.check vars = .ok () ∧ r.check vars = .ok () := by
  rw [Cond.check] at h
  cases op with
  | rel o => exact ⟨⟨o, rfl⟩, check_bind_eq_ok.mp h⟩
  | arith | and | or | not | unknown => simp [Operator.isRelational, bind, Except.bind] at h

/-- The operator of a checked connection is a connective, and its operands are checked. -/
theorem Cond.logic_of_check {pos : Pos} {op : Operator} {l r : Cond}
    (h : (Cond.logic pos op l r).check vars = .ok ()) :
    (op = .and ∨ op = .or) ∧ l.check vars = .ok () ∧ r.check vars = .ok () := by
  rw [Cond.check] at h
  cases op with
  | and => exact ⟨.inl rfl, check_bind_eq_ok.mp h⟩
  | or => exact ⟨.inr rfl, check_bind_eq_ok.mp h⟩
  | arith | rel | not | unknown => simp [bind, Except.bind] at h

/-- The condition passes the check for some variables. -/
def Cond.Checked (c : Cond) : Prop := ∃ vars, c.check vars = .ok ()

/-- The statement passes the check for some variables. -/
def Stmt.Checked (s : Stmt) : Prop := ∃ vars, s.check vars = .ok ()

/-- The statements of the block pass the check for some variables. -/
def Block.Checked (b : Block) : Prop := ∃ vars, Block.check vars b = .ok ()

variable {b : Block} {c : Cond}

/-- The body of a statement passes the check: it is not empty, and its statements pass. -/
theorem checkBody_eq_ok {pos : Pos} :
    checkBody vars pos b = .ok () ↔ b ≠ .nil ∧ Block.check vars b = .ok () := by
  cases b with
  | nil => simp [checkBody]
  | cons s b => simp [checkBody, Block.check]

theorem Stmt.not_checked_missing : ¬ Stmt.Checked .missing := by
  rintro ⟨vars, h⟩
  simp [Stmt.check] at h

theorem Stmt.Checked.ifThen {pos : Pos} (h : Stmt.Checked (.ifThen pos c b)) :
    c.Checked ∧ b ≠ .nil ∧ b.Checked := by
  obtain ⟨vars, h⟩ := h
  rw [Stmt.check, check_bind_eq_ok, checkBody_eq_ok] at h
  exact ⟨⟨vars, h.1⟩, h.2.1, ⟨vars, h.2.2⟩⟩

theorem Stmt.Checked.ifElse {pos : Pos} {o : Block} (h : Stmt.Checked (.ifElse pos c b o)) :
    c.Checked ∧ (b ≠ .nil ∧ b.Checked) ∧ (o ≠ .nil ∧ o.Checked) := by
  obtain ⟨vars, h⟩ := h
  rw [Stmt.check, check_bind_eq_ok, check_bind_eq_ok, checkBody_eq_ok, checkBody_eq_ok] at h
  exact ⟨⟨vars, h.1⟩, ⟨h.2.1.1, ⟨vars, h.2.1.2⟩⟩, ⟨h.2.2.1, ⟨vars, h.2.2.2⟩⟩⟩

theorem Stmt.Checked.loop {pos : Pos} (h : Stmt.Checked (.loop pos c b)) :
    c.Checked ∧ b ≠ .nil ∧ b.Checked := by
  obtain ⟨vars, h⟩ := h
  rw [Stmt.check, check_bind_eq_ok, checkBody_eq_ok] at h
  exact ⟨⟨vars, h.1⟩, h.2.1, ⟨vars, h.2.2⟩⟩

theorem Block.Checked.cons {s : Stmt} (h : Block.Checked (.cons s b)) : s.Checked ∧ b.Checked := by
  obtain ⟨vars, h⟩ := h
  rw [Block.check, check_bind_eq_ok] at h
  exact ⟨⟨vars, h.1⟩, ⟨vars, h.2⟩⟩

/-- A statement before others ends at a point of its own. -/
theorem Block.lower_cons_cons (source : Nat) (to? : Option Nat) (next : Nat) (s t : Stmt)
    (b : Block) :
    Block.lower source to? next (.cons s (.cons t b)) =
      let first := s.lower source none next
      let rest := Block.lower first.finish to? first.next (.cons t b)
      ⟨first.arrows ++ rest.arrows, rest.finish, rest.next⟩ := by
  rw [Block.lower]
  simp

end Source

/-! ## Owned points -/

/-- A part can be laid out: it starts at a point that exists, and ends at another one if told to. -/
structure Open (source : Nat) (to? : Option Nat) (next : Nat) : Prop where
  source_lt : source < next
  to_lt : ∀ t, to? = some t → t < next
  to_ne : ∀ t, to? = some t → t ≠ source

namespace Layed

/-- The points that a part owns: its start and its new points, but not its end. -/
def Owns (layed : Layed) (source next n : Nat) : Prop :=
  n = source ∨ (next ≤ n ∧ n < layed.next ∧ n ≠ layed.finish)

/-- Where a part ends, and which points are new. -/
structure Fits (layed : Layed) (to? : Option Nat) (next : Nat) : Prop where
  next_le : next ≤ layed.next
  finish_eq : ∀ t, to? = some t → layed.finish = t
  finish_new : to? = none → next ≤ layed.finish ∧ layed.finish < layed.next

variable {source next : Nat} {to? : Option Nat}

/-- A part ends at a point that exists, and not at its start. -/
theorem Fits.finish_lt (h : layed.Fits to? next) (ho : Open source to? next) :
    layed.finish < layed.next ∧ layed.finish ≠ source := by
  have hnext := h.next_le
  have hsource := ho.source_lt
  cases to? with
  | none =>
    have := h.finish_new rfl
    omega
  | some t =>
    have hlt := ho.to_lt t rfl
    have hne := ho.to_ne t rfl
    rw [h.finish_eq t rfl]
    omega

/-- A part ends below a bound on where it was told to end, or at one of its new points. -/
theorem Fits.finish_lt_or {n : Nat} (h : layed.Fits to? next) (hto : ∀ t, to? = some t → t < n) :
    layed.finish < n ∨ (next ≤ layed.finish ∧ layed.finish < layed.next) := by
  cases to? with
  | none => exact Or.inr (h.finish_new rfl)
  | some t =>
    rw [h.finish_eq t rfl]
    exact Or.inl (hto t rfl)

/-- One part after another ends where the second one does. -/
theorem Fits.append {rest : Layed} (hf : layed.Fits none next) (hg : rest.Fits to? layed.next) :
    (⟨layed.arrows ++ rest.arrows, rest.finish, rest.next⟩ : Layed).Fits to? next := by
  have hnext := hf.next_le
  refine ⟨Nat.le_trans hnext hg.next_le, hg.finish_eq, fun hto => ?_⟩
  obtain ⟨hle, hlt⟩ := hg.finish_new hto
  exact ⟨Nat.le_trans hnext hle, hlt⟩

end Layed

namespace Open

variable {source next : Nat} {to? : Option Nat}

/-- The block behind a guard starts at the first new point. -/
theorem inner (ho : Open source to? next) {k : Nat} (hk : 0 < k) : Open next to? (next + k) :=
  ⟨by omega, fun t ht => by have := ho.to_lt t ht; omega,
    fun t ht => by have := ho.to_lt t ht; omega⟩

/-- The block behind `else` starts at the second new point, and ends where the first block does. -/
theorem other (ho : Open source to? next) {first : Layed} (hf : first.Fits to? (next + 2)) :
    Open (next + 1) (some first.finish) first.next := by
  have hnext := hf.next_le
  have hlt := (hf.finish_lt (ho.inner (by omega))).1
  have hfin := hf.finish_lt_or ho.to_lt
  refine ⟨by omega, ?_, ?_⟩
  · intro t ht
    cases ht
    exact hlt
  · intro t ht
    cases ht
    omega

/-- The body of a loop ends at its head. -/
theorem loopBody (ho : Open source to? next) : Open next (some source) (next + 1) := by
  have hsource := ho.source_lt
  refine ⟨by omega, ?_, ?_⟩
  · intro t ht
    cases ht
    omega
  · intro t ht
    cases ht
    omega

/-- What follows a part starts where that ends. -/
theorem rest (ho : Open source to? next) {first : Layed} (hf : first.Fits none next) :
    Open first.finish to? first.next := by
  have hfin := hf.finish_new rfl
  exact ⟨hfin.2, fun t ht => by have := ho.to_lt t ht; omega,
    fun t ht => by have := ho.to_lt t ht; omega⟩

theorem first (ho : Open source to? next) : Open source none next :=
  ⟨ho.source_lt, by simp, by simp⟩

end Open

namespace Source

variable {source next : Nat} {to? : Option Nat}

theorem single_arrows (source : Nat) (to? : Option Nat) (next : Nat) (a : Action) :
    (single source to? next a).arrows = [⟨source, (single source to? next a).finish, a⟩] := by
  cases to? <;> rfl

/-- The layout of one arrow. -/
theorem single_fits (source : Nat) (to? : Option Nat) (next : Nat) (a : Action) :
    (single source to? next a).Fits to? next := by
  cases to? with
  | none => exact ⟨by simp [single], by simp, fun _ => by simp [single]⟩
  | some t => exact ⟨by simp [single], by simp [single], by simp⟩

/-- A single arrow owns its start only. -/
theorem single_owns (source : Nat) (to? : Option Nat) (next : Nat) (a : Action) (n : Nat) :
    (single source to? next a).Owns source next n ↔ n = source := by
  cases to? <;> simp only [Layed.Owns, single] <;> omega

mutual

/-- The layout of a checked statement fits. -/
theorem Stmt.fits (source next : Nat) (to? : Option Nat) :
    ∀ {s : Stmt}, s.Checked → (s.lower source to? next).Fits to? next
  | .missing, h => absurd h Stmt.not_checked_missing
  | .assign _ _ _, _ | .read _ _, _ | .write _ _, _ => by
    rw [Stmt.lower]
    exact single_fits _ _ _ _
  | .ifThen _ _ body, h => by
    obtain ⟨-, hne, hb⟩ := h.ifThen
    obtain ⟨hnext, heq, hnew⟩ := Block.fits next (next + 1) to? hne hb
    rw [Stmt.lower]
    exact ⟨by simp only; omega, heq, fun hto => by have := hnew hto; simp only; omega⟩
  | .ifElse _ _ body other, h => by
    obtain ⟨-, ⟨hne, hb⟩, ⟨hne', hb'⟩⟩ := h.ifElse
    obtain ⟨hnext, heq, hnew⟩ := Block.fits next (next + 2) to? hne hb
    have hnext' := (Block.fits (next + 1) (Block.lower next to? (next + 2) body).next
      (some (Block.lower next to? (next + 2) body).finish) hne' hb').next_le
    rw [Stmt.lower]
    exact ⟨by simp only; omega, heq, fun hto => by have := hnew hto; simp only; omega⟩
  | .loop _ cond body, h => by
    obtain ⟨-, hne, hb⟩ := h.loop
    have hnext := (Block.fits next (next + 1) (some source) hne hb).next_le
    obtain ⟨hnext', heq, hnew⟩ := single_fits source to?
      (Block.lower next (some source) (next + 1) body).next (.branch cond.lower.negation)
    rw [Stmt.lower]
    exact ⟨by simp only; omega, heq, fun hto => by have := hnew hto; simp only; omega⟩

/-- The layout of a checked block that is not empty fits. -/
theorem Block.fits (source next : Nat) (to? : Option Nat) :
    ∀ {b : Block}, b ≠ .nil → b.Checked → (Block.lower source to? next b).Fits to? next
  | .nil, hne, _ => absurd rfl hne
  | .cons s .nil, _, h => by
    rw [Block.lower]
    exact Stmt.fits source next to? h.cons.1
  | .cons s (.cons t b), _, h => by
    rw [Block.lower_cons_cons]
    exact (Stmt.fits source next none h.cons.1).append (Block.fits _ _ to? (by simp) h.cons.2)

end

/-! ## Programs -/

/-- The item passes the check: it is a declaration, or a statement that passes. -/
inductive Item.Checked : Item → Prop
  | declare {pos : Pos} {shape : Shape} {name : String} {length : Int} :
      Item.Checked (.declare pos shape name length)
  | stmt {s : Stmt} (h : s.Checked) : Item.Checked (.stmt s)

/-- A statement that is an item passes the check of statements. -/
theorem Item.check_stmt {vars' : Variables} {s : Stmt} (h : (Item.stmt s).check vars = .ok vars') :
    s.check vars = .ok () := by
  cases s with
  | missing => simp [Item.check] at h
  | assign | read | write | ifThen | ifElse | loop =>
    simp only [Item.check, bind_eq_ok] at h
    obtain ⟨_, h, -⟩ := h
    exact h

/-- What the check accepts is checked in all its parts. -/
theorem Item.checked_of_check {vars' : Variables} {i : Item} (h : i.check vars = .ok vars') :
    i.Checked := by
  cases i with
  | declare => exact .declare
  | stmt s => exact .stmt ⟨vars, Item.check_stmt h⟩
  | expression | missing => simp [Item.check] at h

/-- The items of a program that passes the check pass it. -/
theorem checked_of_checkProgram {p : Program} {vars' : Variables}
    (h : checkProgram vars p = .ok vars') : ∀ i ∈ p, i.Checked := by
  induction p generalizing vars with
  | nil => simp
  | cons i rest ih =>
    rw [checkProgram, bind_eq_ok] at h
    obtain ⟨vars₁, hi, hrest⟩ := h
    exact List.forall_mem_cons.mpr ⟨Item.checked_of_check hi, ih hrest⟩

theorem Item.fits (source next : Nat) {i : Item} (h : i.Checked) :
    (i.lower source next).Fits none next := by
  cases h with
  | declare =>
    rw [Item.lower]
    exact single_fits _ _ _ _
  | stmt h => exact Stmt.fits source next none h

end Source

end MicroFlow
