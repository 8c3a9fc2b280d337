import MicroFlow.Proofs.Lowering.Layout

/-!
# The parts of a program

Apart from its points, what the layout of a statement consists of are its *parts*, in the order
of the arrows: assignments, reads and writes, and for each condition the two guards.  The check
of a statement is the check of its parts, and the actions on its arrows are theirs.
Facts about the actions in a graph are shown for parts, one by one.
-/

namespace MicroFlow.Source

/-- What stands on one arrow of a statement. -/
inductive Part where
  | assign (target : Option Place) (value : Arith)
  | read (target : Option Place)
  | write (value : Arith)
  /-- A condition that has to hold, or not to hold. -/
  | guard (cond : Cond) (holds : Bool)

namespace Part

def action : Part → Action
  | assign target value => assignment target value
  | read target => { kind := .read, target := target.map Place.lower }
  | write value => .write value.lower
  | guard cond true => .branch cond.lower
  | guard cond false => .branch cond.lower.negation

/-- Checks a part against the declared variables. -/
def check (vars : Variables) : Part → Except BuildError Unit
  | assign target value => do
    checkTarget vars target
    value.check vars
  | read target => checkTarget vars target
  | write value => value.check vars
  | guard cond _ => cond.check vars

end Part

mutual

/-- The parts of a statement in the order of its arrows. -/
def Stmt.parts : Stmt → List Part
  | .missing => []
  | .assign _ target value => [.assign target value]
  | .read _ target => [.read target]
  | .write _ value => [.write value]
  | .ifThen _ cond body => .guard cond true :: body.parts ++ [.guard cond false]
  | .ifElse _ cond body other =>
    .guard cond true :: .guard cond false :: (body.parts ++ other.parts)
  | .loop _ cond body => .guard cond true :: body.parts ++ [.guard cond false]

def Block.parts : Block → List Part
  | .nil => []
  | .cons s b => s.parts ++ b.parts

end

theorem single_actions (source : Nat) (to? : Option Nat) (next : Nat) (a : Action) :
    (single source to? next a).arrows.map Arrow.action = [a] := by
  cases to? <;> rfl

mutual

/-- The actions on the arrows of a statement are those of its parts. -/
theorem Stmt.actions_lower : ∀ (s : Stmt) (source : Nat) (to? : Option Nat) (next : Nat),
    (s.lower source to? next).arrows.map Arrow.action = s.parts.map Part.action
  | .missing, _, _, _ => rfl
  | .assign _ _ _, source, to?, next
  | .read _ _, source, to?, next
  | .write _ _, source, to?, next => by
    rw [Stmt.lower, single_actions]
    rfl
  | .ifThen _ cond body, source, to?, next => by
    have hbody := Block.actions_lower body next to? (next + 1)
    simp [Stmt.lower, Stmt.parts, hbody, Part.action]
  | .ifElse _ cond body other, source, to?, next => by
    have hbody := Block.actions_lower body next to? (next + 2)
    have hother := Block.actions_lower other (next + 1)
      (some (Block.lower next to? (next + 2) body).finish)
        (Block.lower next to? (next + 2) body).next
    simp [Stmt.lower, Stmt.parts, hbody, hother, Part.action]
  | .loop _ cond body, source, to?, next => by
    have hbody := Block.actions_lower body next (some source) (next + 1)
    simp [Stmt.lower, Stmt.parts, hbody, single_actions, Part.action]

theorem Block.actions_lower : ∀ (b : Block) (source : Nat) (to? : Option Nat) (next : Nat),
    (Block.lower source to? next b).arrows.map Arrow.action = b.parts.map Part.action
  | .nil, _, _, _ => rfl
  | .cons s .nil, source, to?, next => by
    rw [Block.lower, Stmt.actions_lower s source to? next]
    simp [Block.parts]
  | .cons s (.cons t b), source, to?, next => by
    have hs := Stmt.actions_lower s source none next
    have hb := Block.actions_lower (.cons t b) (s.lower source none next).finish to?
      (s.lower source none next).next
    rw [Block.lower_cons_cons, Block.parts]
    simp only [List.map_append, hs, hb]

end

mutual

/-- The parts of a checked statement pass the check. -/
theorem Stmt.check_parts {vars : Variables} : ∀ {s : Stmt}, s.check vars = .ok () →
    ∀ p ∈ s.parts, p.check vars = .ok ()
  | .missing, h => by simp [Stmt.check] at h
  | .assign _ _ _, h | .read _ _, h | .write _ _, h => by
    intro p hp
    rw [List.mem_singleton.mp hp]
    exact h
  | .ifThen _ cond body, h | .loop _ cond body, h => by
    rw [Stmt.check, check_bind_eq_ok, checkBody_eq_ok] at h
    obtain ⟨hc, -, hb⟩ := h
    intro p hp
    rw [Stmt.parts, mem_enclosed] at hp
    rcases hp with rfl | hp | rfl
    · exact hc
    · exact Block.check_parts hb p hp
    · exact hc
  | .ifElse _ cond body other, h => by
    rw [Stmt.check, check_bind_eq_ok, check_bind_eq_ok, checkBody_eq_ok, checkBody_eq_ok] at h
    obtain ⟨hc, ⟨-, hb⟩, -, ho⟩ := h
    intro p hp
    simp only [Stmt.parts, List.mem_cons, List.mem_append] at hp
    rcases hp with rfl | rfl | hp | hp
    · exact hc
    · exact hc
    · exact Block.check_parts hb p hp
    · exact Block.check_parts ho p hp

theorem Block.check_parts {vars : Variables} : ∀ {b : Block}, Block.check vars b = .ok () →
    ∀ p ∈ b.parts, p.check vars = .ok ()
  | .nil, _ => by simp [Block.parts]
  | .cons s b, h => by
    rw [Block.check, check_bind_eq_ok] at h
    intro p hp
    rcases List.mem_append.mp hp with hp | hp
    · exact Stmt.check_parts h.1 p hp
    · exact Block.check_parts h.2 p hp

end

/-- On the arrows of a checked program stand declarations, and the actions of parts that pass the
check. -/
theorem action_of_checkProgram {p : Program} {vars vars' : Variables} {source next : Nat}
    (h : checkProgram vars p = .ok vars') : ∀ a ∈ (lowerProgram source next p).arrows,
      (∃ d, a.action = .declare d) ∨
        ∃ (q : Part) (scope : Variables), q.check scope = .ok () ∧ a.action = q.action := by
  induction p generalizing vars source next with
  | nil => simp [lowerProgram]
  | cons i rest ih =>
    rw [checkProgram, bind_eq_ok] at h
    obtain ⟨vars₁, hi, hrest⟩ := h
    intro a ha
    rcases List.mem_append.mp ha with ha | ha
    · cases i with
      | declare pos shape name length =>
        rw [List.mem_singleton.mp ha]
        exact .inl ⟨_, rfl⟩
      | stmt s =>
        have haction : a.action ∈ s.parts.map Part.action := by
          rw [← Stmt.actions_lower s source none next]
          exact List.mem_map_of_mem ha
        obtain ⟨q, hq, hqa⟩ := List.mem_map.mp haction
        exact .inr ⟨q, vars, Stmt.check_parts (Item.check_stmt hi) q hq, hqa.symm⟩
      | expression form => simp [Item.check] at hi
      | missing => simp [Item.check] at hi
    · exact ih hrest a ha

end MicroFlow.Source
