import MicroFlow.Proofs.Graph.Linked
import MicroFlow.Run.Solve

/-!
# The exit does not matter to a forward analysis

An analysis that runs along the edges starts at the entry, and the depth-first order for it
is walked from there as well.  So every solver does the same on a graph with another exit
(`Analysis.solve_withExit`).
-/

namespace MicroFlow

variable {g : Graph} {t : Nat}

namespace Graph

/-- Exploring does not look at the exit. -/
theorem explore_withExit (reverse : Bool) (fuel : Nat) : ∀ (n : Node) (w : Walk),
    (g.withExit t).explore reverse fuel n w = g.explore reverse fuel n w := by
  induction fuel with
  | zero =>
    intro n w
    rfl
  | succ fuel ih =>
    intro n w
    have hexplore : (g.withExit t).explore reverse fuel = g.explore reverse fuel :=
      funext fun n => funext (ih n)
    rw [explore, explore, hexplore]
    rfl

/-- Nor does a walk along the edges. -/
theorem depthFirst_withExit : (g.withExit t).depthFirst false = g.depthFirst false := by
  have hwalk : (g.withExit t).walk false = g.walk false := by
    simp only [walk, explore_withExit]
    rfl
  rw [depthFirst, depthFirst, hwalk]
  rfl

end Graph

namespace Analysis

variable {M : Type} {a : Analysis M}

theorem start_withExit (hforward : a.reverse = false) :
    a.start (g.withExit t) none = a.start g none := by
  unfold start
  rw [hforward]
  rfl

/-- A pass over the edges does not depend on the exit. -/
theorem pass_withExit (edges : List Edge) : ∀ (V : Values M) (changed : Bool),
    a.pass (g.withExit t) V changed edges = a.pass g V changed edges := by
  induction edges with
  | nil =>
    intro V changed
    rfl
  | cons e rest ih =>
    intro V changed
    simp only [pass, ih]
    rfl

theorem passes_withExit (fuel : Nat) : ∀ (V : Values M) (steps : Nat),
    a.passes (g.withExit t) fuel V steps = a.passes g fuel V steps := by
  induction fuel with
  | zero =>
    intro V steps
    rfl
  | succ fuel ih =>
    intro V steps
    simp only [passes, ih, pass_withExit]
    rfl

theorem propagate_withExit (edges : List Nat) : ∀ (V : Values M) (f : Frontier),
    a.propagate (g.withExit t) V f edges = a.propagate g V f edges := by
  induction edges with
  | nil =>
    intro V f
    rfl
  | cons i rest ih =>
    intro V f
    simp only [propagate, ih]
    rfl

/-- Nor does a worklist. -/
theorem drain_withExit (fuel : Nat) : ∀ (V : Values M) (f : Frontier) (steps : Nat),
    a.drain (g.withExit t) fuel V f steps = a.drain g fuel V f steps := by
  induction fuel with
  | zero =>
    intro V f steps
    rfl
  | succ fuel ih =>
    intro V f steps
    simp only [drain, ih, propagate_withExit]
    rfl

theorem ofStrategy_withExit (s : Strategy) :
    Frontier.ofStrategy s (g.withExit t) false = Frontier.ofStrategy s g false := by
  cases s with
  | fifo | lifo => rfl
  | roundRobin => rw [Frontier.ofStrategy, Frontier.ofStrategy, Graph.depthFirst_withExit]

/-- A solver of a forward analysis does the same whatever the exit is. -/
theorem solve_withExit (hforward : a.reverse = false) (s : SolverKind) :
    a.solve (g.withExit t) s = a.solve g s := by
  cases s with
  | unknown name => rfl
  | chaotic =>
    have hrun : a.chaotic (g.withExit t) none = a.chaotic g none := by
      simp only [chaotic, start_withExit hforward, passes_withExit]
      rfl
    simp only [solve, hrun]
  | worklist strategy =>
    have hrun : a.worklist (g.withExit t) strategy none = a.worklist g strategy none := by
      simp only [worklist, start_withExit hforward, drain_withExit, hforward, ofStrategy_withExit]
      rfl
    simp only [solve, hrun]

end Analysis

end MicroFlow
