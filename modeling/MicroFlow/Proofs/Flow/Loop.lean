import Mathlib.Logic.Relation
import MicroFlow.Flow.Solver
import MicroFlow.Proofs.Except

/-!
# Solvers as loops

The solvers are written with fuel.  Here they are loops without any: a state of the loop,
and the steps from one state to the next.  A state is `Done` when the loop ends there.

A loop makes one run only (`step_unique`), so a state at which it is done is where every
run ends (`reaches_done`).  A solver that returns values has made the run of its loop, up to
its end (`passes_run`, `drain_run`).
-/

namespace MicroFlow

open Relation (ReflTransGen)

/-- Where a run of a loop gets to when no state has two successors: a state without a
successor is reached from all states on the way. -/
theorem reaches_of_unique {S : Type} {r : S → S → Prop} {s t u : S}
    (hunique : ∀ {x y z}, r x y → r x z → y = z) (ht : ReflTransGen r s t) (hu : ReflTransGen r s u)
    (hstuck : ∀ v, ¬ r t v) : ReflTransGen r u t := by
  have hright : Relator.RightUnique r := fun _ _ _ hy hz => hunique hy hz
  rcases ReflTransGen.total_of_right_unique hright ht hu with h | h
  · rcases h.cases_head with rfl | ⟨v, hv, -⟩
    · exact .refl
    · exact absurd hv (hstuck v)
  · exact h

variable {M : Type} {a : Analysis M} {g : Graph}

/-! ## Chaotic iteration -/

/-- Where chaotic iteration stands. -/
structure ChaoticState (M : Type) where
  values : Values M
  /-- A value has grown in the current pass. -/
  changed : Bool
  /-- What the current pass has still to evaluate. -/
  todo : List Edge
  /-- The number of edges evaluated. -/
  steps : Nat

namespace ChaoticState

/-- One step of chaotic iteration. -/
inductive Step (a : Analysis M) (g : Graph) : ChaoticState M → ChaoticState M → Prop
  | grow {V W : Values M} {changed : Bool} {e : Edge} {rest : List Edge} {steps q : Nat}
      (update : a.update g V e = .ok (some (q, W))) :
      Step a g ⟨V, changed, e :: rest, steps⟩ ⟨W, true, rest, steps + 1⟩
  | keep {V : Values M} {changed : Bool} {e : Edge} {rest : List Edge} {steps : Nat}
      (update : a.update g V e = .ok none) :
      Step a g ⟨V, changed, e :: rest, steps⟩ ⟨V, changed, rest, steps + 1⟩
  | again {V : Values M} {steps : Nat} :
      Step a g ⟨V, true, [], steps⟩ ⟨V, false, g.edges.toList, steps⟩

/-- The states that chaotic iteration gets into. -/
def Reached (a : Analysis M) (g : Graph) (c : ChaoticState M) : Prop :=
  ∃ V slot, a.start g none = .ok (V, slot) ∧
    ReflTransGen (Step a g) ⟨V, false, g.edges.toList, 0⟩ c

/-- A pass is over that has changed nothing. -/
def Done (c : ChaoticState M) : Prop := c.todo = [] ∧ c.changed = false

variable {c : ChaoticState M}

/-- Chaotic iteration has no choice. -/
theorem step_unique {d e : ChaoticState M} (hd : Step a g c d) (he : Step a g c e) : d = e := by
  cases hd with
  | grow hd =>
    cases he with
    | grow he =>
      cases hd.symm.trans he
      rfl
    | keep he => cases hd.symm.trans he
  | keep hd =>
    cases he with
    | grow he => cases hd.symm.trans he
    | keep he => rfl
  | again =>
    cases he
    rfl

/-- The loop makes no step where it is done. -/
theorem Done.stuck (h : c.Done) (d : ChaoticState M) : ¬ Step a g c d := by
  obtain ⟨htodo, hchanged⟩ := h
  intro hstep
  cases hstep with
  | grow => cases htodo
  | keep => cases htodo
  | again => cases hchanged

/-- Whatever state the loop has got into, it goes on to the one where it is done. -/
theorem reaches_done {d : ChaoticState M} (hc : Reached a g c) (hdone : c.Done)
    (hd : Reached a g d) : ReflTransGen (Step a g) d c := by
  obtain ⟨V, slot, hstart, hc⟩ := hc
  obtain ⟨W, slot', hstart', hd⟩ := hd
  cases hstart.symm.trans hstart'
  exact reaches_of_unique step_unique hc hd hdone.stuck

/-- A pass evaluates its edges one after the other. -/
theorem pass_run {edges : List Edge} : ∀ {V W : Values M} {changed changed' : Bool} {steps : Nat},
    a.pass g V changed edges = .ok (W, changed') →
    ReflTransGen (Step a g) ⟨V, changed, edges, steps⟩ ⟨W, changed', [], steps + edges.length⟩ := by
  induction edges with
  | nil =>
    intro V W changed changed' steps h
    cases h
    exact .refl
  | cons e rest ih =>
    intro V W changed changed' steps h
    rw [Analysis.pass, bind_eq_ok] at h
    obtain ⟨r, hr, h⟩ := h
    have hlen : steps + (e :: rest).length = steps + 1 + rest.length := by
      rw [List.length_cons]
      omega
    rw [hlen]
    cases r with
    | none => exact .head (.keep hr) (ih h)
    | some r => exact .head (.grow hr) (ih h)

/-- Passes that return values have followed the loop to its end. -/
theorem passes_run {fuel : Nat} : ∀ {V : Values M} {steps : Nat} {s : Solution M},
    a.passes g fuel V steps = .ok s →
    ReflTransGen (Step a g) ⟨V, false, g.edges.toList, steps⟩ ⟨s.values, false, [], s.steps⟩ := by
  induction fuel with
  | zero =>
    intro V steps s h
    cases h
  | succ fuel ih =>
    intro V steps s h
    rw [Analysis.passes, bind_eq_ok] at h
    obtain ⟨⟨W, changed⟩, hpass, h⟩ := h
    have hrun : ReflTransGen (Step a g) ⟨V, false, g.edges.toList, steps⟩
        ⟨W, changed, [], steps + g.edges.toList.length⟩ := pass_run hpass
    rw [Array.length_toList] at hrun
    cases changed with
    | false =>
      cases h
      exact hrun
    | true => exact hrun.trans (.head .again (ih h))

end ChaoticState

/-! ## Worklists -/

/-- Where a worklist stands. -/
structure WorklistState (M : Type) where
  values : Values M
  frontier : Frontier
  /-- The edges of the node taken last that have still to be evaluated. -/
  todo : List Nat
  /-- The number of nodes taken. -/
  steps : Nat

namespace WorklistState

/-- One step of a worklist. -/
inductive Step (a : Analysis M) (g : Graph) : WorklistState M → WorklistState M → Prop
  | take {V : Values M} {f f' : Frontier} {id steps : Nat} {n : Node}
      (pop : f.pop? = some (id, f')) (node : g.nodeAt id = .ok n) :
      Step a g ⟨V, f, [], steps⟩ ⟨V, f', a.leaving n, steps + 1⟩
  | grow {V W : Values M} {f : Frontier} {i q steps : Nat} {rest : List Nat} {e : Edge}
      (edge : g.edgeAt i = .ok e) (update : a.update g V e = .ok (some (q, W))) :
      Step a g ⟨V, f, i :: rest, steps⟩ ⟨W, f.push q, rest, steps⟩
  | keep {V : Values M} {f : Frontier} {i steps : Nat} {rest : List Nat} {e : Edge}
      (edge : g.edgeAt i = .ok e) (update : a.update g V e = .ok none) :
      Step a g ⟨V, f, i :: rest, steps⟩ ⟨V, f, rest, steps⟩

/-- The states that a worklist gets into. -/
def Reached (a : Analysis M) (g : Graph) (s : Strategy) (c : WorklistState M) : Prop :=
  ∃ f V slot, Frontier.ofStrategy s g a.reverse = .ok f ∧ a.start g none = .ok (V, slot) ∧
    ReflTransGen (Step a g) ⟨V, f.push slot, [], 0⟩ c

/-- No node waits, and no edge is left of the node taken last. -/
def Done (c : WorklistState M) : Prop := c.todo = [] ∧ c.frontier.pop? = none

/-- A worklist has no choice: its frontier tells which node comes next. -/
theorem step_unique {c d e : WorklistState M} (hd : Step a g c d) (he : Step a g c e) : d = e := by
  cases hd with
  | take hpop hn =>
    cases he with
    | take hpop' hn' =>
      cases hpop.symm.trans hpop'
      cases hn.symm.trans hn'
      rfl
  | grow hi hup =>
    cases he with
    | grow hi' hup' =>
      cases hi.symm.trans hi'
      cases hup.symm.trans hup'
      rfl
    | keep hi' hup' =>
      cases hi.symm.trans hi'
      cases hup.symm.trans hup'
  | keep hi hup =>
    cases he with
    | grow hi' hup' =>
      cases hi.symm.trans hi'
      cases hup.symm.trans hup'
    | keep => rfl

theorem Done.stuck {c : WorklistState M} (h : c.Done) (d : WorklistState M) : ¬ Step a g c d := by
  obtain ⟨htodo, hpop⟩ := h
  intro hstep
  cases hstep with
  | take hpop' => cases hpop.symm.trans hpop'
  | grow => cases htodo
  | keep => cases htodo

/-- Whatever state the worklist has got into, it goes on to the one where it is done. -/
theorem reaches_done {s : Strategy} {c d : WorklistState M} (hc : Reached a g s c) (hdone : c.Done)
    (hd : Reached a g s d) : ReflTransGen (Step a g) d c := by
  obtain ⟨f, V, slot, hf, hstart, hc⟩ := hc
  obtain ⟨f', W, slot', hf', hstart', hd⟩ := hd
  cases hf.symm.trans hf'
  cases hstart.symm.trans hstart'
  exact reaches_of_unique step_unique hc hd hdone.stuck

/-- The edges that leave a node are evaluated one after the other. -/
theorem propagate_run {edges : List Nat} : ∀ {V W : Values M} {f f' : Frontier} {steps : Nat},
    a.propagate g V f edges = .ok (W, f') →
    ReflTransGen (Step a g) ⟨V, f, edges, steps⟩ ⟨W, f', [], steps⟩ := by
  induction edges with
  | nil =>
    intro V W f f' steps h
    cases h
    exact .refl
  | cons i rest ih =>
    intro V W f f' steps h
    rw [Analysis.propagate, bind_eq_ok] at h
    obtain ⟨e, he, h⟩ := h
    rw [bind_eq_ok] at h
    obtain ⟨r, hr, h⟩ := h
    cases r with
    | none => exact .head (.keep he hr) (ih h)
    | some r => exact .head (.grow he hr) (ih h)

/-- Draining that returns values has followed the loop to its end. -/
theorem drain_run {fuel : Nat} : ∀ {V : Values M} {f : Frontier} {steps : Nat} {s : Solution M},
    a.drain g fuel V f steps = .ok s →
    ∃ f', ReflTransGen (Step a g) ⟨V, f, [], steps⟩ ⟨s.values, f', [], s.steps⟩ ∧
      f'.pop? = none := by
  induction fuel with
  | zero =>
    intro V f steps s h
    cases h
  | succ fuel ih =>
    intro V f steps s h
    rw [Analysis.drain] at h
    cases hpop : f.pop? with
    | none =>
      rw [hpop] at h
      cases h
      exact ⟨f, .refl, hpop⟩
    | some taken =>
      obtain ⟨id, f'⟩ := taken
      rw [hpop] at h
      simp only [bind_eq_ok] at h
      obtain ⟨n, hn, ⟨W, f''⟩, hprop, h⟩ := h
      obtain ⟨last, hrun, hlast⟩ := ih h
      exact ⟨last, .head (.take hpop hn) ((propagate_run hprop).trans hrun), hlast⟩

end WorklistState

end MicroFlow
