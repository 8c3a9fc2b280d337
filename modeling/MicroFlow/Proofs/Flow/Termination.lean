import MicroFlow.Proofs.Flow.Fixpoint
import MicroFlow.Proofs.Flow.LiveVariables
import MicroFlow.Proofs.Flow.Loop
import MicroFlow.Proofs.Flow.ReachingDefinitions
import MicroFlow.Proofs.Flow.SignDetection
import MicroFlow.Proofs.Lowering.Built

/-!
# Solvers stop

The loops of the solvers come to an end by themselves, and early: the number of steps is
bounded by the number of nodes times the number of times that one value can grow
(`Analysis.StopsWithin`).

`chaotic_least` and `worklist_least` count the steps of the solvers.  A solver that returns
values has not used up its fuel, so what it does is what its loop does without any
(`passes_run`, `drain_run`), and the bound on the steps is one on the loop.
-/

namespace MicroFlow

open Relation (ReflTransGen)

variable {M : Type}

/--
The loops of all solvers end: there is a state at which the loop is done, every state that
the loop gets into leads to it, and it holds what the solver returns.  When a value grows
at most `height` times, the loops end after the given numbers of steps; chaotic iteration
makes full passes.
-/
structure Analysis.StopsWithin (a : Analysis M) (g : Graph) (height : Nat) : Prop where
  chaotic : ∃ c : ChaoticState M, c.Reached a g ∧ c.Done ∧
    (∀ d : ChaoticState M, d.Reached a g → ReflTransGen (ChaoticState.Step a g) d c) ∧
    a.chaotic g none = .ok ⟨c.values, c.steps⟩ ∧
    g.edges.size ∣ c.steps ∧ c.steps ≤ g.edges.size * (1 + g.nodes.size * height)
  worklist : ∀ s : Strategy, ∃ c : WorklistState M, c.Reached a g s ∧ c.Done ∧
    (∀ d : WorklistState M, d.Reached a g s → ReflTransGen (WorklistState.Step a g) d c) ∧
    a.worklist g s none = .ok ⟨c.values, c.steps⟩ ∧
    c.steps ≤ 1 + g.nodes.size * height

namespace Analysis.Domain

variable {a : Analysis M} {g : Graph}

/-- Chaotic iteration makes the passes of its loop. -/
theorem chaotic_run (hg : g.Coherent) (D : a.Domain g) :
    ∃ s : Solution M, a.chaotic g none = .ok s ∧
      ChaoticState.Reached a g ⟨s.values, false, [], s.steps⟩ ∧
      g.edges.size ∣ s.steps ∧ s.steps ≤ g.edges.size * (g.nodes.size * D.top) := by
  obtain ⟨s, rounds, hs, -, hsteps, hrounds⟩ := chaotic_least hg D
  have hpasses := hs
  rw [Analysis.chaotic, bind_eq_ok] at hpasses
  obtain ⟨⟨V, slot⟩, hstart, hpasses⟩ := hpasses
  refine ⟨s, hs, ⟨V, slot, hstart, ChaoticState.passes_run hpasses⟩,
    ⟨rounds, by rw [hsteps, Nat.mul_comm]⟩, ?_⟩
  rw [hsteps, Nat.mul_comm]
  exact Nat.mul_le_mul_left _ hrounds

/-- A worklist drains its frontier as its loop does. -/
theorem worklist_run (hg : g.Coherent) (D : a.Domain g) (s : Strategy) :
    ∃ (r : Solution M) (f : Frontier), a.worklist g s none = .ok r ∧
      WorklistState.Reached a g s ⟨r.values, f, [], r.steps⟩ ∧ f.pop? = none ∧
      r.steps ≤ g.nodes.size * D.top := by
  obtain ⟨r, hr, -, hsteps⟩ := worklist_least hg D s
  have hdrain := hr
  simp only [Analysis.worklist, bind_eq_ok] at hdrain
  obtain ⟨f, hf, ⟨V, slot⟩, hstart, hdrain⟩ := hdrain
  obtain ⟨last, hrun, hlast⟩ := WorklistState.drain_run hdrain
  exact ⟨r, last, hr, ⟨f, V, slot, hf, hstart, hrun⟩, hlast, hsteps⟩

/-- The loops of all solvers stop within the bounds of a domain. -/
theorem stopsWithin (hg : g.Coherent) (D : a.Domain g) : a.StopsWithin g D.top where
  chaotic := by
    obtain ⟨s, hs, hreached, hdvd, hle⟩ := chaotic_run hg D
    refine ⟨_, hreached, ⟨rfl, rfl⟩, fun d hd => ?_, hs, hdvd, ?_⟩
    · exact ChaoticState.reaches_done hreached ⟨rfl, rfl⟩ hd
    · exact Nat.le_trans hle (Nat.mul_le_mul_left _ (by omega))
  worklist s := by
    obtain ⟨r, f, hr, hreached, hpop, hle⟩ := worklist_run hg D s
    refine ⟨_, hreached, ⟨rfl, hpop⟩, fun d hd => ?_, hr, ?_⟩
    · exact WorklistState.reaches_done hreached ⟨rfl, hpop⟩ hd
    · exact Nat.le_trans hle (by omega)

end Analysis.Domain

/--
On a coherent and well-typed graph the loops of all solvers end.  With `N` nodes and `E`
edges a worklist takes at most `1 + N * H` nodes, and chaotic iteration makes at most
`1 + N * H` full passes over the edges, where `H` is the number of variables and one more
for live variables, one more than the number of variables times `E + 1` for reaching
definitions, and two more than three times the number of slots for signs.
-/
theorem solvers_stop_within_bounds {g : Graph} (hg : g.Coherent) (ht : g.WellTyped) :
    (liveVariables g).StopsWithin g (1 + g.vars.length) ∧
      (reachingDefinitions g).StopsWithin g (1 + g.vars.length * (g.edges.size + 1)) ∧
      (signDetection g).StopsWithin g (2 + 3 * Signs.slotCount g.vars) :=
  ⟨(liveVariablesDomain hg).stopsWithin hg, (reachingDefinitionsDomain hg).stopsWithin hg,
    (signDetectionDomain hg ht).stopsWithin hg⟩

/-- A loop in which the signs of a scalar and of a field grow more than once. -/
def swayText : Text.Bytes :=
  Text.toBytes ("int x; \x7bint fst; int snd\x7d r; x := 0; r.fst := 0; " ++
    "while (x < 9) \x7b r.fst := x / r.fst; x := x - r.snd; \x7d")

/-- On this program, with 8 nodes, 8 edges and 3 slots, chaotic iteration for signs stops
after at most 89 passes, and a worklist that takes the latest node after at most 89 nodes. -/
theorem solvers_stop_within_bounds_sway :
    ∃ b, compile swayText = .ok b ∧
      (∃ c : ChaoticState Signs, c.Reached (signDetection b.graph) b.graph ∧ c.Done ∧
        8 ∣ c.steps ∧ c.steps ≤ 8 * 89) ∧
      ∃ c : WorklistState Signs, c.Reached (signDetection b.graph) b.graph .lifo ∧ c.Done ∧
        c.steps ≤ 89 := by
  have hsize : (compile swayText).toOption.map (fun b =>
      (b.graph.nodes.size, b.graph.edges.size, Signs.slotCount b.graph.vars)) = some (8, 8, 3) := by
    decide +kernel
  cases hb : compile swayText with
  | error e => simp [hb, Except.toOption] at hsize
  | ok b =>
    obtain ⟨hnodes, hedges, hslots⟩ : b.graph.nodes.size = 8 ∧ b.graph.edges.size = 8 ∧
        Signs.slotCount b.graph.vars = 3 := by simpa [hb, Except.toOption] using hsize
    obtain ⟨p, -, hbuild⟩ := compile_eq_ok hb
    obtain ⟨-, -, hsign⟩ :=
      solvers_stop_within_bounds (coherent_of_build hbuild) (wellTyped_of_build hbuild)
    obtain ⟨c, hc, hdone, -, -, hdvd, hle⟩ := hsign.chaotic
    obtain ⟨d, hd, hdone', -, -, hle'⟩ := hsign.worklist .lifo
    rw [hnodes, hedges, hslots] at hle
    rw [hnodes, hslots] at hle'
    rw [hedges] at hdvd
    exact ⟨b, rfl, ⟨c, hc, hdone, hdvd, hle⟩, d, hd, hdone', hle'⟩

end MicroFlow
