import MicroFlow.Proofs.Flow.Loop
import MicroFlow.Proofs.Flow.Strict

/-!
# What the loops of the solvers get into

An invariant of each loop: the values approximate the least solution, what is still to be
evaluated are edges of the graph, and the nodes that wait are nodes of the graph
(`ChaoticState.Sound`, `WorklistState.Sound`).  One step keeps it, so it holds of every state that
the loop gets into; and from a state with the invariant there is a next step, unless the loop is
done.  So no loop breaks off, and every access that it makes is in range (`Analysis.InRange`).
-/

namespace MicroFlow

open Relation (ReflTransGen)

variable {M : Type} {a : Analysis M} {g : Graph}

/-! ## Frontiers -/

/-- What waits on a frontier are nodes of a graph with `n` nodes; with ranks, every node has one. -/
structure Frontier.Fits (f : Frontier) (n : Nat) : Prop where
  nodes : ∀ i ∈ f.nodes, i < n
  pending : ∀ i, f.pending.has i = true → i < n
  ranks : ∀ rank current next, f.waiting = .passes rank current next →
    rank.size = n ∧ ∀ r ∈ rank, r < n

theorem Waiting.ranks_add {id : Nat} {w : Waiting} {rank : Array Nat} {current next : List Nat}
    (h : w.add id = .passes rank current next) : ∃ current next, w = .passes rank current next := by
  cases w with
  | queue | stack => cases h
  | passes =>
    cases h
    exact ⟨_, _, rfl⟩

/-- Taking from the waiting nodes keeps their ranks. -/
theorem Waiting.ranks_take {id : Nat} {w w' : Waiting} {rank : Array Nat} {current next : List Nat}
    (h : w.take? = some (id, w')) (hw : w' = .passes rank current next) :
    ∃ current next, w = .passes rank current next := by
  subst hw
  unfold Waiting.take? at h
  split at h
  · cases h
  · cases h
  · cases h
  · cases h
  · cases h
    exact ⟨_, _, rfl⟩
  · split at h
    · cases h
    · cases h
      exact ⟨_, _, rfl⟩

namespace Frontier.Fits

variable {f f' : Frontier} {n id : Nat}

/-- A push of a node in range. -/
theorem push (h : f.Fits n) (hid : id < n) : (f.push id).Fits n := by
  unfold Frontier.push
  split
  · exact h
  · refine ⟨fun i hi => ?_, fun i hi => ?_, fun rank current next hw => ?_⟩
    · rcases List.mem_cons.mp ((Waiting.toList_add id f.waiting).mem_iff.mp hi) with rfl | hi
      · exact hid
      · exact h.nodes i hi
    · rw [BitSet.has_insert, Bool.or_eq_true, decide_eq_true_eq] at hi
      rcases hi with rfl | hi
      · exact hid
      · exact h.pending i hi
    · obtain ⟨current', next', hf⟩ := Waiting.ranks_add hw
      exact h.ranks rank current' next' hf

/-- A pop returns a node in range. -/
theorem pop (h : f.Fits n) (hpop : f.pop? = some (id, f')) : id < n ∧ f'.Fits n := by
  have hperm := (nodes_pop hpop).1
  refine ⟨h.nodes id (hperm.mem_iff.mpr (List.mem_cons_self ..)), ?_⟩
  have hnodes : ∀ i ∈ f'.nodes, i < n := fun i hi =>
    h.nodes i (hperm.mem_iff.mpr (List.mem_cons_of_mem _ hi))
  unfold Frontier.pop? at hpop
  split at hpop
  · cases hpop
  · rename_i _ w htake
    cases hpop
    refine ⟨hnodes, fun i hi => ?_, fun rank current next hw => ?_⟩
    · rw [BitSet.has_erase, Bool.and_eq_true] at hi
      exact h.pending i hi.1
    · obtain ⟨current', next', hf⟩ := Waiting.ranks_take htake hw
      exact h.ranks rank current' next' hf

/-- A new frontier has ranks for all nodes. -/
theorem ofStrategy (hg : g.Coherent) {s : Strategy} {reverse : Bool}
    (h : Frontier.ofStrategy s g reverse = .ok f) : f.Fits g.nodes.size := by
  cases s with
  | fifo | lifo =>
    cases h
    exact ⟨by simp [Frontier.nodes, Waiting.toList], by simp, by simp⟩
  | roundRobin =>
    obtain ⟨ord, hord, -, hsize, hranks⟩ := hg.depthFirst_ranks reverse
    simp only [Frontier.ofStrategy, hord, bind, Except.bind] at h
    cases h
    refine ⟨by simp [Frontier.nodes, Waiting.toList], by simp, fun rank current next hw => ?_⟩
    cases hw
    refine ⟨hsize, fun r hr => ?_⟩
    obtain ⟨i, hi⟩ := Array.mem_iff_getElem?.mp hr
    obtain ⟨r', hr', hget, -⟩ := hranks i (hsize ▸ (Array.getElem?_eq_some_iff.mp hi).1)
    rw [hi] at hget
    cases hget
    exact hr'

end Frontier.Fits

/-! ## Chaotic iteration -/

namespace ChaoticState

/-- The values approximate the least solution, and edges of the graph are still to be evaluated. -/
structure Sound (D : a.Domain g) (c : ChaoticState M) : Prop where
  approximates : D.Approximates c.values
  todo : ∀ e ∈ c.todo, e ∈ g.edges

variable {D : a.Domain g} {c d : ChaoticState M}

/-- One step keeps the values below every solution. -/
theorem Sound.step (hg : g.Coherent) (h : Sound D c) (hstep : Step a g c d) : Sound D d := by
  cases hstep with
  | @grow V W changed e rest steps q hupdate =>
    refine ⟨?_, fun f hf => h.todo f (List.mem_cons_of_mem _ hf)⟩
    rcases h.approximates.update_cases hg (h.todo e (List.mem_cons_self ..)) with
      ⟨hnone, -⟩ | ⟨q', W', hsome, hgrowth⟩
    · cases hupdate.symm.trans hnone
    · cases hupdate.symm.trans hsome
      exact hgrowth.approximates
  | keep => exact ⟨h.approximates, fun f hf => h.todo f (List.mem_cons_of_mem _ hf)⟩
  | again => exact ⟨h.approximates, by simp⟩

/-- So they are in every state of the loop. -/
theorem Sound.of_reached (hg : g.Coherent) (D : a.Domain g) (h : Reached a g c) : Sound D c := by
  obtain ⟨V, slot, hstart, hrun⟩ := h
  induction hrun with
  | refl =>
    obtain ⟨V', slot', hstart', happrox, -⟩ := Analysis.Domain.start_eq_ok hg D
    cases hstart.symm.trans hstart'
    exact ⟨happrox, by simp⟩
  | tail _ hstep ih => exact ih.step hg hstep

/-- A state is done, or there is a step. -/
theorem Sound.progress (hg : g.Coherent) (h : Sound D c) : c.Done ∨ ∃ d, Step a g c d := by
  obtain ⟨V, changed, todo, steps⟩ := c
  cases todo with
  | nil =>
    cases changed with
    | false => exact .inl ⟨rfl, rfl⟩
    | true => exact .inr ⟨_, .again⟩
  | cons e rest =>
    rcases h.approximates.update_cases hg (h.todo e (List.mem_cons_self ..)) with
      ⟨hnone, -⟩ | ⟨q, W, hsome, -⟩
    · exact .inr ⟨_, .keep hnone⟩
    · exact .inr ⟨_, .grow hsome⟩

end ChaoticState

/-! ## Worklists -/

namespace WorklistState

/-- The values approximate the least solution, nodes of the graph wait, and edges of the graph are
still to be evaluated. -/
structure Sound (D : a.Domain g) (c : WorklistState M) : Prop where
  approximates : D.Approximates c.values
  frontier : c.frontier.Fits g.nodes.size
  todo : ∀ i ∈ c.todo, ∃ e, g.edgeAt i = .ok e ∧ e ∈ g.edges

variable {D : a.Domain g} {c d : WorklistState M}

/-- One step keeps the values below every solution, and what waits in range. -/
theorem Sound.step (hg : g.Coherent) (h : Sound D c) (hstep : Step a g c d) : Sound D d := by
  cases hstep with
  | @take V f f' id steps n hpop hnode =>
    refine ⟨h.approximates, (h.frontier.pop hpop).2, fun i hi => ?_⟩
    obtain ⟨e, he, -⟩ := (Analysis.mem_leaving hg (Graph.nodeAt_eq_ok.mp hnode) i).mp hi
    exact ⟨e, Graph.edgeAt_eq_ok.mpr he, Array.mem_of_getElem? he⟩
  | @grow V W f i q steps rest e hedge hupdate =>
    obtain ⟨e', he', hmem⟩ := h.todo i (List.mem_cons_self ..)
    cases hedge.symm.trans he'
    rcases h.approximates.update_cases hg hmem with ⟨hnone, -⟩ | ⟨q', W', hsome, hgrowth⟩
    · cases hupdate.symm.trans hnone
    · cases hupdate.symm.trans hsome
      exact ⟨hgrowth.approximates, h.frontier.push hgrowth.goal,
        fun j hj => h.todo j (List.mem_cons_of_mem _ hj)⟩
  | keep => exact ⟨h.approximates, h.frontier, fun j hj => h.todo j (List.mem_cons_of_mem _ hj)⟩

theorem Sound.of_reached (hg : g.Coherent) (D : a.Domain g) {s : Strategy} (h : Reached a g s c) :
    Sound D c := by
  obtain ⟨f, V, slot, hf, hstart, hrun⟩ := h
  induction hrun with
  | refl =>
    obtain ⟨V', slot', hstart', happrox, hslot, -⟩ := Analysis.Domain.start_eq_ok hg D
    cases hstart.symm.trans hstart'
    exact ⟨happrox, (Frontier.Fits.ofStrategy hg hf).push hslot, by simp⟩
  | tail _ hstep ih => exact ih.step hg hstep

/-- A state is done, or there is a step. -/
theorem Sound.progress (hg : g.Coherent) (h : Sound D c) : c.Done ∨ ∃ d, Step a g c d := by
  obtain ⟨V, f, todo, steps⟩ := c
  cases todo with
  | nil =>
    cases hpop : f.pop? with
    | none => exact .inl ⟨rfl, hpop⟩
    | some taken =>
      obtain ⟨id, f'⟩ := taken
      obtain ⟨n, hn, -⟩ := hg.nodeAt (h.frontier.pop hpop).1
      exact .inr ⟨_, .take hpop hn⟩
  | cons i rest =>
    obtain ⟨e, he, hmem⟩ := h.todo i (List.mem_cons_self ..)
    rcases h.approximates.update_cases hg hmem with ⟨hnone, -⟩ | ⟨q, W, hsome, -⟩
    · exact .inr ⟨_, .keep he hnone⟩
    · exact .inr ⟨_, .grow he hsome⟩

end WorklistState

/-! ## Accesses in range -/

/--
No state that a solver gets into is one at which its loop breaks off, and the accesses made there
are in range: the values are as many as the nodes, and they are mappings that fit the graph; edges
are evaluated by strict operations just as well; nodes that wait are nodes of the graph.
-/
structure Analysis.InRange (a : Analysis M) (g : Graph) (o : Strict.Operations M)
    (fits : M → Prop) : Prop where
  chaotic : ∀ c : ChaoticState M, c.Reached a g →
    (c.Done ∨ ∃ d, ChaoticState.Step a g c d) ∧
    c.values.size = g.nodes.size ∧ (∀ i m, c.values.value i = some m → fits m) ∧
    ∀ e ∈ c.todo, ∃ r, o.update a g c.values e = .ok r ∧ a.update g c.values e = .ok r
  worklist : ∀ (s : Strategy) (c : WorklistState M), c.Reached a g s →
    (c.Done ∨ ∃ d, WorklistState.Step a g c d) ∧
    c.values.size = g.nodes.size ∧ (∀ i m, c.values.value i = some m → fits m) ∧
    c.frontier.Fits g.nodes.size ∧
    ∀ i ∈ c.todo, ∃ e r, g.edgeAt i = .ok e ∧ o.update a g c.values e = .ok r ∧
      a.update g c.values e = .ok r

/-- The strict operations succeed on everything that comes up. -/
theorem Analysis.Domain.inRange (hg : g.Coherent) (D : a.Domain g) {o : Strict.Operations M}
    (ho : o.Agree D) : a.InRange g o D.Proper where
  chaotic c hc := by
    have hsound := ChaoticState.Sound.of_reached hg D hc
    have happrox := hsound.approximates
    exact ⟨hsound.progress hg, happrox.size, happrox.proper, fun e he =>
      ho.update hg happrox (hsound.todo e he)⟩
  worklist s c hc := by
    have hsound := WorklistState.Sound.of_reached hg D hc
    have happrox := hsound.approximates
    refine ⟨hsound.progress hg, happrox.size, happrox.proper, hsound.frontier, fun i hi => ?_⟩
    obtain ⟨e, he, hmem⟩ := hsound.todo i hi
    obtain ⟨r, hr, hr'⟩ := ho.update hg happrox hmem
    exact ⟨e, r, he, hr, hr'⟩

end MicroFlow
