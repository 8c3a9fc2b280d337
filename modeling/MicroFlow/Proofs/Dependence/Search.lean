import Mathlib.Data.List.Perm.Subperm
import Mathlib.Logic.Relation
import MicroFlow.Dependence.Slice
import MicroFlow.Graph.Compile
import MicroFlow.Proofs.Except

/-!
# Slices are closures of the dependences

A slice is found by a search that keeps the edges it has found and a queue of those it has not
looked at yet.  `Searches` is this search as a loop that goes on until the queue is empty.  One
turn of the loop keeps four facts (`Explored.next`), so that they hold when it ends
(`Searches.explored`): what was found is then all that chains of steps lead to.  The bound in
`search` is never felt, because every edge is looked at once (`searches_search`).

The steps of the two directions run over the same dependences, against each other
(`mem_neighbours_backward`, `mem_neighbours_forward`).  So an edge is in the backward slice of
another exactly when the other is in its forward slice (`slices_are_closures`).
-/

namespace MicroFlow

namespace DependenceGraph

open Relation

/-! ## One turn of the search -/

/-- What is fresh was not visited. -/
theorem mem_fresh {visited candidates : List Int} {y : Int} :
    y ∈ fresh visited candidates ↔ y ∈ candidates ∧ y ∉ visited := by
  induction candidates generalizing visited with
  | nil => simp [fresh]
  | cons x rest ih =>
    rw [fresh]
    by_cases hx : x ∈ visited
    · rw [if_pos (by simpa using hx), ih, List.mem_cons]
      constructor
      · rintro ⟨hy, hnew⟩
        exact ⟨.inr hy, hnew⟩
      · rintro ⟨rfl | hy, hnew⟩
        · exact absurd hx hnew
        · exact ⟨hy, hnew⟩
    · rw [if_neg (by simpa using hx), List.mem_cons, ih, List.mem_cons]
      by_cases hyx : y = x
      · simp [hyx, hx]
      · simp [hyx]

/-- Fresh candidates are listed once. -/
theorem nodup_fresh (visited candidates : List Int) : (fresh visited candidates).Nodup := by
  induction candidates generalizing visited with
  | nil => simp [fresh]
  | cons x rest ih =>
    rw [fresh]
    split
    · exact ih visited
    · refine List.nodup_cons.mpr ⟨fun hx => ?_, ih (x :: visited)⟩
      exact (mem_fresh.mp hx).2 (List.mem_cons_self ..)

theorem nodup_fresh_append {visited : List Int} (h : visited.Nodup) (candidates : List Int) :
    (fresh visited candidates ++ visited).Nodup := by
  refine List.nodup_append.mpr ⟨nodup_fresh visited candidates, h, ?_⟩
  intro x hx y hy hxy
  exact (mem_fresh.mp hx).2 (hxy ▸ hy)

section Search

variable (step : Int → List Int)

/-- The search as a loop: it looks at the edges in the queue until there are none. -/
inductive Searches : List Int → List Int → List Int → Prop
  | done (visited : List Int) : Searches visited [] visited
  | next {visited queue found : List Int} {e : Int}
      (rest : Searches (fresh visited (step e) ++ visited)
        (queue ++ fresh visited (step e)) found) :
      Searches visited (e :: queue) found

/-- What holds whenever the search from `start` looks at its queue: what was found can be reached,
and its steps have been taken or wait in the queue. -/
structure Explored (start : Int) (visited queue : List Int) : Prop where
  nodup : visited.Nodup
  start_mem : start ∈ visited
  queued : ∀ x ∈ queue, x ∈ visited
  reached : ∀ x ∈ visited, ReflTransGen (fun a b => b ∈ step a) start x
  pending : ∀ x ∈ visited, x ∈ queue ∨ ∀ y ∈ step x, y ∈ visited

variable {step} {start e : Int} {visited queue found : List Int}

/-- Before the first turn, the start is all that was found. -/
theorem explored_start (start : Int) : Explored step start [start] [start] where
  nodup := by simp
  start_mem := by simp
  queued := by simp
  reached x hx := by
    rw [List.mem_singleton.mp hx]
  pending x hx := .inl hx

/-- One turn: the edge at the head of the queue is looked at, and what is found waits. -/
theorem Explored.next (h : Explored step start visited (e :: queue)) :
    Explored step start (fresh visited (step e) ++ visited) (queue ++ fresh visited (step e)) where
  nodup := nodup_fresh_append h.nodup (step e)
  start_mem := List.mem_append_right _ h.start_mem
  queued x hx := by
    rcases List.mem_append.mp hx with hx | hx
    · exact List.mem_append_right _ (h.queued x (List.mem_cons_of_mem _ hx))
    · exact List.mem_append_left _ hx
  reached x hx := by
    rcases List.mem_append.mp hx with hx | hx
    · exact (h.reached e (h.queued e (List.mem_cons_self ..))).tail (mem_fresh.mp hx).1
    · exact h.reached x hx
  pending x hx := by
    have htaken : ∀ y ∈ step e, y ∈ fresh visited (step e) ++ visited := by
      intro y hy
      by_cases hv : y ∈ visited
      · exact List.mem_append_right _ hv
      · exact List.mem_append_left _ (mem_fresh.mpr ⟨hy, hv⟩)
    rcases List.mem_append.mp hx with hx | hx
    · exact .inl (List.mem_append_right _ hx)
    · rcases h.pending x hx with hqueue | hstep
      · rcases List.mem_cons.mp hqueue with rfl | hqueue
        · exact .inr htaken
        · exact .inl (List.mem_append_left _ hqueue)
      · exact .inr fun y hy => List.mem_append_right _ (hstep y hy)

/-! ## The whole search -/

/-- A search keeps what it has explored, to its end. -/
theorem Searches.explored (h : Searches step visited queue found)
    (hstart : Explored step start visited queue) : Explored step start found [] := by
  induction h with
  | done => exact hstart
  | next _ ih => exact ih hstart.next

/-- An explored set without a queue is the closure of its start. -/
theorem Explored.mem_iff (h : Explored step start found []) {x : Int} :
    x ∈ found ↔ ReflTransGen (fun a b => b ∈ step a) start x := by
  refine ⟨h.reached x, fun hchain => ?_⟩
  induction hchain with
  | refl => exact h.start_mem
  | tail _ hstep ih =>
    rcases h.pending _ ih with hqueue | hclosed
    · cases hqueue
    · exact hclosed _ hstep

/-- Enough fuel for the search to end.  All that it can find is in `world`; a turn takes one edge
from the queue, and puts one there for each edge that it finds. -/
theorem searches_search (world : List Int) (hworld : ∀ x, ∀ y ∈ step x, y ∈ world) {fuel : Nat}
    (hnodup : visited.Nodup) (hsub : ∀ x ∈ visited, x ∈ world)
    (hfuel : world.length + queue.length < fuel + visited.length) :
    Searches step visited queue (search step fuel visited queue) := by
  induction fuel generalizing visited queue with
  | zero =>
    have hle : visited.length ≤ world.length := (List.subperm_of_subset hnodup hsub).length_le
    omega
  | succ fuel ih =>
    cases queue with
    | nil => exact .done visited
    | cons e queue =>
      rw [search]
      refine .next (ih (nodup_fresh_append hnodup (step e)) (fun x hx => ?_) ?_)
      · rcases List.mem_append.mp hx with hx | hx
        · exact hworld e x (mem_fresh.mp hx).1
        · exact hsub x hx
      · simp only [List.length_append, List.length_cons] at hfuel ⊢
        omega

end Search

/-! ## Slices -/

/-- One edge affects another by a dependence that counts.  When a variable is given, dependences
by data count for this variable only. -/
def Affects (d : DependenceGraph) (only : Option String) (a b : Int) : Prop :=
  ∃ x ∈ d.dependences, x.source = a ∧ x.target = b ∧
    ∀ w, only = some w → x.kind = .data → x.label = w

/-- A chosen name restricts data dependences only. -/
theorem follows_iff {only : Option String} {x : Dependence} :
    follows only x = true ↔ ∀ w, only = some w → x.kind = .data → x.label = w := by
  unfold follows
  cases only with
  | none => simp
  | some w =>
    cases x.kind with
    | control => simp
    | data => simp

variable {d : DependenceGraph} {only : Option String} {a b : Int}

/-- Backward neighbours are what affects an edge. -/
theorem mem_neighbours_backward : b ∈ d.neighbours .backward only a ↔ d.Affects only b a := by
  simp only [neighbours, List.mem_filterMap, List.mem_filter, follows_iff,
    Option.ite_none_right_eq_some, Option.some.injEq]
  constructor
  · rintro ⟨x, ⟨hx, hcounts⟩, htarget, hsource⟩
    exact ⟨x, hx, hsource, htarget, hcounts⟩
  · rintro ⟨x, hx, hsource, htarget, hcounts⟩
    exact ⟨x, ⟨hx, hcounts⟩, htarget, hsource⟩

/-- Forward neighbours are what it affects. -/
theorem mem_neighbours_forward : b ∈ d.neighbours .forward only a ↔ d.Affects only a b := by
  simp only [neighbours, List.mem_filterMap, List.mem_filter, follows_iff,
    Option.ite_none_right_eq_some, Option.some.injEq]
  constructor
  · rintro ⟨x, ⟨hx, hcounts⟩, hsource, htarget⟩
    exact ⟨x, hx, hsource, htarget, hcounts⟩
  · rintro ⟨x, hx, hsource, htarget, hcounts⟩
    exact ⟨x, ⟨hx, hcounts⟩, hsource, htarget⟩

/-- All neighbours are ends of dependences, which bounds the search. -/
theorem neighbours_subset (d : DependenceGraph) (dir : Direction) (only : Option String) :
    ∃ ends : List Int, ends.length = d.dependences.length ∧
      ∀ x, ∀ y ∈ d.neighbours dir only x, y ∈ ends := by
  cases dir with
  | backward =>
    refine ⟨d.dependences.map Dependence.source, by simp, fun x y hy => ?_⟩
    obtain ⟨a, ha, rfl, -⟩ := mem_neighbours_backward.mp hy
    exact List.mem_map_of_mem ha
  | forward =>
    refine ⟨d.dependences.map Dependence.target, by simp, fun x y hy => ?_⟩
    obtain ⟨a, ha, -, rfl, -⟩ := mem_neighbours_forward.mp hy
    exact List.mem_map_of_mem ha

/-- A slice is listed in ascending order. -/
theorem ascending_mergeSort {found : List Int} (h : found.Nodup) :
    found.mergeSort.Pairwise (· < ·) := by
  have hsorted : found.mergeSort.Pairwise fun a b => decide (a ≤ b) = true := by
    refine List.pairwise_mergeSort (fun a b c hab hbc => ?_) (fun a b => ?_) found
    · simp only [decide_eq_true_eq] at hab hbc ⊢
      omega
    · simp only [Bool.or_eq_true, decide_eq_true_eq]
      omega
  have hnodup : found.mergeSort.Nodup := (List.mergeSort_perm found _).nodup_iff.mpr h
  refine (hsorted.and hnodup).imp fun ⟨hle, hne⟩ => ?_
  have hle' := of_decide_eq_true hle
  omega

/-- The slice of an edge of the graph: in ascending order, what chains of steps lead to. -/
theorem exists_slice (d : DependenceGraph) (dir : Direction) (only : Option String) {i : Nat}
    (hi : i < d.program.edges.size) :
    ∃ S, d.slice dir only i = some S ∧ S.Pairwise (· < ·) ∧
      ∀ x, x ∈ S ↔ ReflTransGen (fun a b => b ∈ d.neighbours dir only a) i x := by
  obtain ⟨ends, hlength, hends⟩ := d.neighbours_subset dir only
  have hsearches : Searches (d.neighbours dir only) [(i : Int)] [(i : Int)]
      (search (d.neighbours dir only) (2 * d.dependences.length + 2) [(i : Int)] [(i : Int)]) := by
    refine searches_search (i :: ends) (fun x y hy => ?_) (by simp) (by simp) ?_
    · exact List.mem_cons_of_mem _ (hends x y hy)
    · simp only [List.length_cons, List.length_nil]
      omega
  have hexplored := hsearches.explored (explored_start (i : Int))
  refine ⟨_, by rw [slice, if_neg (by omega)], ascending_mergeSort hexplored.nodup, fun x => ?_⟩
  rw [List.mem_mergeSort]
  exact hexplored.mem_iff

theorem program_ofGraph {g : Graph} {d : DependenceGraph} (h : ofGraph g = .ok d) :
    d.program = g := by
  simp only [ofGraph, bind_eq_ok] at h
  obtain ⟨_, -, _, -, _, -, h⟩ := h
  cases h
  rfl

end DependenceGraph

open DependenceGraph in
/--
Slices are closures of the dependences, and dual to each other.  The backward slice of an edge
ascends strictly and consists of the edges from which a chain of dependences leads to it; the
forward slice of an edge likewise of the ends of the chains from it.  When a variable is given,
the dependences by data in a chain are those on this variable.  So an edge is in the backward slice
of another exactly when the other is in its forward slice.
-/
theorem slices_are_closures {g : Graph} {d : DependenceGraph} (h : ofGraph g = .ok d)
    (only : Option String) {a b : Nat} (ha : a < g.edges.size) (hb : b < g.edges.size) :
    ∃ B F, d.slice .backward only b = some B ∧ d.slice .forward only a = some F ∧
      B.Pairwise (· < ·) ∧ F.Pairwise (· < ·) ∧
      (∀ x, x ∈ B ↔ Relation.ReflTransGen (d.Affects only) x b) ∧
      (∀ x, x ∈ F ↔ Relation.ReflTransGen (d.Affects only) a x) ∧
      ((a : Int) ∈ B ↔ (b : Int) ∈ F) := by
  obtain rfl := program_ofGraph h
  obtain ⟨B, hB, hascends, hmem⟩ := d.exists_slice .backward only hb
  obtain ⟨F, hF, hascends', hmem'⟩ := d.exists_slice .forward only ha
  simp only [mem_neighbours_backward, mem_neighbours_forward] at hmem hmem'
  have hback : ∀ x, x ∈ B ↔ Relation.ReflTransGen (d.Affects only) x b := by
    intro x
    rw [hmem, Relation.reflTransGen_swap]
  refine ⟨B, F, hB, hF, hascends, hascends', hback, hmem', ?_⟩
  rw [hback, hmem']

/-- Adds up the numbers below an input: a loop in which both variables depend on themselves. -/
def sumUp : Text.Bytes :=
  ("int a; int b; read a; while (a > 0) \x7b b := b + a; a := a - 1; \x7d " ++
    "write b;").toUTF8.toList

def sumUpDependences : List Dependence :=
  let guard := "a > 0"
  [⟨2, 3, .data, "a"⟩, ⟨5, 3, .data, "a"⟩, ⟨4, 4, .data, "b"⟩, ⟨2, 4, .data, "a"⟩,
    ⟨5, 4, .data, "a"⟩, ⟨3, 4, .control, guard⟩, ⟨2, 5, .data, "a"⟩, ⟨5, 5, .data, "a"⟩,
    ⟨3, 5, .control, guard⟩, ⟨2, 6, .data, "a"⟩, ⟨5, 6, .data, "a"⟩, ⟨4, 7, .data, "b"⟩]

open DependenceGraph in
/-- With `b` as the only variable, the guard of the loop is in the backward slice of the last
edge, by a chain through the sum, which affects itself.  The input is not, though it affects the
guard. -/
theorem slices_are_closures_sumUp :
    ∃ c d B F, compile sumUp = .ok c ∧ ofGraph c.graph = .ok d ∧
      d.slice .backward (some "b") 7 = some B ∧ d.slice .forward (some "b") 3 = some F ∧
      B.Pairwise (· < ·) ∧ F.Pairwise (· < ·) ∧ 3 ∈ B ∧ 7 ∈ F ∧ 4 ∈ B ∧ 4 ∈ F ∧ 2 ∉ B ∧
      d.Affects (some "b") 4 4 ∧ d.Affects none 2 3 := by
  have hcheck : (compile sumUp).toOption.bind (fun c => (ofGraph c.graph).toOption.map
      fun d => (c.graph.edges.size, d.dependences)) = some (8, sumUpDependences) := by
    decide +kernel
  cases hc : compile sumUp with
  | error e => simp [hc, Except.toOption] at hcheck
  | ok c =>
    cases hd : ofGraph c.graph with
    | error e => simp [hc, hd, Except.toOption] at hcheck
    | ok d =>
      simp only [hc, hd, Except.toOption, Option.bind_some, Option.map_some, Option.some.injEq,
        Prod.mk.injEq] at hcheck
      obtain ⟨hsize, hdeps⟩ := hcheck
      obtain ⟨B, F, hB, hF, hascends, hascends', hback, hforth, hdual⟩ :=
        slices_are_closures (a := 3) (b := 7) hd (some "b") (by omega) (by omega)
      have hguard : d.Affects (some "b") 3 4 := ⟨⟨3, 4, .control, "a > 0"⟩, by
        simp [hdeps, sumUpDependences], rfl, rfl, by simp⟩
      have hsum : ∀ n : Int, n = 4 ∨ n = 7 → d.Affects (some "b") 4 n := by
        rintro n (rfl | rfl)
        · exact ⟨⟨4, 4, .data, "b"⟩, by simp [hdeps, sumUpDependences], rfl, rfl, by simp⟩
        · exact ⟨⟨4, 7, .data, "b"⟩, by simp [hdeps, sumUpDependences], rfl, rfl, by simp⟩
      have hread : d.Affects none 2 3 :=
        ⟨⟨2, 3, .data, "a"⟩, by simp [hdeps, sumUpDependences], rfl, rfl, by simp⟩
      have hmem : (3 : Int) ∈ B :=
        (hback 3).mpr (.head hguard (.single (hsum 7 (.inr rfl))))
      have hnone : (2 : Int) ∉ B := by
        rw [hback]
        intro hchain
        -- all that the input affects it affects by the other variable
        have hother : ∀ y ∈ sumUpDependences, y.source = 2 → y.kind = .data ∧ y.label = "a" := by
          decide
        obtain hend | ⟨x, ⟨y, hy, hsource, -, hcounts⟩, -⟩ := hchain.cases_head
        · omega
        · obtain ⟨hkind, hlabel⟩ := hother y (hdeps ▸ hy) hsource
          rw [hcounts "b" rfl hkind] at hlabel
          exact absurd hlabel (by decide)
      refine ⟨c, d, B, F, rfl, hd, hB, hF, hascends, hascends', hmem, hdual.mp hmem, ?_, ?_, hnone,
        hsum 4 (.inl rfl), hread⟩
      · exact (hback 4).mpr (.single (hsum 7 (.inr rfl)))
      · exact (hforth 4).mpr (.single hguard)

end MicroFlow
