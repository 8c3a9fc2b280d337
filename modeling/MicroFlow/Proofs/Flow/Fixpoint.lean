import Mathlib.Algebra.BigOperators.Group.Finset.Basic
import Mathlib.Algebra.Order.BigOperators.Group.Finset
import MicroFlow.Proofs.Flow.Domain
import MicroFlow.Proofs.Flow.Frontier

/-!
# Solvers find the least solution

A solution of an analysis is a table with the initial mapping below the value at the start
and the value behind every edge below the value at the node it leads to (`Solves`).  Both
kinds of solvers return the least one (`Least`), whatever the strategy.

The argument is the same for both.  `Approximates` is the invariant: the values on the way
are below every solution, and stay proper.  Evaluating an edge keeps it (`update_cases`),
and either the edge is settled already or a value grows.  Growth is counted by `weight`, the
sum of the levels of all values, which cannot exceed the number of nodes times the largest
rank; so the fuel is never used up.
-/

namespace MicroFlow

variable {M : Type}

/-! ## Tables of values -/

/-- The value at a position; beyond the table it is undefined. -/
def Values.value (V : Values M) (i : Nat) : Option M := V[i]?.join

variable {i : Nat}

/-- Setting a value changes no other. -/
theorem Values.value_set {V : Values M} (hi : i < V.size) (x : Option M) (j : Nat) :
    Values.value (V.setIfInBounds i x) j = if j = i then x else V.value j := by
  unfold Values.value
  by_cases hij : i = j
  · subst hij
    simp [hi]
  · rw [Array.getElem?_setIfInBounds_ne hij, if_neg (Ne.symm hij)]

theorem Values.ext {V W : Values M} (hsize : V.size = W.size) (h : ∀ i, V.value i = W.value i) :
    V = W := by
  refine Array.ext hsize fun i hV hW => ?_
  have hi := h i
  simpa [Values.value, hV, hW] using hi

namespace Analysis

/-- The value behind an edge is below the value at the node that the edge leads to. -/
def Settled (a : Analysis M) (V : Values M) (e : Edge) : Prop :=
  ∀ p q, a.origin e = .listed p → a.goal e = .listed q →
    ∃ v, a.apply (V.value p) e = .ok v ∧ a.leq v (V.value q) = true

/-- A solution: it includes the initial mapping at the start, and every edge is settled. -/
structure Solves (a : Analysis M) (g : Graph) (V : Values M) : Prop where
  size : V.size = g.nodes.size
  start : ∀ n, g.start a.reverse = .ok n → a.leq (some a.initial) (V.value n.id.toNat) = true
  edge : ∀ e ∈ g.edges, a.Settled V e

variable {e : Edge} {p q : Nat} {v : Option M}

/-- Every edge leads from a node to a node, in the direction of the analysis. -/
theorem flow_listed {a : Analysis M} {g : Graph} (hg : g.Coherent) (he : e ∈ g.edges) :
    ∃ p q, p < g.nodes.size ∧ q < g.nodes.size ∧ a.origin e = .listed p ∧ a.goal e = .listed q := by
  obtain ⟨p, q, hp, hq, hs, ht⟩ := hg.ends_listed he
  unfold origin goal
  cases a.reverse with
  | false => exact ⟨p, q, hp, hq, by simpa using hs, by simpa using ht⟩
  | true => exact ⟨q, p, hq, hp, by simpa using ht, by simpa using hs⟩

/-- The edges that leave a node in that direction. -/
theorem mem_leaving {a : Analysis M} {g : Graph} (hg : g.Coherent) {n : Node}
    (hn : g.nodeAt? p = some n) (i : Nat) :
    i ∈ a.leaving n ↔ ∃ e, g.edges[i]? = some e ∧ a.origin e = .listed p := by
  unfold leaving origin
  cases a.reverse with
  | false => simpa using hg.out p n hn i
  | true => simpa using hg.into p n hn i

theorem valueAt_eq_ok {V : Values M} (hi : i < V.size) :
    valueAt V (i : Int) = .ok (i, V.value i) := by
  rw [valueAt, if_pos ⟨by omega, by exact_mod_cast hi⟩]
  simp [Values.value]

/-- What evaluating an edge gives. -/
theorem update_eq {a : Analysis M} {g : Graph} (hg : g.Coherent) {V : Values M}
      (hV : V.size = g.nodes.size) (hp : p < g.nodes.size)
    (hq : q < g.nodes.size) (ho : a.origin e = .listed p) (hgoal : a.goal e = .listed q)
    (hv : a.apply (V.value p) e = .ok v) :
    a.update g V e = .ok (if a.leq v (V.value q) then none
      else some (q, V.setIfInBounds q (a.join (V.value q) v))) := by
  obtain ⟨n, hn, -, hnid⟩ := hg.endNode hp
  obtain ⟨m, hm, -, hmid⟩ := hg.endNode hq
  have hvp : valueAt V (p : Int) = .ok (p, V.value p) := valueAt_eq_ok (by omega)
  have hvq : valueAt V (q : Int) = .ok (q, V.value q) := valueAt_eq_ok (by omega)
  simp only [update, ho, hgoal, hn, hm, hnid, hmid, hvp, hvq, hv, bind, Except.bind]
  split <;> rfl

namespace Domain

variable {a : Analysis M} {g : Graph} (D : a.Domain g)

/-- A table of mappings of the graph. -/
def ShapedTable (V : Values M) : Prop := ∀ i, D.ShapedValue (V.value i)

/-- A table on the way to the least solution. -/
structure Approximates (V : Values M) : Prop where
  size : V.size = g.nodes.size
  proper : ∀ i, D.ProperValue (V.value i)
  start : ∀ n, g.start a.reverse = .ok n → a.leq (some a.initial) (V.value n.id.toNat) = true
  below : ∀ T, D.ShapedTable T → a.Solves g T → ∀ i, a.leq (V.value i) (T.value i) = true

/-- The least solution: a solution of proper mappings below every solution. -/
structure Least (V : Values M) : Prop where
  solves : a.Solves g V
  proper : ∀ i, D.ProperValue (V.value i)
  below : ∀ T, D.ShapedTable T → a.Solves g T → ∀ i, a.leq (V.value i) (T.value i) = true

/-- How far all values together have grown. -/
def weight (V : Values M) : Nat := ∑ i ∈ Finset.range g.nodes.size, D.level (V.value i)

variable {D} {V W : Values M}

theorem Least.shaped (h : D.Least V) : D.ShapedTable V := fun i => (h.proper i).shaped

/-- There is one least solution, so all solvers agree. -/
theorem Least.unique (hV : D.Least V) (hW : D.Least W) : V = W := by
  refine Values.ext (hV.solves.size.trans hW.solves.size.symm) fun i => ?_
  exact leq_antisymm (hV.proper i) (hW.proper i) (hV.below W hW.shaped hW.solves i)
    (hW.below V hV.shaped hV.solves i)

theorem Approximates.least (h : D.Approximates V) (hall : ∀ e ∈ g.edges, a.Settled V e) :
    D.Least V :=
  ⟨⟨h.size, h.start, hall⟩, h.proper, h.below⟩

/-- The weight is bounded by nodes and ranks. -/
theorem Approximates.weight_le (h : D.Approximates V) : D.weight V ≤ g.nodes.size * D.top := by
  have hsum : D.weight V ≤ ∑ _i ∈ Finset.range g.nodes.size, D.top :=
    Finset.sum_le_sum fun i _ => level_le (h.proper i)
  simpa using hsum

/-- An edge stays settled when the value it leads from stays and the one it leads to grows. -/
theorem settled_mono (he : e ∈ g.edges) (h : a.Settled V e) (hV : D.Approximates V)
    (hW : D.Approximates W) (horigin : ∀ p, a.origin e = .listed p → W.value p = V.value p)
    (hle : ∀ i, a.leq (V.value i) (W.value i) = true) : a.Settled W e := by
  intro p q hp hq
  obtain ⟨v, hv, hvq⟩ := h p q hp hq
  refine ⟨v, by rw [horigin p hp, hv], ?_⟩
  exact leq_trans ((hV.proper p).apply he hv).shaped (hV.proper q).shaped (hW.proper q).shaped
    hvq (hle q)

/-! ## One edge -/

/-- What happened when a value has grown along an edge: `V` became `W` at position `q`. -/
structure Growth (D : a.Domain g) (V W : Values M) (e : Edge) (q : Nat) : Prop where
  approximates : D.Approximates W
  goal : q < g.nodes.size
  weight : D.weight V < D.weight W
  same : ∀ i, i ≠ q → W.value i = V.value i
  grown : ∀ i, a.leq (V.value i) (W.value i) = true
  settled : a.origin e ≠ .listed q → a.Settled W e

/-- Raising one value makes no value smaller. -/
theorem Approximates.leq_raise (h : D.Approximates V) (hq : q < g.nodes.size)
    (hv : D.ProperValue v) (i : Nat) :
    a.leq (V.value i) (Values.value (V.setIfInBounds q (a.join (V.value q) v)) i) = true := by
  rw [Values.value_set (h.size ▸ hq)]
  split
  · rename_i hi
    rw [hi]
    exact leq_join_left (h.proper q).shaped hv.shaped
  · exact leq_refl (h.proper i).shaped

/-- Values stay below every solution when what is joined to them is. -/
theorem Approximates.raise (h : D.Approximates V) (hq : q < g.nodes.size) (hv : D.ProperValue v)
    (hbelow : ∀ T, D.ShapedTable T → a.Solves g T → a.leq v (T.value q) = true) :
    D.Approximates (V.setIfInBounds q (a.join (V.value q) v)) := by
  have hvalue := Values.value_set (h.size ▸ hq) (a.join (V.value q) v)
  have hproper : ∀ i, D.ProperValue
      (Values.value (V.setIfInBounds q (a.join (V.value q) v)) i) := by
    intro i
    rw [hvalue]
    split
    · exact (h.proper q).join hv
    · exact h.proper i
  refine ⟨by simpa using h.size, hproper, fun n hn => ?_, fun T hT hsol i => ?_⟩
  · exact leq_trans (properValue_some D.proper_initial).shaped (h.proper _).shaped
      (hproper _).shaped (h.start n hn) (h.leq_raise hq hv _)
  · rw [hvalue]
    split
    · rename_i hi
      subst hi
      exact join_leq (h.proper i).shaped hv.shaped (hT i) (h.below T hT hsol i) (hbelow T hT hsol)
    · exact h.below T hT hsol i

/-- The value behind an edge is below all solutions, because they settle the edge. -/
theorem Approximates.apply_below (h : D.Approximates V) (he : e ∈ g.edges)
    (ho : a.origin e = .listed p) (hgoal : a.goal e = .listed q)
    (hv : a.apply (V.value p) e = .ok v) :
    ∀ T, D.ShapedTable T → a.Solves g T → a.leq v (T.value q) = true := by
  intro T hT hsol
  obtain ⟨u, hu, huq⟩ := hsol.edge e he p q ho hgoal
  obtain ⟨u', hu', hushaped⟩ := exists_apply he (hT p)
  rw [hu] at hu'
  cases hu'
  have hvu : a.leq v u = true :=
    apply_mono he (h.proper p).shaped (hT p) (h.below T hT hsol p) hv hu
  exact leq_trans ((h.proper p).apply he hv).shaped hushaped (hT q) hvu huq

/-- Evaluating an edge finds it settled, or makes a value grow. -/
theorem Approximates.update_cases (hg : g.Coherent) (h : D.Approximates V) (he : e ∈ g.edges) :
    a.update g V e = .ok none ∧ a.Settled V e ∨
      ∃ q W, a.update g V e = .ok (some (q, W)) ∧ Growth D V W e q := by
  obtain ⟨p, q, hp, hq, ho, hgoal⟩ := flow_listed (a := a) hg he
  obtain ⟨v, hv, -⟩ := exists_apply he (h.proper p).shaped
  have hproper : D.ProperValue v := (h.proper p).apply he hv
  have heq := update_eq hg h.size hp hq ho hgoal hv
  cases hle : a.leq v (V.value q) with
  | true =>
    left
    rw [hle] at heq
    refine ⟨by simpa using heq, ?_⟩
    intro p' q' hp' hq'
    rw [ho] at hp'
    rw [hgoal] at hq'
    cases hp'
    cases hq'
    exact ⟨v, hv, hle⟩
  | false =>
    right
    rw [hle] at heq
    refine ⟨q, V.setIfInBounds q (a.join (V.value q) v), by simpa using heq, ?_⟩
    have hvalue := Values.value_set (h.size ▸ hq) (a.join (V.value q) v)
    refine ⟨h.raise hq hproper (h.apply_below he ho hgoal hv), hq, ?_, ?_, h.leq_raise hq hproper,
      ?_⟩
    · -- one level is higher, and no other has changed
      refine Finset.sum_lt_sum (fun i _ => ?_) ⟨q, Finset.mem_range.mpr hq, ?_⟩
      · rw [hvalue]
        split
        · rename_i hi
          rw [hi]
          exact Nat.le_of_lt (level_lt_join (h.proper q) hproper hle)
        · exact Nat.le_refl _
      · rw [hvalue, if_pos rfl]
        exact level_lt_join (h.proper q) hproper hle
    · intro i hi
      rw [hvalue, if_neg hi]
    · intro hne p' q' hp' hq'
      rw [ho] at hp'
      rw [hgoal] at hq'
      cases hp'
      cases hq'
      -- the value at the source is the old one, unless the edge is a loop
      have hpq : p ≠ q := by
        rintro rfl
        exact hne ho
      refine ⟨v, by rw [hvalue, if_neg hpq, hv], ?_⟩
      rw [hvalue, if_pos rfl]
      exact leq_join_right (h.proper q).shaped hproper.shaped

/-- The table that a solver starts with: only the start is defined. -/
theorem start_eq_ok (hg : g.Coherent) (D : a.Domain g) :
    ∃ V s, a.start g none = .ok (V, s) ∧ D.Approximates V ∧ s < g.nodes.size ∧
      0 < D.weight V ∧ ∀ i, i ≠ s → V.value i = none := by
  obtain ⟨s, n, hs, hstart, -, hid, -, -⟩ := hg.start a.reverse
  have hsize : s < (Array.replicate g.nodes.size (none : Option M)).size := by simpa using hs
  have hvalue := Values.value_set hsize (some a.initial)
  have hnone : ∀ i, Values.value (Array.replicate g.nodes.size (none : Option M)) i = none := by
    intro i
    unfold Values.value
    by_cases hi : i < g.nodes.size
    · simp [hi]
    · have : (Array.replicate g.nodes.size (none : Option M))[i]? = none := by simpa using hi
      rw [this]
      rfl
  have hproper := properValue_some (D := D) D.proper_initial
  refine ⟨(Array.replicate g.nodes.size none).setIfInBounds s (some a.initial), s, ?_, ?_, hs, ?_,
    ?_⟩
  · rw [start, bind_eq_ok]
    refine ⟨n, hstart, ?_⟩
    simp only [hid, Graph.slotOf_natCast hs]
    rfl
  · -- everything but the start is undefined, and so below any solution
    refine ⟨by simp, fun i => ?_, fun m hm => ?_, fun T hT hsol i => ?_⟩
    · rw [hvalue]
      split
      · exact hproper
      · rw [hnone]
        exact properValue_none
    · rw [hstart] at hm
      cases hm
      rw [hid, Int.toNat_natCast, hvalue, if_pos rfl]
      exact leq_refl hproper.shaped
    · rw [hvalue]
      split
      · rename_i hi
        have := hsol.start n hstart
        rwa [hid, Int.toNat_natCast, ← hi] at this
      · rw [hnone]
        simp
  · refine Finset.sum_pos' (fun i _ => Nat.zero_le _) ⟨s, Finset.mem_range.mpr hs, ?_⟩
    rw [hvalue, if_pos rfl]
    exact D.rank_pos a.initial
  · intro i hi
    rw [hvalue, if_neg hi, hnone]

/-! ## Chaotic iteration -/

/--
A pass over edges succeeds.  When it changes nothing, all these edges are settled; when it
changes something, the values have grown.
-/
theorem Approximates.pass (hg : g.Coherent) (edges : List Edge) : ∀ {V : Values M} (changed : Bool),
    D.Approximates V → (∀ e ∈ edges, e ∈ g.edges) →
    ∃ W c, a.pass g V changed edges = .ok (W, c) ∧ D.Approximates W ∧ D.weight V ≤ D.weight W ∧
      (c = true → changed = true ∨ D.weight V < D.weight W) ∧
      (c = false → changed = false ∧ W = V ∧ ∀ e ∈ edges, a.Settled V e) := by
  induction edges with
  | nil =>
    intro V changed hV _
    refine ⟨V, changed, rfl, hV, Nat.le_refl _, .inl, fun hc => ⟨hc, rfl, ?_⟩⟩
    intro e he
    cases he
  | cons e rest ih =>
    intro V changed hV hedges
    have hrest : ∀ f ∈ rest, f ∈ g.edges := fun f hf => hedges f (List.mem_cons_of_mem _ hf)
    rcases hV.update_cases hg (hedges e (List.mem_cons_self ..)) with
      ⟨hup, hsettled⟩ | ⟨q, W, hup, hgrowth⟩
    · obtain ⟨W, c, hpass, hW, hle, htrue, hfalse⟩ := ih changed hV hrest
      refine ⟨W, c, ?_, hW, hle, htrue, fun hc => ?_⟩
      · rw [Analysis.pass, hup]
        exact hpass
      · obtain ⟨hch, heq, hall⟩ := hfalse hc
        refine ⟨hch, heq, fun f hf => ?_⟩
        rcases List.mem_cons.mp hf with rfl | hf
        · exact hsettled
        · exact hall f hf
    · -- an edge that changes a value adds weight, and the flag stays set from then on
      obtain ⟨W', c, hpass, hW', hle, -, hfalse⟩ := ih true hgrowth.approximates hrest
      have hlt := hgrowth.weight
      refine ⟨W', c, ?_, hW', by omega, fun _ => .inr (by omega), fun hc => ?_⟩
      · rw [Analysis.pass, hup]
        exact hpass
      · have := (hfalse hc).1
        cases this

/--
Passes end with the least solution when the fuel exceeds what the values can still grow.
Each pass but the last one makes them grow.
-/
theorem Approximates.passes (hg : g.Coherent) (fuel : Nat) : ∀ {V : Values M} (steps : Nat),
    D.Approximates V → g.nodes.size * D.top < fuel + D.weight V →
    ∃ solution rounds, a.passes g fuel V steps = .ok solution ∧ D.Least solution.values ∧
      solution.steps = steps + rounds * g.edges.size ∧
      rounds + D.weight V ≤ g.nodes.size * D.top + 1 := by
  induction fuel with
  | zero =>
    intro V steps hV hfuel
    have := hV.weight_le
    omega
  | succ fuel ih =>
    intro V steps hV hfuel
    obtain ⟨W, c, hpass, hW, -, htrue, hfalse⟩ := Approximates.pass hg g.edges.toList false hV
      fun e he => by simpa using he
    cases c with
    | false =>
      -- no edge has changed a value, so all are settled
      obtain ⟨-, rfl, hall⟩ := hfalse rfl
      have hle := hW.weight_le
      refine ⟨⟨W, steps + g.edges.size⟩, 1, ?_, hW.least fun e he => hall e (by simpa using he),
        by simp, by omega⟩
      rw [Analysis.passes, hpass]
      rfl
    | true =>
      -- a pass that changes something uses up fuel and adds weight
      have hlt : D.weight V < D.weight W := by
        rcases htrue rfl with h | h
        · cases h
        · exact h
      obtain ⟨solution, rounds, hpasses, hleast, hsteps, hrounds⟩ :=
        ih (steps + g.edges.size) hW (by omega)
      refine ⟨solution, rounds + 1, ?_, hleast, ?_, by omega⟩
      · rw [Analysis.passes, hpass]
        exact hpasses
      · rw [hsteps, Nat.add_mul, Nat.one_mul]
        omega

/-- Chaotic iteration returns the least solution, after a bounded number of full passes. -/
theorem chaotic_least (hg : g.Coherent) (D : a.Domain g) :
    ∃ solution rounds, a.chaotic g none = .ok solution ∧ D.Least solution.values ∧
      solution.steps = rounds * g.edges.size ∧ rounds ≤ g.nodes.size * D.top := by
  obtain ⟨V, s, hstart, hV, -, hweight, -⟩ := start_eq_ok hg D
  have htop : g.nodes.size * D.top ≤ g.nodes.size * a.height := Nat.mul_le_mul_left _ D.top_le
  obtain ⟨solution, rounds, hpasses, hleast, hsteps, hrounds⟩ :=
    Approximates.passes hg (a.growth g) 0 hV (by unfold growth; omega)
  refine ⟨solution, rounds, ?_, hleast, by simpa using hsteps, by omega⟩
  rw [chaotic, hstart]
  exact hpasses

/-! ## Worklists -/

/--
The invariant of a worklist: an edge that is not settled leads from a node that waits, or is
still to be evaluated among `edges`.
-/
structure Covered (D : a.Domain g) (V : Values M) (f : Frontier) (edges : List Nat) : Prop where
  approximates : D.Approximates V
  sound : f.Sound
  listed : ∀ i ∈ f.nodes, i < g.nodes.size
  edge : ∀ (i : Nat) (e : Edge) (p : Nat), g.edges[i]? = some e → a.origin e = .listed p →
    p ∈ f.nodes ∨ i ∈ edges ∨ a.Settled V e

/-- An edge that is settled need not be evaluated. -/
theorem Covered.skip {f : Frontier} {rest : List Nat}
    (h : Covered D V f (i :: rest)) (he : g.edges[i]? = some e) (hsettled : a.Settled V e) :
    Covered D V f rest := by
  refine ⟨h.approximates, h.sound, h.listed, fun j e' p hj hp => ?_⟩
  rcases h.edge j e' p hj hp with hwait | hmem | hset
  · exact .inl hwait
  · rcases List.mem_cons.mp hmem with rfl | hmem
    · rw [he] at hj
      cases hj
      exact .inr (.inr hsettled)
    · exact .inr (.inl hmem)
  · exact .inr (.inr hset)

/-- A value that grows unsettles only edges that lead from its node, which then waits. -/
theorem Covered.grow {f : Frontier} {rest : List Nat}
    (h : Covered D V f (i :: rest)) (he : g.edges[i]? = some e) (hgrowth : Growth D V W e q) :
    Covered D W (f.push q) rest := by
  refine ⟨hgrowth.approximates, h.sound.push q, fun j hj => ?_, fun j e' p hj hp => ?_⟩
  · rcases (h.sound.mem_push q j).mp hj with rfl | hj
    · exact hgrowth.goal
    · exact h.listed j hj
  · by_cases hpq : p = q
    · exact .inl ((h.sound.mem_push q p).mpr (.inl hpq))
    · rcases h.edge j e' p hj hp with hwait | hmem | hset
      · exact .inl ((h.sound.mem_push q p).mpr (.inr hwait))
      · rcases List.mem_cons.mp hmem with rfl | hmem
        · rw [he] at hj
          cases hj
          refine .inr (.inr (hgrowth.settled ?_))
          intro hq
          rw [hq] at hp
          cases hp
          exact hpq rfl
        · exact .inr (.inl hmem)
      · refine .inr (.inr (settled_mono (Array.mem_of_getElem? hj) hset h.approximates
          hgrowth.approximates ?_ hgrowth.grown))
        intro p' hp'
        rw [hp] at hp'
        cases hp'
        exact hgrowth.same p hpq

/-- Evaluating edges succeeds; the frontier grows no more than the values do. -/
theorem Covered.propagate (hg : g.Coherent) {edges : List Nat} : ∀ {V : Values M} {f : Frontier},
    Covered D V f edges → (∀ i ∈ edges, ∃ e, g.edges[i]? = some e) →
    ∃ W f', a.propagate g V f edges = .ok (W, f') ∧ Covered D W f' [] ∧
      f'.nodes.length + D.weight V ≤ f.nodes.length + D.weight W := by
  induction edges with
  | nil =>
    intro V f h _
    exact ⟨V, f, rfl, h, Nat.le_refl _⟩
  | cons i rest ih =>
    intro V f h hedges
    obtain ⟨e, he⟩ := hedges i (List.mem_cons_self ..)
    have hrest : ∀ j ∈ rest, ∃ e, g.edges[j]? = some e := fun j hj =>
      hedges j (List.mem_cons_of_mem _ hj)
    have hat : g.edgeAt i = .ok e := Graph.edgeAt_eq_ok.mpr he
    rcases h.approximates.update_cases hg (Array.mem_of_getElem? he) with
      ⟨hup, hsettled⟩ | ⟨q, W, hup, hgrowth⟩
    · obtain ⟨W, f', hprop, hcov, hlen⟩ := ih (h.skip he hsettled) hrest
      refine ⟨W, f', ?_, hcov, hlen⟩
      rw [Analysis.propagate, hat]
      simp only [bind, Except.bind, hup]
      exact hprop
    · obtain ⟨W', f', hprop, hcov, hlen⟩ := ih (h.grow he hgrowth) hrest
      -- a node that may be pushed is paid for by the weight of the value that grew
      have hpush := f.length_push_le q
      have hlt := hgrowth.weight
      refine ⟨W', f', ?_, hcov, by omega⟩
      rw [Analysis.propagate, hat]
      simp only [bind, Except.bind, hup]
      exact hprop

/--
Draining a frontier ends with the least solution when the fuel exceeds the number of waiting
nodes and what the values can still grow: each node taken lowers the sum of the two.
-/
theorem Covered.drain (hg : g.Coherent) (fuel : Nat) :
    ∀ {V : Values M} {f : Frontier} (steps : Nat),
    Covered D V f [] → f.nodes.length + g.nodes.size * D.top < fuel + D.weight V →
    ∃ solution, a.drain g fuel V f steps = .ok solution ∧ D.Least solution.values ∧
      solution.steps + D.weight V ≤ steps + f.nodes.length + g.nodes.size * D.top := by
  induction fuel with
  | zero =>
    intro V f steps h hfuel
    have := h.approximates.weight_le
    omega
  | succ fuel ih =>
    intro V f steps h hfuel
    rw [Analysis.drain]
    cases hpop : f.pop? with
    | none =>
      -- no node waits, so every edge is settled
      have hempty := Frontier.nodes_eq_nil hpop
      have hle := h.approximates.weight_le
      refine ⟨⟨V, steps⟩, rfl, h.approximates.least fun e he => ?_, by simp only; omega⟩
      obtain ⟨i, hi⟩ := Array.mem_iff_getElem?.mp he
      obtain ⟨p, q, -, -, ho, -⟩ := flow_listed (a := a) hg he
      rcases h.edge i e p hi ho with hwait | hmem | hset
      · simp [hempty] at hwait
      · cases hmem
      · exact hset
    | some taken =>
      obtain ⟨p, f'⟩ := taken
      obtain ⟨hperm, hsound⟩ := Frontier.nodes_pop hpop
      have hp : p < g.nodes.size := h.listed p (hperm.mem_iff.mpr (List.mem_cons_self ..))
      obtain ⟨n, hn, hn', -⟩ := hg.nodeAt hp
      -- the node taken no longer waits, but all edges that lead from it are to be evaluated
      have hcov : Covered D V f' (a.leaving n) := by
        refine ⟨h.approximates, hsound h.sound, fun i hi => ?_, fun i e p' he hp' => ?_⟩
        · exact h.listed i (hperm.mem_iff.mpr (List.mem_cons_of_mem _ hi))
        · rcases h.edge i e p' he hp' with hwait | hmem | hset
          · rcases List.mem_cons.mp (hperm.mem_iff.mp hwait) with rfl | hwait
            · exact .inr (.inl ((mem_leaving hg hn' i).mpr ⟨e, he, hp'⟩))
            · exact .inl hwait
          · cases hmem
          · exact .inr (.inr hset)
      obtain ⟨W, f'', hprop, hcov', hlen⟩ := hcov.propagate hg fun i hi => by
        obtain ⟨e, he, -⟩ := (mem_leaving hg hn' i).mp hi
        exact ⟨e, he⟩
      have hlen' := hperm.length_eq
      simp only [List.length_cons] at hlen'
      obtain ⟨solution, hdrain, hleast, hsteps⟩ := ih (steps + 1) hcov' (by omega)
      refine ⟨solution, ?_, hleast, by omega⟩
      simp only [hn, bind, Except.bind, hprop]
      exact hdrain

/-- A worklist returns the least solution, whatever its strategy, after a bounded number of
steps. -/
theorem worklist_least (hg : g.Coherent) (D : a.Domain g) (s : Strategy) :
    ∃ solution, a.worklist g s none = .ok solution ∧ D.Least solution.values ∧
      solution.steps ≤ g.nodes.size * D.top := by
  obtain ⟨f, hf, hsound, hnil⟩ := Frontier.ofStrategy_eq_ok hg s a.reverse
  obtain ⟨V, slot, hstart, hV, hslot, hweight, hnone⟩ := start_eq_ok hg D
  have htop : g.nodes.size * D.top ≤ g.nodes.size * a.height := Nat.mul_le_mul_left _ D.top_le
  have hmem : ∀ i, i ∈ (f.push slot).nodes ↔ i = slot := by
    intro i
    rw [hsound.mem_push, hnil]
    simp
  have hlen : (f.push slot).nodes.length ≤ 1 := by
    have := f.length_push_le slot
    simpa [hnil] using this
  -- only the start is defined, so an edge that leads from another node is settled
  have hcov : Covered D V (f.push slot) [] := by
    refine ⟨hV, hsound.push slot, fun i hi => (hmem i).mp hi ▸ hslot, fun i e p he hp => ?_⟩
    by_cases hps : p = slot
    · exact .inl ((hmem p).mpr hps)
    · refine .inr (.inr fun p' q hp' _ => ?_)
      rw [hp] at hp'
      cases hp'
      exact ⟨none, by rw [hnone p hps]; rfl, by simp⟩
  obtain ⟨solution, hdrain, hleast, hsteps⟩ :=
    Covered.drain hg (a.growth g + 1) 0 hcov (by unfold growth; omega)
  refine ⟨solution, ?_, hleast, by omega⟩
  rw [worklist, hf]
  simp only [bind, Except.bind, hstart]
  exact hdrain

end Domain

end Analysis

end MicroFlow
