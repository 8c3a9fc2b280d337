import MicroFlow.Proofs.Graph.Coherent
import MicroFlow.Proofs.Semantics.Basic

/-!
# Runs of program graphs

A run follows the edges of a graph and performs their actions on a store.  Runs differ
in where a read takes its value from, and there are three kinds of them (`Graph.Steps`,
`Graph.Arrives`, `Graph.Trace`).
-/

namespace MicroFlow

variable {V : Type}

/-! ## Input and output -/

/-- A store, the input that is left and the output so far. -/
structure Config (V : Type) where
  store : Store V
  input : List Int
  output : List V

/-- An action with input and output: a read takes the first value of the input. -/
def Action.step? (A : Arithmetic V) (vars : Variables) (c : Config V) (a : Action) :
    Option (Config V) :=
  match a.kind, c.input with
  | .read, [] => none
  | .read, n :: rest => do
    let s ← a.perform? A vars n c.store
    return ⟨s, rest, c.output⟩
  | _, _ => do
    let s ← a.perform? A vars 0 c.store
    return ⟨s, c.input, c.output ++ a.written A vars c.store⟩

/-- One step along an edge of the graph. -/
inductive Graph.Step (A : Arithmetic V) (g : Graph) : Nat × Config V → Nat × Config V → Prop
  | along {e : Edge} {p q : Nat} {c d : Config V} (mem : e ∈ g.edges)
      (source : e.source = .listed p) (target : e.target = .listed q)
      (performed : e.action.step? A g.vars c = some d) : Graph.Step A g (p, c) (q, d)

/-- A run of a number of steps. -/
inductive Graph.Steps (A : Arithmetic V) (g : Graph) : Nat → Nat × Config V → Nat × Config V → Prop
  | refl (x : Nat × Config V) : Graph.Steps A g 0 x x
  | head {n : Nat} {x y z : Nat × Config V} (first : Graph.Step A g x y)
      (rest : Graph.Steps A g n y z) : Graph.Steps A g (n + 1) x z

variable {A : Arithmetic V} {g : Graph} {vars : Variables} {c d : Config V} {a : Action}
  {s : Store V}

/-- Runs in a row. -/
theorem Graph.Steps.append {m n : Nat} {x y z : Nat × Config V}
    (h : g.Steps A m x y) (k : g.Steps A n y z) : g.Steps A (m + n) x z := by
  induction h with
  | refl x => simpa using k
  | @head m x y _ first _ ih =>
    have hn : m + 1 + n = (m + n) + 1 := by omega
    rw [hn]
    exact .head first (ih k)

/-- A run along the edges at the given positions. -/
inductive Graph.Follows (A : Arithmetic V) (g : Graph) :
    Nat × Config V → List Nat → Nat × Config V → Prop
  | stop (x : Nat × Config V) : Graph.Follows A g x [] x
  | step {e : Edge} {i p q : Nat} {c d : Config V} {is : List Nat} {z : Nat × Config V}
      (edge : g.edges[i]? = some e) (source : e.source = .listed p) (target : e.target = .listed q)
      (performed : e.action.step? A g.vars c = some d) (rest : Graph.Follows A g (q, d) is z) :
      Graph.Follows A g (p, c) (i :: is) z

/-- The run is over: no edge that leaves the node can be taken. -/
def Graph.Stops (A : Arithmetic V) (g : Graph) (x : Nat × Config V) : Prop :=
  ∀ y, ¬ g.Step A x y

/-- What an action with input and output does: a read receives the first value of the input. -/
theorem Action.step?_eq_some :
    a.step? A vars c = some d ↔ ∃ n, a.perform? A vars n c.store = some d.store ∧
      (a.kind = .read → c.input = n :: d.input) ∧ (a.kind ≠ .read → d.input = c.input) ∧
      d.output = c.output ++ a.written A vars c.store := by
  obtain ⟨s, input, output⟩ := c
  obtain ⟨t, rest, written⟩ := d
  by_cases hkind : a.kind = .read
  · have hnothing : a.written A vars s = [] := by
      rw [Action.written, hkind]
    -- a read takes the next value of the input, if there is one
    cases input with
    | nil => simp [Action.step?, hkind]
    | cons m more =>
      simp only [Action.step?, hkind, Option.bind_eq_bind, Option.bind_eq_some_iff, Option.pure_def,
        Option.some.injEq, Config.mk.injEq, hnothing, List.append_nil, ne_eq, not_true_eq_false,
        List.cons.injEq, forall_const, false_implies, true_and]
      constructor
      · rintro ⟨u, hu, rfl, rfl, rfl⟩
        exact ⟨m, hu, ⟨rfl, rfl⟩, rfl⟩
      · rintro ⟨n, hn, ⟨rfl, rfl⟩, rfl⟩
        exact ⟨t, hn, rfl, rfl, rfl⟩
  · -- nothing is received, so any value will do
    have hstep : a.step? A vars ⟨s, input, output⟩ = (a.perform? A vars 0 s).map
        fun u => ⟨u, input, output ++ a.written A vars s⟩ := by
      unfold Action.step?
      split
      case h_1 hread _ => exact absurd hread hkind
      case h_2 hread _ => exact absurd hread hkind
      case h_3 =>
        cases a.perform? A vars 0 s <;> rfl
    rw [hstep, Option.map_eq_some_iff]
    simp only [Config.mk.injEq, hkind, false_implies, true_and, ne_eq, not_false_eq_true,
      forall_const]
    constructor
    · rintro ⟨u, hu, rfl, rfl, rfl⟩
      exact ⟨0, hu, rfl, rfl⟩
    · rintro ⟨n, hn, rfl, rfl⟩
      exact ⟨t, by rw [Action.perform?_of_ne_read hkind 0 n, hn], rfl, rfl, rfl⟩

/-- An action that was performed is enabled, whatever the input. -/
theorem Action.enabled_of_step?
    (h : a.step? A vars c = some d) : a.enabled A vars c.store = true := by
  obtain ⟨n, hn, -⟩ := Action.step?_eq_some.mp h
  exact Action.enabled_of_perform? hn

/-- What is written depends on what is used. -/
theorem Action.written_congr {t : Store V}
    (h : ∀ u ∈ a.uses, s.AgreeOn u.var t) : a.written A vars s = a.written A vars t := by
  unfold Action.written
  cases hkind : a.kind with
  | write =>
    have hv : a.value.value? A vars s = a.value.value? A vars t :=
      Expr.value?_congr fun b hb => h b (by simp [Action.uses, hkind, hb])
    simp only [hv]
  | assign | read | boolean | declare | unknown => rfl

/--
Where two configurations agree on the variables that an action uses, on the input and on the
output, it can be performed in both or in neither, with the same effect on all three.
-/
theorem Action.step?_congr {c' : Config V}
    (hUses : ∀ u ∈ a.uses, c.store.AgreeOn u.var c'.store) (hInput : c.input = c'.input)
    (hOutput : c.output = c'.output) (h : a.step? A vars c = some d) :
    ∃ d', a.step? A vars c' = some d' ∧ d.input = d'.input ∧ d.output = d'.output ∧
      ∀ x : String × Kind, c.store.AgreeOn x c'.store ∨ a.Replaces x →
        d.store.AgreeOn x d'.store := by
  obtain ⟨n, hn, hread, hkeep, hout⟩ := Action.step?_eq_some.mp h
  obtain ⟨t, ht, hagree⟩ := Action.perform?_congr hUses hn
  refine ⟨⟨t, d.input, d.output⟩, ?_, rfl, rfl, hagree⟩
  refine Action.step?_eq_some.mpr ⟨n, ht, ?_, ?_, ?_⟩
  · rw [← hInput]
    exact hread
  · rw [← hInput]
    exact hkeep
  · rw [hout, hOutput, Action.written_congr hUses]

/-! ## One way to go on -/

/-- A negation holds when the condition fails. -/
theorem truth?_negation {e : Expr} :
    e.negation.truth? A vars s = some true ↔ e.truth? A vars s = some false := by
  simp only [Expr.negation, Expr.truth?, Option.bind_eq_bind, Option.pure_def]
  cases e.truth? A vars s with
  | none => simp
  | some b => cases b <;> simp

/-- A guard can be passed when it holds. -/
theorem enabled_branch {e : Expr} :
    (Action.branch e).enabled A vars s = true ↔ e.truth? A vars s = some true := by
  simp only [Action.enabled, Action.branch, Action.perform?, Option.bind_eq_bind]
  cases e.truth? A vars s with
  | none => simp
  | some b => cases b <;> simp

/-- Where edges branch on conditions, at most one of those that leave a node is enabled. -/
theorem Graph.Branching.enabled_unique
    (h : g.Branching) {q i j : Nat} {e f : Edge} (he : g.edges[i]? = some e)
    (hf : g.edges[j]? = some f) (hse : e.source = .listed q) (hsf : f.source = .listed q)
    (hen : e.action.enabled A vars s = true)
    (hfn : f.action.enabled A vars s = true) : i = j := by
  -- of the two guards of a condition one holds and the other does not
  have hcontra : ∀ {c : Expr}, (Action.branch c).enabled A vars s = true →
      (Action.branch c.negation).enabled A vars s = true → False := by
    intro c hx hy
    rw [enabled_branch] at hx hy
    rw [truth?_negation, hx] at hy
    cases hy
  rcases Nat.lt_trichotomy i j with hij | hij | hij
  · obtain ⟨c, hx, hy⟩ := h.pair i j e f q hij he hf hse hsf
    rw [hx] at hen
    rw [hy] at hfn
    exact (hcontra hen hfn).elim
  · exact hij
  · obtain ⟨c, hx, hy⟩ := h.pair j i f e q hij hf he hsf hse
    rw [hx] at hfn
    rw [hy] at hen
    exact (hcontra hfn hen).elim

/-- A run of a branching graph is the only one of its length. -/
theorem Graph.Follows.unique (hb : g.Branching)
    {x y z : Nat × Config V} {is js : List Nat} (h : g.Follows A x is y) (k : g.Follows A x js z)
    (hlen : is.length = js.length) : is = js ∧ y = z := by
  induction h generalizing js with
  | stop x =>
    cases k with
    | stop => exact ⟨rfl, rfl⟩
    | step => cases hlen
  | @step e i p q c d is y edge source target performed _ ih =>
    cases k with
    | stop => cases hlen
    | @step f j _ r _ d' js _ edge' source' target' performed' rest' =>
      have hij : i = j := hb.enabled_unique edge edge' source source'
        (Action.enabled_of_step? performed) (Action.enabled_of_step? performed')
      subst hij
      rw [edge] at edge'
      cases edge'
      rw [target] at target'
      cases target'
      rw [performed] at performed'
      cases performed'
      obtain ⟨his, hyz⟩ := ih rest' (by simpa using hlen)
      rw [his, hyz]
      exact ⟨rfl, rfl⟩

/-! ## Any input -/

/--
A run from the entry gets to a node with a store.  Every cell starts with an
integer, and a read receives any integer.
-/
inductive Graph.Arrives (A : Arithmetic V) (g : Graph) : Nat → Store V → Prop
  | start (values : Cell → Int) : Graph.Arrives A g 0 fun l => A.ofInt (values l)
  | step {e : Edge} {p q : Nat} {s t : Store V} {n : Int} (before : Graph.Arrives A g p s)
      (mem : e ∈ g.edges) (source : e.source = .listed p) (target : e.target = .listed q)
      (performed : e.action.perform? A g.vars n s = some t) : Graph.Arrives A g q t

/-! ## Input by edge -/

/-- A run performed the edge at a position on a store. -/
structure Event (V : Type) where
  edge : Nat
  store : Store V

/-- The execution counts after one more execution of an edge. -/
def countUp (counts : Nat → Nat) (i : Nat) : Nat → Nat :=
  fun j => if j = i then counts j + 1 else counts j

theorem countUp_of_ne (counts : Nat → Nat) {i j : Nat} (h : j ≠ i) :
    countUp counts i j = counts j := by
  simp [countUp, h]

/--
A run from a node to a node with the events on the way.  `counts` says how often each
edge was executed before; the `k`-th execution of edge `i`, from 0 on, receives
`feed i k`.
-/
inductive Graph.Trace (A : Arithmetic V) (g : Graph) (feed : Nat → Nat → Int) :
    Nat → Store V → (Nat → Nat) → List (Event V) → Nat → Prop
  | stop (p : Nat) (s : Store V) (counts : Nat → Nat) : Graph.Trace A g feed p s counts [] p
  | step {e : Edge} {i p q r : Nat} {s t : Store V} {counts : Nat → Nat} {events : List (Event V)}
      (edge : g.edges[i]? = some e) (source : e.source = .listed p) (target : e.target = .listed q)
      (performed : e.action.perform? A g.vars (feed i (counts i)) s = some t)
      (rest : Graph.Trace A g feed q t (countUp counts i) events r) :
      Graph.Trace A g feed p s counts (⟨i, s⟩ :: events) r

/-- The values that the successive executions of an edge find in the variables it uses. -/
def observations (A : Arithmetic V) (vars : Variables) (i : Nat) (a : Action)
    (events : List (Event V)) : List (List (Option V)) :=
  (events.filter (·.edge == i)).map fun event => a.uses.map (Access.value? A vars event.store)

/-- What is observed at an edge, event by event. -/
theorem observations_cons (A : Arithmetic V) (vars : Variables) (i j : Nat) (a : Action)
    (s : Store V) (events : List (Event V)) :
    observations A vars i a (⟨j, s⟩ :: events) =
      if j = i then a.uses.map (Access.value? A vars s) :: observations A vars i a events
      else observations A vars i a events := by
  unfold observations
  by_cases hji : j = i
  · simp [hji]
  · simp [hji]

end MicroFlow
