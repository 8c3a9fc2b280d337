import MicroFlow.Graph.Validity
import MicroFlow.Proofs.Except

/-!
# Coherent graphs

`Graph.validate` checks a graph as it was handed over.  `Graph.Valid` spells out what a
graph that passes satisfies; `Graph.Coherent` adds what the check takes for granted:
that nodes list exactly their own edges, and that the exit is one of the nodes.
`Graph.WellTyped` says that the expressions in actions are of the right type.

On a coherent graph no reference leads nowhere: `Coherent.nodeAt`, `Coherent.endNode`,
`Coherent.ends` and `Coherent.start` give what each look-up finds.
-/

namespace MicroFlow

/-! ## Types of expressions -/

/-- A well-typed arithmetic expression: arithmetic all the way down, indices included. -/
def Expr.numeric : Expr → Bool
  | .literal _ | .scalar _ | .field _ _ | .odd _ => true
  | .element _ i _ => i.numeric
  | .node (.arith _) l r => l.numeric && r.numeric
  | _ => false

/-- A well-typed condition: connectives over relations between arithmetic expressions. -/
def Expr.logical : Expr → Bool
  | .truth _ => true
  | .node (.rel _) l r => l.numeric && r.numeric
  | .node .and l r | .node .or l r => l.logical && r.logical
  | .node .not _ r => r.logical
  | _ => false

/-- The index of an array access is a well-typed arithmetic expression. -/
def Access.wellTyped : Access → Bool
  | .element _ i _ => i.numeric
  | _ => true

/-- The parts that the kind of an action asks for are well typed. -/
def Action.wellTyped (a : Action) : Bool :=
  match a.kind with
  | .assign => a.target.all Access.wellTyped && a.value.numeric
  | .read => a.target.all Access.wellTyped
  | .write => a.value.numeric
  | .boolean => a.guard.logical
  | _ => true

/-- A valid action has a text. -/
theorem Action.exists_text {a : Action} (h : a.validate = .ok ()) :
    ∃ text, a.text? = some text := by
  unfold Action.text?
  cases hkind : a.kind with
  | declare =>
    cases hdecl : a.decl with
    | some d => exact ⟨d.text, rfl⟩
    | none => simp [Action.validate, Action.lacking?, hkind, hdecl] at h
  | assign | read | write | boolean | unknown => exact ⟨_, rfl⟩

namespace Graph

/-- The expressions in the actions of the graph are well typed. -/
def WellTyped (g : Graph) : Prop := ∀ e ∈ g.edges, e.action.wellTyped = true

instance (g : Graph) : Decidable g.WellTyped :=
  inferInstanceAs (Decidable (∀ e ∈ g.edges, e.action.wellTyped = true))

/-! ## What validation establishes -/

/-- What a graph that passes validation satisfies. -/
structure Valid (g : Graph) : Prop where
  node : ∀ i, i < g.nodes.size → ∃ n, g.nodeAt? i = some n ∧ n.id = i
  edge_id : ∀ (i : Nat) (e : Edge), g.edges[i]? = some e → e.id = i
  source : ∀ e ∈ g.edges, ∃ p, p < g.nodes.size ∧ e.source = .listed p
  target : ∀ e ∈ g.edges, ∃ q, q < g.nodes.size ∧ e.target = .listed q
  action : ∀ e ∈ g.edges, e.action.validate = .ok ()
  declared : ∀ e ∈ g.edges, ∀ a ∈ e.action.uses ++ e.action.defines.toList, ∃ i,
    g.vars.of a = some i

variable {i slot : Nat} {e : Edge}

theorem nodeAt_eq_ok {g : Graph} {n : Node} : g.nodeAt i = .ok n ↔ g.nodeAt? i = some n := by
  unfold nodeAt
  cases g.nodeAt? i <;> simp

theorem lt_of_nodeAt? {g : Graph} {n : Node} (hn : g.nodeAt? i = some n) : i < g.nodes.size := by
  by_contra hge
  have : g.nodes[i]? = none := by simpa using hge
  simp [nodeAt?, this] at hn

theorem edgeAt_eq_ok {g : Graph} : g.edgeAt i = .ok e ↔ g.edges[i]? = some e := by
  unfold edgeAt
  cases g.edges[i]? <;> simp

theorem slotOf_natCast {g : Graph} (hi : i < g.nodes.size) : g.slotOf (i : Int) = .ok i := by
  rw [slotOf, if_pos ⟨by omega, by exact_mod_cast hi⟩]
  simp

/-- The nodes are all there and numbered by their places. -/
theorem checkNodes_eq_ok {nodes : List (Option Node)} : checkNodes slot nodes = .ok () ↔
      ∀ i, i < nodes.length → ∃ n, nodes[i]? = some (some n) ∧ n.id = slot + i := by
  induction nodes generalizing slot with
  | nil => simp [checkNodes]
  | cons x rest ih =>
    -- the place `i + 1` in the list is `i` in the rest, whose slots start one later
    rw [List.length_cons, Nat.forall_lt_succ_left]
    cases x with
    | none => simp [checkNodes]
    | some n =>
      rw [checkNodes]
      split
      · rename_i hid
        simp [ih, hid, Int.add_comm, Int.add_left_comm]
      · rename_i hid
        simp [hid]

/-- An end that passes the check is a node of the graph. -/
theorem listed_of_checkEnd {g : Graph} {p : Endpoint} (h : g.checkEnd p = .ok ()) :
    ∃ i, i < g.nodes.size ∧ p = .listed i := by
  rw [checkEnd, bind_eq_ok] at h
  obtain ⟨n, -, h⟩ := h
  split at h
  · rename_i hn
    exact ⟨n.id.toNat, by omega, hn.2.2⟩
  · cases h

/-- What an edge that passes the check at a position satisfies. -/
theorem checkEdge_eq_ok {g : Graph} (h : g.checkEdge slot e = .ok ()) :
    e.id = slot ∧ g.checkEnd e.source = .ok () ∧ g.checkEnd e.target = .ok () ∧
      e.action.validate = .ok () ∧
      ∀ a ∈ e.action.uses ++ e.action.defines.toList, g.checkAccess a = .ok () := by
  unfold checkEdge at h
  split at h
  · rw [bind_eq_ok] at h
    obtain ⟨_, -, h⟩ := h
    cases h
  · rename_i hid
    rw [check_bind_eq_ok, check_bind_eq_ok] at h
    obtain ⟨hs, ht, h⟩ := h
    split at h
    · rw [bind_eq_ok] at h
      obtain ⟨_, -, h⟩ := h
      cases h
    · rename_i hv
      exact ⟨by simpa using hid, hs, ht, hv, forM_eq_ok.mp h⟩

/-- Every edge passes its own check. -/
theorem checkEdges_eq_ok {g : Graph} {edges : List Edge} (h : g.checkEdges slot edges = .ok ()) :
    ∀ (i : Nat) (e : Edge), edges[i]? = some e → g.checkEdge (slot + i) e = .ok () := by
  induction edges generalizing slot with
  | nil => simp
  | cons e rest ih =>
    rw [checkEdges, check_bind_eq_ok] at h
    intro i f hf
    cases i with
    | zero =>
      simp only [List.getElem?_cons_zero, Option.some.injEq] at hf
      subst hf
      exact h.1
    | succ i =>
      have hi := ih h.2 i f (by simpa using hf)
      rwa [Nat.add_right_comm, Nat.add_assoc] at hi

/-- An access that passes the check is to a declared variable. -/
theorem checkAccess_eq_ok {g : Graph} {a : Access} (h : g.checkAccess a = .ok ()) :
    ∃ i, g.vars.of a = some i := by
  unfold checkAccess at h
  split at h
  · rename_i i hi
    exact ⟨i, hi⟩
  · cases h

/-- What validation establishes, in one place. -/
theorem valid_of_validate {g : Graph} (h : g.validate = .ok ()) : g.Valid := by
  rw [validate, check_bind_eq_ok, bind_eq_ok] at h
  obtain ⟨hnodes, exit, -, h⟩ := h
  split at h
  · cases h
  · have hedges : ∀ (i : Nat) (e : Edge), g.edges[i]? = some e → g.checkEdge i e = .ok () := by
      intro i e he
      have := checkEdges_eq_ok h i e (by simpa using he)
      rwa [Nat.zero_add] at this
    -- but for its number, an edge passes whatever its slot
    have hpasses : ∀ e ∈ g.edges, g.checkEnd e.source = .ok () ∧ g.checkEnd e.target = .ok () ∧
        e.action.validate = .ok () ∧
        ∀ a ∈ e.action.uses ++ e.action.defines.toList, g.checkAccess a = .ok () := by
      intro e he
      obtain ⟨i, hi⟩ := Array.mem_iff_getElem?.mp he
      exact (checkEdge_eq_ok (hedges i e hi)).2
    refine ⟨?_, fun i e he => (checkEdge_eq_ok (hedges i e he)).1,
      fun e he => listed_of_checkEnd (hpasses e he).1,
      fun e he => listed_of_checkEnd (hpasses e he).2.1, fun e he => (hpasses e he).2.2.1,
      fun e he a ha => checkAccess_eq_ok ((hpasses e he).2.2.2 a ha)⟩
    intro i hi
    obtain ⟨n, hn, hid⟩ := checkNodes_eq_ok.mp hnodes i (by simpa using hi)
    refine ⟨n, ?_, by simpa using hid⟩
    rw [nodeAt?, show g.nodes[i]? = some (some n) by simpa using hn]
    rfl

/-! ## Coherence -/

/--
A graph that passes validation, whose nodes list exactly the edges that leave and enter
them, and whose exit is one of its nodes.
-/
structure Coherent (g : Graph) : Prop where
  validated : g.validate = .ok ()
  out : ∀ (p : Nat) (n : Node), g.nodeAt? p = some n →
    ∀ i, i ∈ n.out ↔ ∃ e, g.edges[i]? = some e ∧ e.source = .listed p
  into : ∀ (p : Nat) (n : Node), g.nodeAt? p = some n →
    ∀ i, i ∈ n.into ↔ ∃ e, g.edges[i]? = some e ∧ e.target = .listed p
  exit_listed : ∃ q, q < g.nodes.size ∧ g.exit = .listed q

/--
Edges that leave one node are the two guards of one condition, and no edge leaves the exit.
-/
structure Branching (g : Graph) : Prop where
  pair : ∀ (i j : Nat) (e f : Edge) (p : Nat), i < j → g.edges[i]? = some e →
    g.edges[j]? = some f → e.source = .listed p → f.source = .listed p →
    ∃ c : Expr, e.action = .branch c ∧ f.action = .branch c.negation
  exit : ∀ e ∈ g.edges, e.source ≠ g.exit

namespace Branching

variable {g : Graph} (h : g.Branching)

include h

/-- Besides an edge that is no guard, no other leaves its node. -/
theorem only {j p : Nat} {f : Edge} (he : g.edges[i]? = some e) (hf : g.edges[j]? = some f)
    (hse : e.source = .listed p) (hsf : f.source = .listed p) (hkind : e.action.kind ≠ .boolean) :
    i = j := by
  rcases Nat.lt_trichotomy i j with hij | hij | hij
  · obtain ⟨c, hec, -⟩ := h.pair i j e f p hij he hf hse hsf
    exact absurd (by rw [hec]; rfl) hkind
  · exact hij
  · obtain ⟨c, -, hec⟩ := h.pair j i f e p hij hf he hsf hse
    exact absurd (by rw [hec]; rfl) hkind

/-- The guards of one node use the same variables. -/
theorem uses_eq {j p : Nat} {f : Edge} (he : g.edges[i]? = some e) (hf : g.edges[j]? = some f)
    (hse : e.source = .listed p) (hsf : f.source = .listed p) : e.action.uses = f.action.uses := by
  have hguards : ∀ c : Expr, (Action.branch c).uses = (Action.branch c.negation).uses := fun c => by
    simp [Action.uses, Action.branch, Expr.negation, Expr.accesses]
  rcases Nat.lt_trichotomy i j with hij | hij | hij
  · obtain ⟨c, hec, hfc⟩ := h.pair i j e f p hij he hf hse hsf
    rw [hec, hfc, hguards]
  · subst hij
    rw [he] at hf
    cases hf
    rfl
  · obtain ⟨c, hfc, hec⟩ := h.pair j i f e p hij hf he hsf hse
    rw [hec, hfc, ← hguards]

end Branching

namespace Coherent

variable {g : Graph} (h : g.Coherent)

include h

theorem valid : g.Valid := valid_of_validate h.validated

theorem nodeAt {i : Nat} (hi : i < g.nodes.size) :
    ∃ n, g.nodeAt i = .ok n ∧ g.nodeAt? i = some n ∧ n.id = i := by
  obtain ⟨n, hn, hid⟩ := h.valid.node i hi
  exact ⟨n, nodeAt_eq_ok.mpr hn, hn, hid⟩

theorem endNode {i : Nat} (hi : i < g.nodes.size) :
    ∃ n, g.endNode (.listed i) = .ok n ∧ g.nodeAt? i = some n ∧ n.id = i := h.nodeAt hi

/-- Every edge runs between nodes of the graph. -/
theorem ends_listed (he : e ∈ g.edges) :
    ∃ p q, p < g.nodes.size ∧ q < g.nodes.size ∧ e.source = .listed p ∧ e.target = .listed q := by
  obtain ⟨p, hp, hs⟩ := h.valid.source e he
  obtain ⟨q, hq, ht⟩ := h.valid.target e he
  exact ⟨p, q, hp, hq, hs, ht⟩

theorem ends {e : Edge} {p q : Nat} (he : e ∈ g.edges) (hs : e.source = .listed p)
    (ht : e.target = .listed q) : g.ends e = .ok ((p : Int), (q : Int)) := by
  obtain ⟨p', q', hp, hq, hs', ht'⟩ := h.ends_listed he
  rw [hs] at hs'
  rw [ht] at ht'
  cases hs'
  cases ht'
  obtain ⟨n, hn, -, hid⟩ := h.endNode hp
  obtain ⟨m, hm, -, hmid⟩ := h.endNode hq
  simp [Graph.ends, hs, ht, hn, hm, hid, hmid, bind, Except.bind, pure, Except.pure]

theorem size_pos : 0 < g.nodes.size := by
  obtain ⟨q, hq, -⟩ := h.exit_listed
  omega

/-- An analysis starts at a node of the graph: at the entry, or at the exit when it runs
backward. -/
theorem start (reverse : Bool) : ∃ i n, i < g.nodes.size ∧ g.start reverse = .ok n ∧
    g.nodeAt? i = some n ∧ n.id = i ∧ (reverse = false → i = 0) ∧
    (reverse = true → g.exit = .listed i) := by
  cases reverse with
  | false =>
    obtain ⟨n, hn, hn', hid⟩ := h.nodeAt h.size_pos
    exact ⟨0, n, h.size_pos, hn, hn', hid, fun _ => rfl, by simp⟩
  | true =>
    obtain ⟨q, hq, hexit⟩ := h.exit_listed
    obtain ⟨n, hn, hn', hid⟩ := h.nodeAt hq
    refine ⟨q, n, hq, ?_, hn', hid, by simp, fun _ => hexit⟩
    simp only [Graph.start, if_true, Graph.exitNode, hexit]
    exact hn

end Coherent

end Graph

end MicroFlow
