import MicroFlow.Proofs.Flow.Framework

/-!
# Sign states without contradiction

Whichever way a state of the sign analysis comes up, it is proper: the start is, and edges and
merges keep it so (`Signs.Obtained.proper`).  A state that is not marked as unreachable therefore
has a sign in every slot, and so does everything that is evaluated in it: `Action.operands` lists
what a transfer evaluates.
-/

namespace MicroFlow

/-! ## What a transfer evaluates -/

/-- An arithmetic expression and the expressions in it that are evaluated; indices are not. -/
def Expr.terms : Expr → List Expr
  | .node op l r => .node op l r :: (l.terms ++ r.terms)
  | e => [e]

/-- The arithmetic expressions in the relations of a guard. -/
def Expr.related : Expr → List Expr
  | .node (.rel _) l r => l.terms ++ r.terms
  | .node .not _ r => r.related
  | .node _ l r => l.related ++ r.related
  | _ => []

/-- The arithmetic expressions that the transfer along an edge with this action evaluates. -/
def Action.operands (a : Action) : List Expr :=
  match a.kind with
  | .assign => a.value.terms
  | .boolean => a.guard.related
  | _ => []

variable {vars : Variables} {g : Graph} {m : Signs}

/-- The terms of an expression can be evaluated. -/
theorem Expr.Numeric.terms {e : Expr} (h : e.Numeric vars) : ∀ x ∈ e.terms, x.Numeric vars := by
  induction h with
  | literal n => simpa [Expr.terms] using .literal n
  | @access a i hi =>
    have hterms : a.toExpr.terms = [a.toExpr] := by cases a <;> rfl
    simpa [hterms] using .access hi
  | node op hl hr ihl ihr =>
    intro x hx
    rcases List.mem_cons.mp hx with rfl | hx
    · exact .node op hl hr
    · exact (List.mem_append.mp hx).elim (ihl x) (ihr x)

/-- So can the operands of its relations. -/
theorem Expr.Logical.related {e : Expr} (h : e.Logical vars) : ∀ x ∈ e.related, x.Numeric vars := by
  induction h with
  | truth b => simp [Expr.related]
  | rel op hl hr => exact fun x hx => (List.mem_append.mp hx).elim (hl.terms x) (hr.terms x)
  | and _ _ ihl ihr
  | or _ _ ihl ihr => exact fun x hx => (List.mem_append.mp hx).elim (ihl x) (ihr x)
  | not _ _ ih => exact ih

namespace Signs

theorem Evaluable.operands {a : Action} (h : Evaluable vars a) :
    ∀ x ∈ a.operands, x.Numeric vars := by
  unfold Action.operands
  cases hkind : a.kind with
  | assign => exact (h.value hkind).terms
  | boolean => exact (h.guard hkind).related
  | read | write | declare | unknown => simp

/-! ## States that come up -/

/-- The states that come from the start of the analysis by transfers along edges and by merges. -/
inductive Obtained (g : Graph) : Signs → Prop
  | initial : Obtained g (signDetection g).initial
  | transfer {m n : Signs} {e : Edge} (before : Obtained g m) (edge : e ∈ g.edges)
      (step : (signDetection g).transfer m e = .ok n) : Obtained g n
  | merge {m n : Signs} (left : Obtained g m) (right : Obtained g n) :
      Obtained g ((signDetection g).merge m n)

/-- Every state that comes up is proper. -/
theorem Obtained.proper (hg : g.Valid) (ht : g.WellTyped) (h : Obtained g m) : m.Proper g.vars := by
  induction h with
  | initial => exact proper_initial g.vars
  | transfer _ he hstep ih => exact ih.transfer (evaluable_of_valid hg ht he) hstep
  | merge _ _ ihl ihr => exact ihl.merge ihr

theorem exists_slot (hm : m.Shaped vars) {s : SignSet} (hs : s ∈ m.slots) :
    ∃ i, i < slotCount vars ∧ m.slot i = s := by
  obtain ⟨i, hi, rfl⟩ := List.mem_iff_getElem.mp hs
  exact ⟨i, hm ▸ hi, by simp [Signs.slot, hi]⟩

/-- In a proper state an expression has a sign. -/
theorem Proper.exists_eval (hm : m.Proper vars) (hr : m.unreachable = false) {e : Expr}
    (he : e.Numeric vars) : ∃ s, m.eval vars e = .ok s ∧ ∃ x : Sign, x ∈ s := by
  obtain ⟨s, -, hs, -, -⟩ := eval_mono ⟨hm.shaped, hm.shaped, hr, hr, fun _ =>
    SignSet.subset_refl _⟩ he
  exact ⟨s, hs, (hm.eval hr he hs).nonempty⟩

end Signs

/-- **Sign states have no hidden contradiction.**  On a valid and well-typed graph, a state that
comes from the start by transfers and merges has every slot empty if it is marked as unreachable,
and none otherwise. Every transfer has a result.  That of an unreachable state evaluates nothing;
in any other state, whatever is evaluated has a sign, and so has the value that an assignment
stores. -/
theorem sign_states_without_contradiction (hv : g.validate = .ok ()) (ht : g.WellTyped)
    (hm : Signs.Obtained g m) :
    (m.unreachable = true → ∀ s ∈ m.slots, s = .empty) ∧
      (m.unreachable = false → ∀ s ∈ m.slots, ∃ x : Sign, x ∈ s) ∧
      ∀ e ∈ g.edges, ∃ n, (signDetection g).transfer m e = .ok n ∧ (m.unreachable = true → n = m) ∧
        (m.unreachable = false →
          (∀ x ∈ e.action.operands, ∃ s, m.eval g.vars x = .ok s ∧ ∃ y : Sign, y ∈ s) ∧
          (e.action.kind = .assign → ∃ t v, e.action.target = some t ∧
            m.eval g.vars e.action.value = .ok v ∧ (∃ y : Sign, y ∈ v) ∧
            m.store g.vars t v = .ok n)) := by
  have hg := Graph.valid_of_validate hv
  have hproper := hm.proper hg ht
  refine ⟨fun hun s hs => ?_, fun hr s hs => ?_, fun e he => ?_⟩
  · obtain ⟨i, -, rfl⟩ := Signs.exists_slot hproper.shaped hs
    exact hproper.empty hun i
  · obtain ⟨i, hi, rfl⟩ := Signs.exists_slot hproper.shaped hs
    exact (hproper.slot hr i hi).nonempty
  · have heval := Signs.evaluable_of_valid hg ht he
    obtain ⟨n, -, hn, -, -⟩ := Signs.transfer_mono heval (Signs.leq_refl hproper.shaped)
    have hstep := hn
    rw [Signs.transfer] at hstep
    refine ⟨n, hn, fun hun => ?_, fun hr => ⟨fun x hx => ?_, fun hkind => ?_⟩⟩
    · rw [if_pos hun] at hstep
      exact (Except.ok.inj hstep).symm
    · exact hproper.exists_eval hr (heval.operands x hx)
    · obtain ⟨t, i, htarget, -⟩ := heval.target (.inl hkind)
      obtain ⟨v, hval, hsign⟩ := hproper.exists_eval hr (heval.value hkind)
      simp only [hr, Bool.false_eq_true, if_false, hkind, hval, htarget, bind, Except.bind] at hstep
      exact ⟨t, v, htarget, hval, hsign, hstep⟩

/-- Sets `x` to one, and goes on when it is zero. -/
def strait : Graph where
  nodes := #[some { id := 0, out := [0] }, some { id := 1, out := [1], into := [0] },
    some { id := 2, terminal := true, into := [1] }]
  edges := #[
    ⟨0, .listed 0, .listed 1,
      { kind := .assign, target := some (.scalar "x"), value := .literal 1 }⟩,
    ⟨1, .listed 1, .listed 2, .branch (.node (.rel .eq) (.scalar "x") (.literal 0))⟩]
  vars := [⟨"x", .scalar, 0⟩]
  exit := .listed 2

/-- In `strait` the assignment leaves one sign for `x`, and nothing gets through the guard. -/
theorem sign_states_without_contradiction_strait : strait.validate = .ok () ∧ strait.WellTyped ∧
    ∃ m n : Signs, Signs.Obtained strait m ∧ Signs.Obtained strait n ∧
      m = ⟨[.single .plus], false⟩ ∧ n = ⟨[.empty], true⟩ ∧
      (∀ s ∈ m.slots, ∃ x : Sign, x ∈ s) ∧ ∀ s ∈ n.slots, s = .empty := by
  have hv : strait.validate = .ok () := by decide +kernel
  have ht : strait.WellTyped := by decide +kernel
  have hm : Signs.Obtained strait ⟨[.single .plus], false⟩ :=
    .transfer .initial (e := strait.edges[0]) (by simp [strait]) (by decide +kernel)
  have hn : Signs.Obtained strait ⟨[.empty], true⟩ :=
    .transfer hm (e := strait.edges[1]) (by simp [strait]) (by decide +kernel)
  exact ⟨hv, ht, _, _, hm, hn, rfl, rfl, (sign_states_without_contradiction hv ht hm).2.1 rfl,
    (sign_states_without_contradiction hv ht hn).1 rfl⟩

end MicroFlow
