import MicroFlow.Proofs.Expr.Reader

/-!
# Written expressions are read back

The tokens that a tree is written with stand for it, and no sequence of tokens that stands for it
has fewer parentheses.
-/

namespace MicroFlow

variable {τ : Ty}

namespace Expr

/-- The trees whose operands have the types that their operators ask for. -/
inductive Typed : Expr → Ty → Prop
  | literal (n : Int) : Typed (literal n) .int
  | truth (b : Bool) : Typed (truth b) .bool
  | scalar (x : String) : Typed (scalar x) .int
  | element (x : String) {i : Expr} (layout : Layout) (index : i ≠ missing) :
      Typed (element x i layout) .int
  | field (x : String) (s : Selector) : Typed (field x s) .int
  | odd (x : String) : Typed (odd x) .int
  | arith (op : ArithOp) {l r : Expr} : Typed l .int → Typed r .int →
    Typed (node (.arith op) l r) .int
  | rel (op : RelOp) {l r : Expr} : Typed l .int → Typed r .int → Typed (node (.rel op) l r) .bool
  | and {l r : Expr} : Typed l .bool → Typed r .bool → Typed (node .and l r) .bool
  | or {l r : Expr} : Typed l .bool → Typed r .bool → Typed (node .or l r) .bool
  | negation {e : Expr} : Typed e .bool → Typed e.negation .bool

theorem equal_refl (e : Expr) : e.equal e = true := by
  induction e with
  | node op l r ihl ihr => simp [equal, ihl, ihr]
  | element x i layout ih => simp [equal, ih]
  | missing | literal | truth | scalar | field | odd | symbol => simp [equal]

/-- A typed tree passes the check of types. -/
theorem Typed.type_eq {e : Expr} (h : Typed e τ) : e.type = .ok τ := by
  induction h with
  | literal | truth | scalar | field | odd => simp [type]
  | @element x i layout index =>
    cases i with
    | missing => exact absurd rfl index
    | literal | truth | scalar | element | field | odd | symbol | node => simp [type]
  | arith op _ _ ihl ihr
  | rel op _ _ ihl ihr
  | and _ _ ihl ihr
  | or _ _ ihl ihr => simp [type, ihl, ihr, bind, Except.bind]
  | negation _ ih => simp [Expr.negation, type, ih, bind, Except.bind]

@[simp] theorem flatten_leaf (t : Token) : (leaf t).flatten = [t] := by
  cases t with
  | access a => cases a <;> simp [leaf, Access.toExpr, flatten]
  | literal | truth | symbol => simp [leaf, flatten]

theorem binding_leaf (t : Token) : (leaf t).binding = 7 := by
  cases t with
  | access a => cases a <;> rfl
  | literal | truth | symbol => rfl

end Expr

namespace Token

open MicroFlow.Expr

variable {ts : List Token} {e l r : Expr} {op : Operator}

/-! ## The written form stands for the tree -/

/-- The sequence in parentheses, when they are `needed`. -/
def parensIf (needed : Bool) (ts : List Token) : List Token := if needed then parens ts else ts

theorem flatten_negation (e : Expr) : e.negation.flatten =
    symbol (.operator .not) :: parensIf (e.binding < Operator.not.precedence) e.flatten := by
  rw [Expr.negation, flatten]
  rfl

/-- The operands of an operator are written with parentheses where they bind too weakly. -/
theorem flatten_node (notUnary : op.isUnary = false) (l r : Expr) : (node op l r).flatten =
    parensIf (l.binding < op.precedence) l.flatten ++
      symbol (.operator op) :: parensIf (r.binding ≤ op.precedence) r.flatten := by
  cases op with
  | not => cases notUnary
  | arith | rel | and | or | unknown =>
    rw [flatten]
    · rfl
    · nofun

/-- The written form stands for the tree, and no operator in sight is weaker than its root. -/
structure Written (e : Expr) : Prop where
  writes : Writes e.flatten e
  binding_le : ∀ o ∈ outer 0 e.flatten, e.binding ≤ o.precedence

/-- An operand stands for its tree with or without parentheses, and without them shows no weak
operator. -/
theorem Written.parensIf (h : Written e) (needed : Bool) : Writes (parensIf needed e.flatten) e ∧
    ∀ o ∈ outer 0 (Token.parensIf needed e.flatten),
      needed = false ∧ e.binding ≤ o.precedence := by
  cases needed with
  | false => exact ⟨h.writes, fun o ho => ⟨rfl, h.binding_le o ho⟩⟩
  | true =>
    refine ⟨.parens h.writes, fun o ho => ?_⟩
    rw [Token.parensIf, if_pos rfl, outer_parens h.writes.balanced] at ho
    cases ho

theorem written_leaf {t : Token} (operand : t.isOperand = true) : Written (Expr.leaf t) := by
  refine ⟨by simpa using Writes.leaf operand, ?_⟩
  simp [outer_plain (plain_of_isOperand operand)]

/-- Behind `not` the operand is split off again. -/
theorem Written.negation (h : Written e) : Written e.negation := by
  obtain ⟨hwrites, houter⟩ := h.parensIf (e.binding < Operator.not.precedence)
  simp only [decide_eq_false_iff_not, Nat.not_lt] at houter
  have hle : ∀ o ∈ outer 0 (Token.parensIf (e.binding < Operator.not.precedence) e.flatten),
      Operator.not.precedence ≤ o.precedence :=
    fun o ho => Nat.le_trans (houter o ho).1 (houter o ho).2
  have hsplit : SplitsAt [] .not
      (Token.parensIf (e.binding < Operator.not.precedence) e.flatten) := by
    refine ⟨rfl, hwrites.balanced, ?_, by simp, fun o ho hweaker => ?_⟩
    · simpa using ⟨rfl, hwrites.valid⟩
    · -- an operator as strong as the prefixed one is prefixed itself
      rcases hweaker with hlt | ⟨heq, hbinary⟩
      · exact absurd (hle o ho) (Nat.not_le.mpr hlt)
      · cases Operator.eq_not_of_precedence heq
        cases hbinary
  refine ⟨?_, ?_⟩
  · rw [flatten_negation]
    exact .negation hsplit hwrites
  · rw [flatten_negation, outer_operator_zero]
    intro o ho
    rcases List.mem_cons.mp ho with rfl | ho
    · exact Nat.le_refl _
    · exact hle o ho

/-- The written form is split at its root. -/
theorem Written.node (hl : Written l) (hr : Written r) (notUnary : op.isUnary = false)
    (valid : op.isValid = true) : Written (node op l r) := by
  obtain ⟨hwl, hol⟩ := hl.parensIf (l.binding < op.precedence)
  obtain ⟨hwr, hor⟩ := hr.parensIf (r.binding ≤ op.precedence)
  simp only [decide_eq_false_iff_not, Nat.not_lt, Nat.not_le] at hol hor
  have hlt : ∀ o ∈ outer 0 (Token.parensIf (r.binding ≤ op.precedence) r.flatten),
      op.precedence < o.precedence :=
    fun o ho => Nat.lt_of_lt_of_le (hor o ho).1 (hor o ho).2
  -- no operator on the left is weaker than the root, and all on the right are stronger
  have hsplit : SplitsAt (Token.parensIf (l.binding < op.precedence) l.flatten) op
      (Token.parensIf (r.binding ≤ op.precedence) r.flatten) := by
    refine ⟨hwl.balanced, hwr.balanced, ?_, fun o ho => ?_, fun o ho hweaker => ?_⟩
    · intro o ho
      rcases List.mem_append.mp ho with ho | ho
      · exact hwl.valid o ho
      · rcases List.mem_cons.mp ho with rfl | ho
        · exact valid
        · exact hwr.valid o ho
    · exact Operator.weaker_of_le (Nat.le_trans (hol o ho).1 (hol o ho).2) notUnary
    · exact absurd (hlt o ho) (Nat.not_lt.mpr hweaker.le)
  refine ⟨?_, ?_⟩
  · rw [flatten_node notUnary]
    exact .binary hsplit notUnary hwl hwr
  · rw [flatten_node notUnary, hsplit.outer_eq]
    intro o ho
    rcases List.mem_append.mp ho with ho | ho
    · exact (hsplit.weaker o ho).le
    · rcases List.mem_cons.mp ho with rfl | ho
      · exact Nat.le_refl _
      · exact Nat.le_of_lt (hlt o ho)

/-- So every typed tree is written as it is read. -/
theorem written_of_typed (h : Typed e τ) : Written e := by
  induction h with
  | literal n => exact written_leaf (t := .literal n) rfl
  | truth b => exact written_leaf (t := .truth b) rfl
  | scalar x => exact written_leaf (t := .access (.scalar x)) rfl
  | @element x i layout => exact written_leaf (t := .access (.element x i layout)) rfl
  | field x s => exact written_leaf (t := .access (.field x s)) rfl
  | odd x => exact written_leaf (t := .access (.odd x)) rfl
  | arith op _ _ ihl ihr => exact ihl.node ihr rfl (by cases op <;> rfl)
  | rel _ _ _ ihl ihr | and _ _ ihl ihr | or _ _ ihl ihr => exact ihl.node ihr rfl rfl
  | negation _ ih => exact ih.negation

/-! ## What a sequence has more than the written form -/

theorem sheds_parensIf {needed : Bool} (h : Sheds ts e.flatten)
    (hkept : needed = true → Sheds ts (parens e.flatten)) :
    Sheds ts (parensIf needed e.flatten) := by
  cases needed with
  | false => exact h
  | true => exact hkept rfl

/-- The written form of a tree is any sequence that stands for it without some parentheses.  If the
root is weaker than all operators in sight, then it stands in parentheses. -/
theorem Writes.sheds (h : Writes ts e) : Sheds ts e.flatten ∧
    ∀ p ≤ 7, (∀ o ∈ outer 0 ts, p ≤ o.precedence) → e.binding < p →
      Sheds ts (Token.parens e.flatten) := by
  induction h with
  | @leaf t operand =>
    refine ⟨by simpa using .refl, fun p hp _ hlt => ?_⟩
    rw [binding_leaf] at hlt
    omega
  | parens h ih =>
    exact ⟨(sheds_parens h.balanced).trans ih.1, fun _ _ _ _ => ih.1.parens⟩
  | @negation after e split _ ih =>
    refine ⟨?_, fun p _ hall hlt => ?_⟩
    · have hright : Sheds after (parensIf (e.binding < Operator.not.precedence) e.flatten) := by
        -- parentheses that are needed were there, since all operators in sight are strong
        refine sheds_parensIf ih.1 fun hneeded => ?_
        refine ih.2 _ (by decide) (fun o ho => ?_) (of_decide_eq_true hneeded)
        exact Nat.le_of_not_lt fun hlt => split.not_weaker o ho (.inl hlt)
      rw [flatten_negation]
      simpa using hright.context [symbol (.operator .not)] []
    · exact absurd hlt (Nat.not_lt.mpr (hall .not (by simp)))
  | @binary before after op l r split notUnary _ _ ihl ihr =>
    refine ⟨?_, fun p _ hall hlt => ?_⟩
    · -- likewise on both sides of a binary operator
      have hseven := op.precedence_lt_seven
      have hleft : Sheds before (parensIf (l.binding < op.precedence) l.flatten) := by
        refine sheds_parensIf ihl.1 fun hneeded => ?_
        exact ihl.2 _ (by omega) (fun o ho => (split.weaker o ho).le) (of_decide_eq_true hneeded)
      have hright : Sheds after (parensIf (r.binding ≤ op.precedence) r.flatten) := by
        refine sheds_parensIf ihr.1 fun hneeded => ?_
        refine ihr.2 (op.precedence + 1) (by omega) (fun o ho => ?_)
          (Nat.lt_succ_of_le (of_decide_eq_true hneeded))
        exact Operator.lt_of_not_weaker notUnary (split.not_weaker o ho)
      rw [flatten_node notUnary]
      refine hleft.append ?_
      simpa using hright.context [symbol (.operator op)] []
    · exact absurd hlt (Nat.not_lt.mpr (hall op (by simp [split.outer_eq])))

/-! ## Types -/

/-- A sequence that stands for a tree with a type has it by the rules. -/
theorem Writes.typed (h : Writes ts e) (hτ : e.type = .ok τ) : Typed e τ := by
  induction h generalizing τ with
  | @leaf t operand =>
    cases t with
    | symbol s => cases operand
    | literal n =>
      cases hτ
      exact .literal n
    | truth b =>
      cases hτ
      exact .truth b
    | access a =>
      cases a with
      | scalar x =>
        cases hτ
        exact .scalar x
      | field x s =>
        cases hτ
        exact .field x s
      | odd x =>
        cases hτ
        exact .odd x
      | element x i layout =>
        have hindex : i ≠ .missing := by
          rintro rfl
          simp [Expr.leaf, Access.toExpr, Expr.type] at hτ
        have hint := (Typed.element x layout hindex).type_eq
        cases hint.symm.trans hτ
        exact .element x layout hindex
  | parens _ ih => exact ih hτ
  | negation _ _ ih =>
    simp only [Expr.negation, Expr.type, bind_eq_ok] at hτ
    obtain ⟨σ, hσ, hτ⟩ := hτ
    cases σ with
    | int => cases hτ
    | bool =>
      cases hτ
      exact .negation (ih hσ)
  | @binary before after op l r split notUnary _ _ ihl ihr =>
    cases op with
    | not => cases notUnary
    | unknown s =>
      -- no sequence is split at an unknown operator
      have hvalid := split.valid (.unknown s) (by simp)
      cases hvalid
    | arith op =>
      simp only [Expr.type, bind_eq_ok] at hτ
      obtain ⟨σ, hl, σ', hr, hτ⟩ := hτ
      cases σ <;> cases σ' <;> cases hτ
      exact .arith op (ihl hl) (ihr hr)
    | rel op =>
      simp only [Expr.type, bind_eq_ok] at hτ
      obtain ⟨σ, hl, σ', hr, hτ⟩ := hτ
      cases σ <;> cases σ' <;> cases hτ
      exact .rel op (ihl hl) (ihr hr)
    | and =>
      simp only [Expr.type, bind_eq_ok] at hτ
      obtain ⟨σ, hl, σ', hr, hτ⟩ := hτ
      cases σ <;> cases σ' <;> cases hτ
      exact .and (ihl hl) (ihr hr)
    | or =>
      simp only [Expr.type, bind_eq_ok] at hτ
      obtain ⟨σ, hl, σ', hr, hτ⟩ := hτ
      cases σ <;> cases σ' <;> cases hτ
      exact .or (ihl hl) (ihr hr)

/-- The reader accepts what stands for a typed tree. -/
theorem read_eq_ok_iff : Expr.read ts = .ok e ↔ Writes ts e ∧ ∃ τ, Typed e τ := by
  rw [Expr.read, bind_eq_ok]
  constructor
  · rintro ⟨x, hx, h⟩
    have hwrites := (readTree_eq_ok_iff (Nat.lt_succ_self _)).mp hx
    cases hτ : x.type with
    | error flaw =>
      rw [hτ] at h
      cases h
    | ok τ =>
      rw [hτ] at h
      cases h
      exact ⟨hwrites, τ, hwrites.typed hτ⟩
  · rintro ⟨hwrites, τ, hτ⟩
    refine ⟨e, (readTree_eq_ok_iff (Nat.lt_succ_self _)).mpr hwrites, ?_⟩
    rw [hτ.type_eq]

end Token

/-- Reading undoes writing, and writing undoes reading up to parentheses.  A well-typed tree is read
back from its written form; a sequence that is read gives a well-typed tree, whose written form is
the sequence without some matching pairs of parentheses. -/
theorem read_inverts_flatten :
    (∀ (e : Expr) (τ : Ty), e.Typed τ → Expr.read e.flatten = .ok e ∧ e.equal e = true) ∧
      ∀ (ts : List Token) (e : Expr), Expr.read ts = .ok e →
        (∃ τ, e.Typed τ) ∧ Token.Sheds ts e.flatten := by
  refine ⟨fun e τ h => ⟨?_, e.equal_refl⟩, fun ts e h => ?_⟩
  · exact Token.read_eq_ok_iff.mpr ⟨(Token.written_of_typed h).writes, τ, h⟩
  · obtain ⟨hwrites, htyped⟩ := Token.read_eq_ok_iff.mp h
    exact ⟨htyped, hwrites.sheds.1⟩

/-- The condition `not (a - (b - c) * 2 < xs[a + 1] & true) | not not r.fst == a / b * c`. -/
def mixedTree : Expr :=
  .node .or
    (.negation (.node .and
      (.node (.rel .lt)
        (.node (.arith .sub) (.scalar "a")
          (.node (.arith .mul) (.node (.arith .sub) (.scalar "b") (.scalar "c")) (.literal 2)))
        (.element "xs" (.node (.arith .add) (.scalar "a") (.literal 1)) none))
      (.truth true)))
    (.negation (.negation (.node (.rel .eq) (.field "r" .fst)
      (.node (.arith .mul) (.node (.arith .div) (.scalar "a") (.scalar "b")) (.scalar "c")))))

/-- The second half of the condition with parentheses that are not needed:
`(not (not r.fst == ((a / b) * (c))))`. -/
def spareTokens : List Token :=
  Token.parens (.symbol (.operator .not) :: Token.parens (.symbol (.operator .not) ::
    .access (.field "r" .fst) :: .symbol (.operator (.rel .eq)) ::
      Token.parens (Token.parens
        [.access (.scalar "a"), .symbol (.operator (.arith .div)), .access (.scalar "b")] ++
        .symbol (.operator (.arith .mul)) :: Token.parens [.access (.scalar "c")])))

theorem read_inverts_flatten_mixed : mixedTree.Typed .bool ∧
    Expr.read mixedTree.flatten = .ok mixedTree ∧
    ∃ e, Expr.read spareTokens = .ok e ∧ e.flatten.length + 10 = spareTokens.length ∧
      Token.Sheds spareTokens e.flatten := by
  have htyped : mixedTree.Typed .bool :=
    .or
      (.negation (.and
        (.rel .lt
          (.arith .sub (.scalar "a")
            (.arith .mul (.arith .sub (.scalar "b") (.scalar "c")) (.literal 2)))
          (.element "xs" none nofun))
        (.truth true)))
      (.negation (.negation (.rel .eq (.field "r" .fst)
        (.arith .mul (.arith .div (.scalar "a") (.scalar "b")) (.scalar "c")))))
  have hread : Expr.read spareTokens = .ok (.negation (.negation (.node (.rel .eq)
      (.field "r" .fst) (.node (.arith .mul)
        (.node (.arith .div) (.scalar "a") (.scalar "b")) (.scalar "c"))))) := rfl
  exact ⟨htyped, (read_inverts_flatten.1 _ _ htyped).1, _, hread, rfl,
    (read_inverts_flatten.2 _ _ hread).2⟩

end MicroFlow
