import MicroFlow.Proofs.Expr.Parentheses

/-!
# The weakest operator

A token sequence is split at an operator outside parentheses (`Token.outer` lists them).  It is
weaker than every such operator before it, and none behind it is weaker (`Token.SplitsAt`), where
of two equally strong operators the later one counts as weaker if it is binary
(`Operator.Weaker`).  `weakest_eq_ok` says that `weakest` finds exactly these splits.
-/

namespace MicroFlow

namespace Operator

variable {a b c : Operator}

/-- An operator is split at in preference to another one that stands before it. -/
def Weaker (a b : Operator) : Prop :=
  a.precedence < b.precedence ∨ a.precedence = b.precedence ∧ a.isUnary = false

instance (a b : Operator) : Decidable (a.Weaker b) := inferInstanceAs (Decidable (_ ∨ _))

theorem Weaker.le (h : a.Weaker b) : a.precedence ≤ b.precedence := by
  rcases h with h | ⟨h, -⟩
  · exact Nat.le_of_lt h
  · exact Nat.le_of_eq h

/-- The order of operators in a search is transitive. -/
theorem Weaker.trans (h : a.Weaker b) (k : b.Weaker c) : a.Weaker c := by
  have hle := k.le
  rcases h with h | ⟨h, hbinary⟩
  · exact .inl (by omega)
  · rcases Nat.lt_or_eq_of_le hle with hlt | heq
    · exact .inl (by omega)
    · exact .inr ⟨by omega, hbinary⟩

/-- What is weaker than the weakest so far is weaker than all that did not replace it. -/
theorem Weaker.of_not (h : a.Weaker b) (k : ¬ c.Weaker b) : a.Weaker c := by
  have hle : b.precedence ≤ c.precedence := Nat.le_of_not_lt fun hlt => k (.inl hlt)
  rcases h with h | ⟨h, hbinary⟩
  · exact .inl (by omega)
  · rcases Nat.lt_or_eq_of_le hle with hlt | heq
    · exact .inl (by omega)
    · exact .inr ⟨by omega, hbinary⟩

/-- Of binary operators, the later one of equal strength is the weaker. -/
theorem weaker_of_le (h : a.precedence ≤ b.precedence) (hbinary : a.isUnary = false) :
    a.Weaker b := by
  rcases Nat.lt_or_eq_of_le h with hlt | heq
  · exact .inl hlt
  · exact .inr ⟨heq, hbinary⟩

theorem eq_not_of_isUnary (h : a.isUnary = true) : a = .not := by
  cases a with
  | not => rfl
  | arith | rel | and | or | unknown => cases h

theorem eq_not_of_precedence (h : a.precedence = Operator.not.precedence) : a = .not := by
  cases a with
  | arith op => cases op <;> cases h
  | not => rfl
  | rel | and | or | unknown => cases h

/-- Behind a binary operator, what is not weaker is stronger: only prefixed operators tie. -/
theorem lt_of_not_weaker (hbinary : a.isUnary = false) (h : ¬ b.Weaker a) :
    a.precedence < b.precedence := by
  have hle : a.precedence ≤ b.precedence := Nat.le_of_not_lt fun hlt => h (.inl hlt)
  refine Nat.lt_of_le_of_ne hle fun heq => ?_
  cases hb : b.isUnary with
  | false => exact h (.inr ⟨heq.symm, hb⟩)
  | true =>
    cases eq_not_of_isUnary hb
    cases eq_not_of_precedence heq
    cases hbinary

theorem precedence_lt_seven (op : Operator) : op.precedence < 7 := by
  cases op with
  | arith op => cases op <;> decide
  | rel | and | or | not | unknown => simp [precedence]

end Operator

namespace Token

variable {t : Token} {ts us before after rest : List Token} {d e i j k : Nat} {op b : Operator}
  {best : Option (Nat × Operator)}

/-! ## Operators outside parentheses -/

/-- The operators outside parentheses, when `d` parentheses are open before the sequence. -/
def outer : Nat → List Token → List Operator
  | _, [] => []
  | d, symbol .opening :: rest => outer (d + 1) rest
  | d, symbol .closing :: rest => outer (d - 1) rest
  | 0, symbol (.operator op) :: rest => op :: outer 0 rest
  | d, _ :: rest => outer d rest

@[simp] theorem outer_nil : outer d [] = [] := rfl

@[simp] theorem outer_opening : outer d (symbol .opening :: rest) = outer (d + 1) rest := rfl

@[simp] theorem outer_closing : outer d (symbol .closing :: rest) = outer (d - 1) rest := rfl

@[simp] theorem outer_operator_zero :
    outer 0 (symbol (.operator op) :: rest) = op :: outer 0 rest := rfl

@[simp] theorem outer_operator_succ :
    outer (d + 1) (symbol (.operator op) :: rest) = outer (d + 1) rest := rfl

/-- Operands count neither as operators nor as parentheses. -/
theorem outer_plain (h : t.Plain) : outer d (t :: rest) = outer d rest := by
  cases t with
  | literal | truth | access => rfl
  | symbol s =>
    cases h
    rfl

/-- The operators outside parentheses, part by part. -/
theorem outer_append (h : depth d ts = some e) : outer d (ts ++ us) = outer d ts ++ outer e us := by
  induction ts generalizing d with
  | nil =>
    cases h
    simp
  | cons t ts ih =>
    rw [List.cons_append]
    obtain rfl | rfl | ⟨op, rfl⟩ | hplain := t.sorts
    · simpa using ih (by simpa using h)
    · cases d with
      | zero => simp at h
      | succ d => simpa using ih (by simpa using h)
    · cases d with
      | zero | succ d => simpa using ih (by simpa using h)
    · rw [depth_plain hplain] at h
      rw [outer_plain hplain, outer_plain hplain, ih h]

/-- Inside parentheses none counts. -/
theorem outer_succ (h : depth d ts = some e) : outer (d + 1) ts = [] := by
  induction ts generalizing d with
  | nil => simp
  | cons t ts ih =>
    obtain rfl | rfl | ⟨op, rfl⟩ | hplain := t.sorts
    · simpa using ih (by simpa using h)
    · cases d with
      | zero => simp at h
      | succ d => simpa using ih (by simpa using h)
    · simpa using ih (by simpa using h)
    · rw [depth_plain hplain] at h
      rw [outer_plain hplain, ih h]

theorem outer_parens (h : Balanced ts) : outer 0 (parens ts) = [] := by
  rw [parens, List.cons_append, outer_opening, outer_append (h.depth_eq 1), outer_succ h]
  simp

/-- A sequence with such an operator is not one in parentheses. -/
theorem bare_of_outer (h : outer 0 ts ≠ []) : Bare ts := by
  rintro inner hinner rfl
  exact h (outer_parens hinner)

/-! ## One step of the search -/

@[simp] theorem weakest_opening :
    weakest i d best (symbol .opening :: rest) = weakest (i + 1) (d + 1) best rest := rfl

@[simp] theorem weakest_closing_zero :
    weakest i 0 best (symbol .closing :: rest) = .error .unbalanced := rfl

@[simp] theorem weakest_closing :
    weakest i (d + 1) best (symbol .closing :: rest) = weakest (i + 1) d best rest := rfl

@[simp] theorem weakest_operator_succ : weakest i (d + 1) best (symbol (.operator op) :: rest) =
    weakest (i + 1) (d + 1) best rest := rfl

/-- An unknown operator is an error. -/
theorem weakest_operator_unknown (h : op.isValid = false) :
    weakest i 0 best (symbol (.operator op) :: rest) = .error (.unknownOperator op.symbol) := by
  simp [weakest, h]

/-- A weaker operator takes the place of the weakest one so far. -/
theorem weakest_operator_weaker (hvalid : op.isValid = true) (h : ∀ b ∈ best, op.Weaker b.2) :
    weakest i 0 best (symbol (.operator op) :: rest) = weakest (i + 1) 0 (some (i, op)) rest := by
  cases best with
  | none => simp [weakest, hvalid]
  | some b =>
    have hweaker := h b rfl
    simp [weakest, hvalid, ← Operator.Weaker.eq_1, hweaker]

/-- A stronger operator changes nothing. -/
theorem weakest_operator_stronger (hvalid : op.isValid = true) (h : ¬ op.Weaker b) :
    weakest i 0 (some (j, b)) (symbol (.operator op) :: rest) =
      weakest (i + 1) 0 (some (j, b)) rest := by
  simp [weakest, hvalid, ← Operator.Weaker.eq_1, h]

/-- Plain tokens are passed over. -/
theorem weakest_plain (h : t.Plain) :
    weakest i d best (t :: rest) = weakest (i + 1) d best rest := by
  cases t with
  | literal | truth | access => rfl
  | symbol s =>
    cases h
    rfl

/-! ## The whole search -/

/-- An operator outside parentheses, between balanced sequences, at which the whole is split. -/
structure SplitsAt (before : List Token) (op : Operator) (after : List Token) : Prop where
  balanced_before : Balanced before
  balanced_after : Balanced after
  valid : ∀ o ∈ outer 0 before ++ op :: outer 0 after, o.isValid = true
  weaker : ∀ o ∈ outer 0 before, op.Weaker o
  not_weaker : ∀ o ∈ outer 0 after, ¬ o.Weaker op

/-- The operators outside of parentheses, on both sides of a split. -/
theorem SplitsAt.outer_eq (h : SplitsAt before op after) :
    outer 0 (before ++ symbol (.operator op) :: after) = outer 0 before ++ op :: outer 0 after := by
  rw [outer_append h.balanced_before, outer_operator_zero]

theorem SplitsAt.balanced (h : SplitsAt before op after) :
    Balanced (before ++ symbol (.operator op) :: after) :=
  h.balanced_before.append (by rw [Balanced, depth_operator]; exact h.balanced_after)

theorem SplitsAt.bare (h : SplitsAt before op after) :
    Bare (before ++ symbol (.operator op) :: after) :=
  bare_of_outer (by simp [h.outer_eq])

/-- What the search has found when it ends: the weakest one so far, which nothing that came later
replaced, or an operator `op` at position `k` of the tokens it went through. -/
structure Found (i d : Nat) (best : Option (Nat × Operator)) (ts : List Token) (k : Nat)
    (op : Operator) : Prop where
  depth_eq : depth d ts = some 0
  valid : ∀ o ∈ outer d ts, o.isValid = true
  found : (best = some (k, op) ∧ ∀ o ∈ outer d ts, ¬ o.Weaker op) ∨
    ∃ before after, ts = before ++ symbol (.operator op) :: after ∧ k = i + before.length ∧
      depth d before = some 0 ∧ (∀ b ∈ best, op.Weaker b.2) ∧
      (∀ o ∈ outer d before, op.Weaker o) ∧ ∀ o ∈ outer 0 after, ¬ o.Weaker op

/-- A token that is passed over. -/
theorem Found.pass (h : Found (i + 1) e best ts k op)
    (hdepth : ∀ us, depth d (t :: us) = depth e us)
    (houter : ∀ us, outer d (t :: us) = outer e us) : Found i d best (t :: ts) k op := by
  refine ⟨by rw [hdepth]; exact h.depth_eq, by rw [houter]; exact h.valid, ?_⟩
  rcases h.found with ⟨hbest, hkeep⟩ | ⟨before, after, rfl, rfl, hbefore, hbest, hweaker, hkeep⟩
  · exact .inl ⟨hbest, by rw [houter]; exact hkeep⟩
  · refine .inr ⟨t :: before, after, rfl, ?_, by rw [hdepth]; exact hbefore, hbest,
      by rw [houter]; exact hweaker, hkeep⟩
    rw [List.length_cons]
    omega

/-- What a search returns, wherever it starts: the weakest so far, or a weaker one that follows. -/
theorem found_of_weakest (h : weakest i d best ts = .ok (k, op)) : Found i d best ts k op := by
  induction ts generalizing i d best with
  | nil =>
    cases d with
    | succ d => cases h
    | zero =>
      cases best with
      | none => cases h
      | some b =>
        cases h
        exact ⟨rfl, by simp, .inl ⟨rfl, by simp⟩⟩
  | cons t ts ih =>
    obtain rfl | rfl | ⟨o, rfl⟩ | hplain := t.sorts
    · exact (ih (by simpa using h)).pass (by simp) (by simp)
    · cases d with
      | zero => simp at h
      | succ d => exact (ih (by simpa using h)).pass (by simp) (by simp)
    · cases d with
      | succ d => exact (ih (by simpa using h)).pass (by simp) (by simp)
      | zero =>
        cases hvalid : o.isValid with
        | false =>
          rw [weakest_operator_unknown hvalid] at h
          cases h
        | true =>
          -- the operator is the first of those outside parentheses
          have hall : ∀ {P : Operator → Prop}, P o → (∀ x ∈ outer 0 ts, P x) →
              ∀ x ∈ outer 0 (symbol (.operator o) :: ts), P x := by
            intro P ho hts
            simpa using ⟨ho, hts⟩
          by_cases hweaker : ∀ b ∈ best, o.Weaker b.2
          · -- it replaces the weakest one so far
            rw [weakest_operator_weaker hvalid hweaker] at h
            obtain ⟨hdepth, hvalids, hfound⟩ := ih h
            refine ⟨by rwa [depth_operator], hall hvalid hvalids, .inr ?_⟩
            rcases hfound with ⟨heq, hkeep⟩ |
              ⟨before, after, rfl, rfl, hbefore, hbest, hweakers, hkeep⟩
            · cases heq
              exact ⟨[], ts, rfl, rfl, rfl, hweaker, by simp, hkeep⟩
            · have hop : op.Weaker o := hbest _ rfl
              refine ⟨symbol (.operator o) :: before, after, rfl, ?_, by rwa [depth_operator],
                fun b hb => hop.trans (hweaker b hb), by simpa using ⟨hop, hweakers⟩, hkeep⟩
              rw [List.length_cons]
              omega
          · -- the weakest one so far is kept
            cases best with
            | none => simp at hweaker
            | some b =>
              obtain ⟨j, b⟩ := b
              have hstronger : ¬ o.Weaker b := fun hb => hweaker (by simpa using hb)
              rw [weakest_operator_stronger hvalid hstronger] at h
              obtain ⟨hdepth, hvalids, hfound⟩ := ih h
              refine ⟨by rwa [depth_operator], hall hvalid hvalids, ?_⟩
              rcases hfound with ⟨heq, hkeep⟩ |
                ⟨before, after, rfl, rfl, hbefore, hbest, hweakers, hkeep⟩
              · cases heq
                exact .inl ⟨rfl, hall hstronger hkeep⟩
              · have hop : op.Weaker b := hbest _ rfl
                refine .inr ⟨symbol (.operator o) :: before, after, rfl, ?_,
                  by rwa [depth_operator], hbest,
                  by simpa using ⟨hop.of_not hstronger, hweakers⟩, hkeep⟩
                rw [List.length_cons]
                omega
    · rw [weakest_plain hplain] at h
      exact (ih h).pass (fun _ => depth_plain hplain) fun _ => outer_plain hplain

/-- The search goes through tokens whose operators are known, and keeps one of them or the weakest
one so far. -/
theorem weakest_append (hdepth : depth d ts = some e)
    (hvalid : ∀ o ∈ outer d ts, o.isValid = true) (us : List Token) :
    ∃ best', weakest i d best (ts ++ us) = weakest (i + ts.length) e best' us ∧
      ∀ b ∈ best', b ∈ best ∨ b.2 ∈ outer d ts := by
  induction ts generalizing i d best with
  | nil =>
    cases hdepth
    exact ⟨best, rfl, fun b hb => .inl hb⟩
  | cons t ts ih =>
    rw [List.cons_append, List.length_cons, Nat.add_comm ts.length, ← Nat.add_assoc]
    obtain rfl | rfl | ⟨o, rfl⟩ | hplain := t.sorts
    · simpa using ih (by simpa using hdepth) (by simpa using hvalid)
    · cases d with
      | zero => simp at hdepth
      | succ d => simpa using ih (by simpa using hdepth) (by simpa using hvalid)
    · cases d with
      | succ d => simpa using ih (by simpa using hdepth) (by simpa using hvalid)
      | zero =>
        simp only [outer_operator_zero, List.mem_cons, forall_eq_or_imp] at hvalid ⊢
        rw [depth_operator] at hdepth
        by_cases hweaker : ∀ b ∈ best, o.Weaker b.2
        · -- it becomes the weakest one so far, so the old one is forgotten
          rw [weakest_operator_weaker hvalid.1 hweaker]
          obtain ⟨best', heq, hbest'⟩ := ih hdepth hvalid.2
          refine ⟨best', heq, fun b hb => .inr ?_⟩
          rcases hbest' b hb with hb | hb
          · cases hb
            exact .inl rfl
          · exact .inr hb
        · cases best with
          | none => simp at hweaker
          | some b =>
            rw [weakest_operator_stronger hvalid.1 fun hb => hweaker (by simpa using hb)]
            obtain ⟨best', heq, hbest'⟩ := ih hdepth hvalid.2
            exact ⟨best', heq, fun b hb => (hbest' b hb).imp_right .inr⟩
    · rw [depth_plain hplain] at hdepth
      rw [outer_plain hplain] at hvalid ⊢
      rw [weakest_plain hplain]
      exact ih hdepth hvalid

/-- A search keeps the weakest one so far when none is weaker. -/
theorem weakest_keep (hdepth : depth d ts = some 0)
    (hvalid : ∀ o ∈ outer d ts, o.isValid = true) (hkeep : ∀ o ∈ outer d ts, ¬ o.Weaker op) :
    weakest i d (some (k, op)) ts = .ok (k, op) := by
  induction ts generalizing i d with
  | nil =>
    cases hdepth
    rfl
  | cons t ts ih =>
    obtain rfl | rfl | ⟨o, rfl⟩ | hplain := t.sorts
    · simpa using ih (by simpa using hdepth) (by simpa using hvalid) (by simpa using hkeep)
    · cases d with
      | zero => simp at hdepth
      | succ d =>
        simpa using ih (by simpa using hdepth) (by simpa using hvalid) (by simpa using hkeep)
    · cases d with
      | succ d =>
        simpa using ih (by simpa using hdepth) (by simpa using hvalid) (by simpa using hkeep)
      | zero =>
        simp only [outer_operator_zero, List.mem_cons, forall_eq_or_imp] at hvalid hkeep
        rw [weakest_operator_stronger hvalid.1 hkeep.1]
        exact ih (by simpa using hdepth) hvalid.2 hkeep.2
    · rw [depth_plain hplain] at hdepth
      rw [outer_plain hplain] at hvalid hkeep
      rw [weakest_plain hplain]
      exact ih hdepth hvalid hkeep

/-- The search finds where a sequence splits, and only that. -/
theorem weakest_eq_ok : weakest 0 0 none ts = .ok (k, op) ↔ ∃ before after,
    ts = before ++ symbol (.operator op) :: after ∧ before.length = k ∧
      SplitsAt before op after := by
  constructor
  · intro h
    obtain ⟨hdepth, hvalid, ⟨hbest, -⟩ | hfound⟩ := found_of_weakest h
    · cases hbest
    · obtain ⟨before, after, rfl, rfl, hbefore, -, hweaker, hkeep⟩ := hfound
      rw [depth_append, hbefore] at hdepth
      rw [outer_append hbefore, outer_operator_zero] at hvalid
      exact ⟨before, after, rfl, by omega, hbefore, by
        simpa [Balanced] using hdepth, hvalid, hweaker, hkeep⟩
  · rintro ⟨before, after, rfl, rfl, h⟩
    have hvalid := h.valid
    simp only [List.mem_append, List.mem_cons] at hvalid
    obtain ⟨best, heq, hbest⟩ := weakest_append (i := 0) h.balanced_before
      (fun o ho => hvalid o (.inl ho)) (symbol (.operator op) :: after)
    rw [heq, Nat.zero_add, weakest_operator_weaker (hvalid op (.inr (.inl rfl)))]
    · exact weakest_keep h.balanced_after (fun o ho => hvalid o (.inr (.inr ho))) h.not_weaker
    · intro b hb
      rcases hbest b hb with hb | hb
      · cases hb
      · exact h.weaker b.2 hb

end Token

end MicroFlow
