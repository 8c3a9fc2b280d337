import MicroFlow.Proofs.Except
import MicroFlow.Proofs.Expr.Weakest

/-!
# The sequences that the reader accepts

`Token.Writes` says which token sequences stand for a tree, without a bound on the depth: a leaf is
its token, parentheses around the whole do not matter, and otherwise the sequence is split at its
weakest operator.  The reader goes by this relation (`readTree_eq_ok_iff`).
-/

namespace MicroFlow.Token

open MicroFlow.Expr

variable {ts before after inner : List Token} {e : Expr} {op : Operator} {fuel : Nat}

/-! ## Sequences that stand for a tree -/

/-- The sequence stands for the tree. -/
inductive Writes : List Token → Expr → Prop
  | leaf {t : Token} (operand : t.isOperand = true) : Writes [t] (Expr.leaf t)
  | parens {ts : List Token} {e : Expr} : Writes ts e → Writes (parens ts) e
  | negation {after : List Token} {e : Expr} (split : SplitsAt [] .not after) :
      Writes after e → Writes (symbol (.operator .not) :: after) e.negation
  | binary {before after : List Token} {op : Operator} {l r : Expr}
      (split : SplitsAt before op after) (notUnary : op.isUnary = false) :
      Writes before l → Writes after r →
        Writes (before ++ symbol (.operator op) :: after) (node op l r)

theorem plain_of_isOperand {t : Token} (h : t.isOperand = true) : t.Plain := by
  cases t with
  | literal | truth | access => trivial
  | symbol s => cases h

/-- What stands for a tree is balanced. -/
theorem Writes.balanced (h : Writes ts e) : Balanced ts := by
  induction h with
  | leaf operand => exact depth_plain (plain_of_isOperand operand)
  | parens _ ih => exact ih.parens
  | negation split => exact split.balanced
  | binary split => exact split.balanced

/-- Its operators are known ones. -/
theorem Writes.valid (h : Writes ts e) : ∀ o ∈ outer 0 ts, o.isValid = true := by
  cases h with
  | leaf operand => simp [outer_plain (plain_of_isOperand operand)]
  | parens h => simp [outer_parens h.balanced]
  | negation split => simpa using split.valid
  | binary split => simpa only [split.outer_eq] using split.valid

/-! ## The reader -/

/-- What one step of the reader does with a sequence that stands in no parentheses. -/
inductive Step (fuel : Nat) : List Token → Expr → Prop
  | leaf {t : Token} (operand : t.isOperand = true) : Step fuel [t] (Expr.leaf t)
  | negation {after : List Token} {e : Expr} (split : SplitsAt [] .not after)
      (right : readTree fuel after = .ok e) :
      Step fuel (symbol (.operator .not) :: after) e.negation
  | binary {before after : List Token} {op : Operator} {l r : Expr}
      (split : SplitsAt before op after) (notUnary : op.isUnary = false)
      (left : readTree fuel before = .ok l) (right : readTree fuel after = .ok r) :
      Step fuel (before ++ symbol (.operator op) :: after) (node op l r)

theorem drop_split (before after : List Token) (t : Token) :
    (before ++ t :: after).drop (before.length + 1) = after := by
  rw [List.drop_length_add_append]
  rfl

theorem readTree_nil_ne_ok : readTree fuel [] ≠ .ok e := by
  cases fuel <;> exact nofun

/-- A tree that is read comes from one step on what the parentheses enclose. -/
theorem step_of_readTree (h : readTree (fuel + 1) ts = .ok e) :
    ∃ inner, strip ts.length ts = .ok inner ∧ Step fuel inner e := by
  rw [readTree, plan] at h
  split at h
  · cases h
  · rename_i inner hinner
    refine ⟨inner, hinner, ?_⟩
    unfold planBare at h
    split at h
    · cases h
    · split at h
      · cases h
        exact .leaf ‹_›
      · cases h
    · split at h
      · cases h
      · -- the sequence is cut at its weakest operator
        rename_i k op hweakest
        obtain ⟨before, after, rfl, rfl, hsplit⟩ := weakest_eq_ok.mp hweakest
        split at h
        · rename_i hunary
          cases Operator.eq_not_of_isUnary hunary
          split at h
          · cases h
          · rename_i hfirst
            -- a negation has nothing in front of it
            obtain rfl : before = [] := by simpa using hfirst
            rw [Plan.carryOut, bind_eq_ok] at h
            obtain ⟨x, hx, h⟩ := h
            cases h
            exact .negation hsplit hx
        · rename_i hunary
          split at h
          · cases h
          · rw [List.take_left, drop_split] at h
            simp only [Plan.carryOut, bind_eq_ok] at h
            obtain ⟨l, hl, r, hr, h⟩ := h
            cases h
            exact .binary hsplit (Bool.eq_false_iff.mpr hunary) hl hr

/-- What one step makes of a sequence without parentheses around it is read. -/
theorem readTree_of_step (hstrip : strip ts.length ts = .ok inner) (h : Step fuel inner e) :
    readTree (fuel + 1) ts = .ok e := by
  simp only [readTree, plan, hstrip]
  cases h with
  | leaf operand => simp [planBare, Plan.carryOut, operand]
  | @negation after e split right =>
    have hweakest := weakest_eq_ok.mpr ⟨[], after, rfl, rfl, split⟩
    cases after with
    | nil => exact absurd right readTree_nil_ne_ok
    | cons u after =>
      rw [List.nil_append] at hweakest
      have hplan : planBare ts (symbol (.operator .not) :: u :: after) = .negate (u :: after) := by
        simp [planBare, hweakest, Operator.isUnary]
      rw [hplan, Plan.carryOut, right]
      rfl
  | @binary before after op l r split notUnary left right =>
    have hweakest := weakest_eq_ok.mpr ⟨before, after, rfl, rfl, split⟩
    -- both operands are there, since nothing is read from no tokens
    have hbefore : before ≠ [] := fun hnil => readTree_nil_ne_ok (hnil ▸ left)
    have hafter : after ≠ [] := fun hnil => readTree_nil_ne_ok (hnil ▸ right)
    have hplan : planBare ts (before ++ symbol (.operator op) :: after) =
        .combine op before after := by
      unfold planBare
      split
      · simp at *
      · simp_all [List.append_eq_singleton_iff]
      · simp [hweakest, notUnary, hbefore, hafter]
    rw [hplan, Plan.carryOut, left, right]
    rfl

/-- Stripped parentheses can be put back. -/
theorem writes_of_strip (hstrip : strip fuel ts = .ok inner) (h : Writes inner e) :
    Writes ts e := by
  induction fuel generalizing ts with
  | zero =>
    cases hstrip
    exact h
  | succ fuel ih =>
    obtain rfl | ⟨us, -, rfl, hus⟩ := strip_cases hstrip
    · exact h
    · exact .parens (ih hus)

/-- What is read stands for the tree. -/
theorem writes_of_readTree (h : readTree fuel ts = .ok e) : Writes ts e := by
  induction fuel generalizing ts e with
  | zero => cases h
  | succ fuel ih =>
    obtain ⟨inner, hstrip, hstep⟩ := step_of_readTree h
    refine writes_of_strip hstrip ?_
    cases hstep with
    | leaf operand => exact .leaf operand
    | negation split right => exact .negation split (ih right)
    | binary split notUnary left right => exact .binary split notUnary (ih left) (ih right)

/-- A sequence that stands for a tree is read, since a step down leaves a shorter one. -/
theorem readTree_of_writes (h : Writes ts e) (hfuel : ts.length < fuel) :
    readTree fuel ts = .ok e := by
  induction h generalizing fuel with
  | @leaf t operand =>
    obtain ⟨fuel, rfl⟩ := Nat.exists_eq_add_of_lt hfuel
    have hbare : Bare [t] := by
      intro us _ heq
      have hlength := congrArg List.length heq
      rw [length_parens] at hlength
      simp at hlength
    exact readTree_of_step (strip_bare (Writes.leaf operand).balanced hbare _) (.leaf operand)
  | @parens us e hus ih =>
    obtain ⟨fuel, rfl⟩ := Nat.exists_eq_add_of_lt hfuel
    -- the parentheses are stripped off at once, and their inside is read as it would be alone
    have hread : readTree ((Token.parens us).length + fuel + 1) us = .ok e :=
      ih (by rw [length_parens]; omega)
    obtain ⟨inner, hstrip, hstep⟩ := step_of_readTree hread
    refine readTree_of_step ?_ hstep
    rw [length_parens, strip_parens hus.balanced, ← hstrip]
    exact strip_fuel (Nat.le_succ _) (Nat.le_refl _)
  | @negation after e split _ ih =>
    obtain ⟨fuel, rfl⟩ := Nat.exists_eq_add_of_lt hfuel
    exact readTree_of_step (strip_bare split.balanced split.bare _)
      (.negation split (ih (by simp only [List.length_cons]; omega)))
  | @binary before after op l r split notUnary _ _ ihl ihr =>
    obtain ⟨fuel, rfl⟩ := Nat.exists_eq_add_of_lt hfuel
    refine readTree_of_step (strip_bare split.balanced split.bare _)
      (.binary split notUnary (ihl ?_) (ihr ?_))
    · simp only [List.length_append, List.length_cons]
      omega
    · simp only [List.length_append, List.length_cons]
      omega

theorem readTree_eq_ok_iff (hfuel : ts.length < fuel) : readTree fuel ts = .ok e ↔ Writes ts e :=
  ⟨writes_of_readTree, fun h => readTree_of_writes h hfuel⟩

end MicroFlow.Token
