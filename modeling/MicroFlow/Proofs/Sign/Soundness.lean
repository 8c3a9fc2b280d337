import MicroFlow.Proofs.Semantics.Basic
import MicroFlow.Proofs.Sign.Order

/-!
# The tables of signs are right

Whatever two values an operator is applied to, the table of the operator lists the sign of
the result for the signs of the operands (`Sign.has_apply_sign`).  Where a relation holds
between two integers, the table of the relation says that it can
(`Sign.canBeTrue_of_holds`), so narrowing keeps the signs of both
(`SignSet.has_narrow_of_holds`).
-/

namespace MicroFlow

variable {n m : Int}

namespace Sign

theorem of_pos (h : 0 < n) : of n = plus := by
  rw [of, if_pos h]

theorem of_neg (h : n < 0) : of n = minus := by
  rw [of, if_neg (by omega), if_pos h]

theorem of_zero : of 0 = zero := rfl

/-- The sign of an integer, in three cases. -/
theorem of_cases (n : Int) :
    0 < n ∧ of n = plus ∨ n < 0 ∧ of n = minus ∨ n = 0 ∧ of n = zero := by
  rcases Int.lt_trichotomy 0 n with h | h | h
  · exact .inl ⟨h, of_pos h⟩
  · exact .inr (.inr ⟨h.symm, h ▸ of_zero⟩)
  · exact .inr (.inl ⟨h, of_neg h⟩)

theorem of_ne_undef (n : Int) : of n ≠ undef := by
  rcases of_cases n with ⟨-, h⟩ | ⟨-, h⟩ | ⟨-, h⟩ <;> rw [h] <;> decide

theorem has_top_of (n : Int) : SignSet.top.has (of n) = true := by
  rcases of_cases n with ⟨-, h⟩ | ⟨-, h⟩ | ⟨-, h⟩ <;> rw [h] <;> rfl

/-- The sign of a number that is not negative, where zero and `+` are listed. -/
theorem has_of_nonneg {s : SignSet} (h : 0 ≤ n) (hzero : s.has zero = true)
    (hplus : s.has plus = true) : s.has (of n) = true := by
  rcases of_cases n with ⟨-, heq⟩ | ⟨hneg, -⟩ | ⟨-, heq⟩
  · rw [heq, hplus]
  · omega
  · rw [heq, hzero]

/-- The sign of a number that is not positive, where zero and `-` are listed. -/
theorem has_of_nonpos {s : SignSet} (h : n ≤ 0) (hzero : s.has zero = true)
    (hminus : s.has minus = true) : s.has (of n) = true := by
  rcases of_cases n with ⟨hpos, -⟩ | ⟨-, heq⟩ | ⟨-, heq⟩
  · omega
  · rw [heq, hminus]
  · rw [heq, hzero]

/-! ## Arithmetic -/

/-- Sums of integers have one of the listed signs. -/
theorem has_add (m n : Int) : (add (of m) (of n)).has (of (m + n)) = true := by
  rcases of_cases m with ⟨hm, hm'⟩ | ⟨hm, hm'⟩ | ⟨rfl, hm'⟩ <;>
    rcases of_cases n with ⟨hn, hn'⟩ | ⟨hn, hn'⟩ | ⟨rfl, hn'⟩ <;> simp only [hm', hn']
  · rw [of_pos (by omega)]
    rfl
  · exact has_top_of _
  · rw [Int.add_zero, hm']
    rfl
  · exact has_top_of _
  · rw [of_neg (by omega)]
    rfl
  · rw [Int.add_zero, hm']
    rfl
  · rw [Int.zero_add, hn']
    rfl
  · rw [Int.zero_add, hn']
    rfl
  · rfl

/-- Negation changes the sign. -/
theorem negate_of (n : Int) : (of n).negate = of (-n) := by
  rcases of_cases n with ⟨h, h'⟩ | ⟨h, h'⟩ | ⟨rfl, h'⟩ <;> rw [h']
  · rw [of_neg (by omega)]
    rfl
  · rw [of_pos (by omega)]
    rfl
  · rfl

theorem has_sub (m n : Int) : (sub (of m) (of n)).has (of (m - n)) = true := by
  rw [sub, negate_of, Int.sub_eq_add_neg]
  exact has_add m (-n)

/-- The sign of a product is known. -/
theorem mul_of (m n : Int) : mul (of m) (of n) = .single (of (m * n)) := by
  rcases of_cases m with ⟨hm, hm'⟩ | ⟨hm, hm'⟩ | ⟨rfl, hm'⟩ <;>
    rcases of_cases n with ⟨hn, hn'⟩ | ⟨hn, hn'⟩ | ⟨rfl, hn'⟩ <;> simp only [hm', hn']
  · rw [of_pos (Int.mul_pos hm hn)]
    rfl
  · rw [of_neg (Int.mul_neg_of_pos_of_neg hm hn)]
    rfl
  · rw [Int.mul_zero]
    rfl
  · rw [of_neg (Int.mul_neg_of_neg_of_pos hm hn)]
    rfl
  · rw [of_pos (Int.mul_pos_of_neg_of_neg hm hn)]
    rfl
  · rw [Int.mul_zero]
    rfl
  · rw [Int.zero_mul]
    rfl
  · rw [Int.zero_mul]
    rfl
  · rfl

/-- Quotients by anything but zero. -/
theorem has_div (h : n ≠ 0) : (div (of m) (of n)).has (of (m.tdiv n)) = true := by
  -- the quotient of a negative dividend is that of its negation, negated
  have hneg : m.tdiv n = -((-m).tdiv n) := by rw [Int.neg_tdiv, Int.neg_neg]
  rcases of_cases m with ⟨hm, hm'⟩ | ⟨hm, hm'⟩ | ⟨rfl, hm'⟩ <;>
    rcases of_cases n with ⟨hn, hn'⟩ | ⟨hn, hn'⟩ | ⟨rfl, hn'⟩ <;> simp only [hm', hn']
  · exact has_of_nonneg (Int.tdiv_nonneg (by omega) (by omega)) rfl rfl
  · exact has_of_nonpos (Int.tdiv_nonpos_of_nonneg_of_nonpos (by omega) (by omega)) rfl rfl
  · exact absurd rfl h
  · have := Int.tdiv_nonneg (a := -m) (b := n) (by omega) (by omega)
    exact has_of_nonpos (by omega) rfl rfl
  · have := Int.tdiv_nonpos_of_nonneg_of_nonpos (a := -m) (b := n) (by omega) (by omega)
    exact has_of_nonneg (by omega) rfl rfl
  · exact absurd rfl h
  · rw [Int.zero_tdiv]
    rfl
  · rw [Int.zero_tdiv]
    rfl
  · exact absurd rfl h

/-- Remainders take the sign of the dividend, or are zero. -/
theorem has_mod (h : n ≠ 0) : (mod (of m) (of n)).has (of (m.tmod n)) = true := by
  have hn : of n = plus ∨ of n = minus := by
    rcases of_cases n with ⟨-, hn'⟩ | ⟨-, hn'⟩ | ⟨hn, -⟩
    · exact .inl hn'
    · exact .inr hn'
    · exact absurd hn h
  have hneg : m.tmod n = -((-m).tmod n) := by rw [Int.neg_tmod, Int.neg_neg]
  rcases of_cases m with ⟨hm, hm'⟩ | ⟨hm, hm'⟩ | ⟨rfl, hm'⟩ <;> rcases hn with hn' | hn' <;>
    simp only [hm', hn']
  · exact has_of_nonneg (Int.tmod_nonneg n (by omega)) rfl rfl
  · exact has_of_nonneg (Int.tmod_nonneg n (by omega)) rfl rfl
  · have := Int.tmod_nonneg n (a := -m) (by omega)
    exact has_of_nonpos (by omega) rfl rfl
  · have := Int.tmod_nonneg n (a := -m) (by omega)
    exact has_of_nonpos (by omega) rfl rfl
  · rw [Int.zero_tmod]
    rfl
  · rw [Int.zero_tmod]
    rfl

/-- Dividing by zero, and going on with what that gives, is `undef` in the tables. -/
theorem apply_undef (op : ArithOp) (a b : Sign)
    (h : a = undef ∨ b = undef ∨ b = zero ∧ (op = .div ∨ op = .mod)) :
    (apply op a b).has undef = true := by
  rcases h with rfl | rfl | ⟨rfl, rfl | rfl⟩
  · cases op <;> rfl
  · cases op <;> cases a <;> rfl
  · cases a <;> rfl
  · cases a <;> rfl

/-- Every operator lists the sign of its result, `undef` included. -/
theorem has_apply_sign (op : ArithOp) (v w : Quantity) :
    (apply op v.sign w.sign).has (v.apply op w).sign = true := by
  cases v with
  | undef => exact apply_undef op _ _ (.inl rfl)
  | int m =>
    cases w with
    | undef => exact apply_undef op _ _ (.inr (.inl rfl))
    | int n =>
      cases op with
      | add => exact has_add m n
      | sub => exact has_sub m n
      | mul =>
        have hmul := mul_of m n
        simp only [apply, Quantity.sign, Quantity.apply, ArithOp.compute?, Option.map_some,
          Option.getD_some, hmul]
        simp
      | div =>
        -- a division by zero gives `undef`, which the table lists
        by_cases hn : n = 0
        · subst hn
          exact apply_undef .div _ _ (.inr (.inr ⟨rfl, .inl rfl⟩))
        · simp only [Quantity.sign, Quantity.apply, ArithOp.compute?, if_neg hn, Option.map_some,
            Option.getD_some]
          exact has_div hn
      | mod =>
        by_cases hn : n = 0
        · subst hn
          exact apply_undef .mod _ _ (.inr (.inr ⟨rfl, .inr rfl⟩))
        · simp only [Quantity.sign, Quantity.apply, ArithOp.compute?, if_neg hn, Option.map_some,
            Option.getD_some]
          exact has_mod hn

/-! ## Relations -/

/-- A comparison that holds can be true. -/
theorem greater_of_lt (h : n < m) : (greater (of m) (of n)).canBeTrue = true := by
  rcases of_cases m with ⟨hm, hm'⟩ | ⟨hm, hm'⟩ | ⟨rfl, hm'⟩ <;>
    rcases of_cases n with ⟨hn, hn'⟩ | ⟨hn, hn'⟩ | ⟨rfl, hn'⟩ <;> simp only [hm', hn']
  · rfl
  · rfl
  · rfl
  · omega
  · rfl
  · omega
  · omega
  · rfl
  · omega

/-- One that fails can be false. -/
theorem greater_of_le (h : m ≤ n) : (greater (of m) (of n)).canBeFalse = true := by
  rcases of_cases m with ⟨hm, hm'⟩ | ⟨hm, hm'⟩ | ⟨rfl, hm'⟩ <;>
    rcases of_cases n with ⟨hn, hn'⟩ | ⟨hn, hn'⟩ | ⟨rfl, hn'⟩ <;> simp only [hm', hn']
  · rfl
  · omega
  · omega
  · rfl
  · rfl
  · rfl
  · rfl
  · omega
  · rfl

theorem equal_self (m : Int) : (equal (of m) (of m)).canBeTrue = true := by
  rcases of_cases m with ⟨-, hm⟩ | ⟨-, hm⟩ | ⟨-, hm⟩ <;> rw [hm] <;> rfl

/-- Different integers can be found unequal. -/
theorem equal_of_ne (h : m ≠ n) : (equal (of m) (of n)).canBeFalse = true := by
  rcases of_cases m with ⟨hm, hm'⟩ | ⟨hm, hm'⟩ | ⟨rfl, hm'⟩ <;>
    rcases of_cases n with ⟨hn, hn'⟩ | ⟨hn, hn'⟩ | ⟨rfl, hn'⟩ <;> simp only [hm', hn']
  · rfl
  · rfl
  · rfl
  · rfl
  · rfl
  · rfl
  · rfl
  · rfl
  · omega

/-- A relation that holds can be true. -/
theorem canBeTrue_of_holds {op : RelOp} (h : op.holds m n = true) :
    (relate op (of m) (of n)).canBeTrue = true := by
  cases op with
  | lt | gt => exact greater_of_lt (by simpa [RelOp.holds] using h)
  | le | ge => exact greater_of_le (by simpa [RelOp.holds] using h)
  | eq =>
    have heq : m = n := by simpa [RelOp.holds] using h
    subst heq
    exact equal_self m
  | ne => exact equal_of_ne (by simpa [RelOp.holds] using h)

end Sign

/-- Narrowing by a relation keeps the signs of integers between which it holds. -/
theorem SignSet.has_narrow_of_holds {op : RelOp} {l r : SignSet}
    (hl : l.has (.of m) = true) (hr : r.has (.of n) = true) (h : op.holds m n = true) :
    (narrow op l r).1.has (.of m) = true ∧ (narrow op l r).2.has (.of n) = true := by
  have hmem : (Sign.of m, Sign.of n) ∈ pairs l r :=
    mem_pairs.mpr ⟨⟨hl, Sign.of_ne_undef m⟩, hr, Sign.of_ne_undef n⟩
  have hrel := Sign.canBeTrue_of_holds h
  exact ⟨has_narrow_left.mpr ⟨_, hmem, hrel⟩, has_narrow_right.mpr ⟨_, hmem, hrel⟩⟩

end MicroFlow
