import MicroFlow.Proofs.Sign.Soundness

/-!
# The tables of signs are exact

A table that listed every sign and every truth value would be right.  These list nothing that does
not come up: what they list is attained, and integers of size at most two attain all of it
(`Sign.exists_apply_sign`, `Sign.exists_holds`).  Hence the tables are exact on sets.
-/

namespace MicroFlow

variable {a b : Sign}

namespace Sign

/-! ## What the tables list is attained -/

/-- Two integers of each sign but zero: the smaller one divided by the larger one gives zero, and
two of opposite sign have sums of every sign. -/
def samples : List Int := [-2, -1, 0, 1, 2]

/-- Every sign in the table of an operator is attained. -/
theorem exists_apply_sign {op : ArithOp} {x : Sign} (h : (apply op a b).has x = true) :
    ∃ v w : Quantity, v.sign = a ∧ w.sign = b ∧ (v.apply op w).sign = x := by
  have htable : ∀ a ∈ all, ∀ b ∈ all, ∀ x ∈ (apply op a b).signs,
      ∃ v ∈ .undef :: samples.map Quantity.int, ∃ w ∈ .undef :: samples.map Quantity.int,
        v.sign = a ∧ w.sign = b ∧ (v.apply op w).sign = x := by
    cases op <;> decide +kernel
  obtain ⟨v, -, w, -, hvw⟩ := htable a a.mem_all b b.mem_all x (SignSet.mem_signs.mpr h)
  exact ⟨v, w, hvw⟩

/-- Where a relation can hold, it holds for some integers. -/
theorem exists_holds {op : RelOp} (h : (relate op a b).canBeTrue = true) :
    ∃ m n : Int, of m = a ∧ of n = b ∧ op.holds m n = true := by
  have htable : ∀ a ∈ all, ∀ b ∈ all, (relate op a b).canBeTrue = true →
      ∃ m ∈ samples, ∃ n ∈ samples, of m = a ∧ of n = b ∧ op.holds m n = true := by
    cases op <;> decide +kernel
  obtain ⟨m, -, n, -, hmn⟩ := htable a a.mem_all b b.mem_all h
  exact ⟨m, n, hmn⟩

theorem relate_negated (op : RelOp) (a b : Sign) :
    relate op.negated a b = (relate op a b).invert := by
  cases op <;> rfl

theorem equal_comm (a b : Sign) : equal a b = equal b a := by
  cases a <;> cases b <;> rfl

/-- Turning a relation round exchanges its operands. -/
theorem relate_flipped (op : RelOp) (a b : Sign) : relate op.flipped a b = relate op b a := by
  cases op with
  | lt | gt | le | ge => rfl
  | eq => exact equal_comm a b
  | ne => exact congrArg Outcome.invert (equal_comm a b)

end Sign

/-! ## Truth values of many comparisons -/

namespace Outcome

/-- A relation on sets can hold when it can for some pair. -/
theorem canBeTrue_unions (os : List Outcome) :
    (os.foldr union never).canBeTrue = os.any (·.canBeTrue) := by
  induction os with
  | nil => rfl
  | cons o os ih =>
    rw [List.foldr_cons, List.any_cons, ← ih]
    rfl

theorem invert_unions (os : List Outcome) :
    (os.foldr union never).invert = (os.map invert).foldr union never := by
  induction os with
  | nil => rfl
  | cons o os ih =>
    rw [List.map_cons, List.foldr_cons, List.foldr_cons, ← ih]
    rfl

end Outcome

namespace SignSet

variable {op : RelOp} {l r : SignSet}

theorem mem_pairs_iff (h : (Sign.relate op a b).canBeTrue = true) :
    (a, b) ∈ pairs l r ↔ l.has a = true ∧ r.has b = true := by
  obtain ⟨m, n, rfl, rfl, -⟩ := Sign.exists_holds h
  simp [mem_pairs, Sign.of_ne_undef]

/-- A relation on sets can hold exactly when it does for some integers. -/
theorem canBeTrue_compare : (compare op l r).canBeTrue = true ↔
    ∃ m n : Int, l.has (.of m) = true ∧ r.has (.of n) = true ∧ op.holds m n = true := by
  rw [compare, Outcome.canBeTrue_unions, List.any_map, List.any_eq_true]
  constructor
  · rintro ⟨⟨a, b⟩, hpair, hrel⟩
    obtain ⟨ha, hb⟩ := (mem_pairs_iff hrel).mp hpair
    obtain ⟨m, n, rfl, rfl, hholds⟩ := Sign.exists_holds hrel
    exact ⟨m, n, ha, hb, hholds⟩
  · rintro ⟨m, n, hm, hn, hholds⟩
    have hrel := Sign.canBeTrue_of_holds hholds
    exact ⟨(.of m, .of n), (mem_pairs_iff hrel).mpr ⟨hm, hn⟩, hrel⟩

theorem compare_negated (op : RelOp) (l r : SignSet) :
    compare op.negated l r = (compare op l r).invert := by
  simp only [compare, Outcome.invert_unions, List.map_map, Sign.relate_negated, Function.comp_def]

/-- And it can fail exactly when it does for some integers. -/
theorem canBeFalse_compare : (compare op l r).canBeFalse = true ↔
    ∃ m n : Int, l.has (.of m) = true ∧ r.has (.of n) = true ∧ op.holds m n = false := by
  have hnegated : (compare op l r).canBeFalse = (compare op.negated l r).canBeTrue := by
    rw [compare_negated]
    rfl
  rw [hnegated, canBeTrue_compare]
  simp only [RelOp.holds_negated, Bool.not_eq_true']

variable {s : Sign}

/-- Narrowing keeps a sign of the left operand exactly when it is that of an integer for which the
relation holds with one from the right operand. -/
theorem has_narrow_left_iff : (narrow op l r).1.has s = true ↔
    ∃ m n : Int, .of m = s ∧ l.has s = true ∧ r.has (.of n) = true ∧ op.holds m n = true := by
  rw [has_narrow_left]
  constructor
  · rintro ⟨b, hpair, hrel⟩
    obtain ⟨hs, hb⟩ := (mem_pairs_iff hrel).mp hpair
    obtain ⟨m, n, rfl, rfl, hholds⟩ := Sign.exists_holds hrel
    exact ⟨m, n, rfl, hs, hb, hholds⟩
  · rintro ⟨m, n, rfl, hm, hn, hholds⟩
    have hrel := Sign.canBeTrue_of_holds hholds
    exact ⟨.of n, (mem_pairs_iff hrel).mpr ⟨hm, hn⟩, hrel⟩

/-- What narrowing keeps on the right, the flipped relation keeps on the left. -/
theorem has_narrow_flipped :
    (narrow op l r).2.has s = true ↔ (narrow op.flipped r l).1.has s = true := by
  rw [has_narrow_right, has_narrow_left]
  refine exists_congr fun a => ?_
  rw [Sign.relate_flipped, mem_pairs, mem_pairs, and_comm (a := r.has s = true ∧ _)]

theorem has_narrow_right_iff : (narrow op l r).2.has s = true ↔
    ∃ m n : Int, .of n = s ∧ r.has s = true ∧ l.has (.of m) = true ∧ op.holds m n = true := by
  rw [has_narrow_flipped, has_narrow_left_iff, exists_comm]
  simp only [RelOp.holds_flipped]

end SignSet

/-! ## Sets -/

/-- Arithmetic on sets of signs is the best abstraction of arithmetic on values, integers of any
size and `undef`: an operator gives exactly the signs of its results on values with signs from the
two sets. -/
theorem arithmetic_is_best_abstraction (op : ArithOp) (l r : SignSet) :
    ∃ t, SignSet.evaluate (.arith op) l r = .ok t ∧ t.spare = 0 ∧
      ∀ s, s ∈ t ↔ ∃ m n : Quantity, m.sign ∈ l ∧ n.sign ∈ r ∧ (m.apply op n).sign = s := by
  refine ⟨SignSet.apply op l r, rfl, SignSet.spare_apply op l r, fun s => ?_⟩
  refine (SignSet.has_apply op l r s).trans ?_
  constructor
  · rintro ⟨a, b, ha, hb, hs⟩
    obtain ⟨m, n, rfl, rfl, hmn⟩ := Sign.exists_apply_sign hs
    exact ⟨m, n, ha, hb, hmn⟩
  · rintro ⟨m, n, hm, hn, rfl⟩
    exact ⟨m.sign, n.sign, hm, hn, Sign.has_apply_sign op m n⟩

/-- Comparing and narrowing sets of signs is exact for integers of any size.  A relation can be true
(or false) exactly when it is for two integers with signs from the sets; narrowing keeps the signs
of the integers for which it holds with some integer on the other side, and never `undef`. -/
theorem comparisons_are_exact (op : RelOp) (l r : SignSet) :
    ∃ o l' r', SignSet.compareBy (.rel op) l r = .ok o ∧
      SignSet.narrowBy (.rel op) l r = .ok (l', r') ∧
      (o.canBeTrue = true ↔
        ∃ m n : Int, Sign.of m ∈ l ∧ Sign.of n ∈ r ∧ op.holds m n = true) ∧
      (o.canBeFalse = true ↔
        ∃ m n : Int, Sign.of m ∈ l ∧ Sign.of n ∈ r ∧ op.holds m n = false) ∧
      (∀ s, s ∈ l' ↔
        ∃ m n : Int, Sign.of m = s ∧ s ∈ l ∧ Sign.of n ∈ r ∧ op.holds m n = true) ∧
      (∀ s, s ∈ r' ↔
        ∃ m n : Int, Sign.of n = s ∧ s ∈ r ∧ Sign.of m ∈ l ∧ op.holds m n = true) ∧
      .undef ∉ l' ∧ .undef ∉ r' ∧ l'.spare = 0 ∧ r'.spare = 0 := by
  refine ⟨_, _, _, rfl, rfl, SignSet.canBeTrue_compare, SignSet.canBeFalse_compare,
    fun s => SignSet.has_narrow_left_iff, fun s => SignSet.has_narrow_right_iff, ?_, ?_,
    SignSet.spare_narrow op l r⟩
  · intro h
    obtain ⟨m, -, hm, -⟩ := SignSet.has_narrow_left_iff.mp h
    exact Sign.of_ne_undef m hm
  · intro h
    obtain ⟨-, n, hn, -⟩ := SignSet.has_narrow_right_iff.mp h
    exact Sign.of_ne_undef n hn

end MicroFlow
