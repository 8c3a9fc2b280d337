import MicroFlow.Proofs.Source.Reading

/-!
# Expressions and conditions of the grammar are read

What the grammar derives, the parser reads.  Each function reads as far as it can, so
the derived part has to end where it is not gone on with: `Ends` says so about the
lexemes behind it.  The grammar is recursive on the left and the parser loops; a
product and a sum are therefore compared at the point where the loop takes over.
-/

namespace MicroFlow.Source

open Grammar

variable {stop : Pos} {a b c : Rest} {fuel : Nat}

/-! ## Where a part ends -/

/-- The lexemes do not start with one that would go on with the part before them. -/
def Ends (goesOn : Lexeme → Bool) : Rest → Prop
  | [] => True
  | t :: _ => goesOn t.lexeme = false

/-- A part that more would go on with ends at fewer places. -/
theorem Ends.mono {p q : Lexeme → Bool} (h : Ends q b) (hpq : ∀ l, q l = false → p l = false) :
    Ends p b := by
  cases b with
  | nil => trivial
  | cons t b => exact hpq _ h

/-- What goes on with a name. -/
def extendsName (l : Lexeme) : Bool := l == .mark .openBracket || l == .mark .dot

/-- What goes on with a product. -/
def extendsProduct (l : Lexeme) : Bool := extendsName l || (productOp? l).isSome

/-- What goes on with a sum. -/
def extendsSum (l : Lexeme) : Bool := extendsProduct l || (sumOp? l).isSome

/-- What goes on with a conjunction. -/
def extendsConjunction (l : Lexeme) : Bool := extendsSum l || l == .mark .amp

/-- What goes on with a disjunction. -/
def extendsDisjunction (l : Lexeme) : Bool := extendsConjunction l || l == .mark .bar

theorem Ends.name (h : Ends extendsProduct b) : Ends extendsName b :=
  h.mono fun _ h => (Bool.or_eq_false_iff.mp h).1

theorem Ends.product (h : Ends extendsSum b) : Ends extendsProduct b :=
  h.mono fun _ h => (Bool.or_eq_false_iff.mp h).1

theorem Ends.sum (h : Ends extendsConjunction b) : Ends extendsSum b :=
  h.mono fun _ h => (Bool.or_eq_false_iff.mp h).1

theorem Ends.conjunction (h : Ends extendsDisjunction b) : Ends extendsConjunction b :=
  h.mono fun _ h => (Bool.or_eq_false_iff.mp h).1

section
variable {t : Located} {op : ArithOp}

/-- A sign of a product does not go on with a name. -/
theorem Grammar.ProductSign.ends_name (h : ProductSign t.lexeme op) :
    Ends extendsName (t :: b) := by
  show extendsName t.lexeme = false
  generalize t.lexeme = l at h
  cases h <;> rfl

/-- A sign of a sum ends a product. -/
theorem Grammar.SumSign.ends_product (h : SumSign t.lexeme op) : Ends extendsProduct (t :: b) := by
  show extendsProduct t.lexeme = false
  generalize t.lexeme = l at h
  cases h <;> rfl

/-- A sign of a relation ends a sum. -/
theorem Grammar.RelSign.ends_sum {op : RelOp} (h : RelSign t.lexeme op) :
    Ends extendsSum (t :: b) := by
  show extendsSum t.lexeme = false
  generalize t.lexeme = l at h
  cases h <;> rfl

end

/-! ## Lexemes and numbers -/

theorem ok_bind {α β : Type} (x : α) (f : α → Reading β) : (.ok x >>= f) = f x := rfl

/-- The expected lexeme is taken off. -/
theorem expect_self (l : Lexeme) (p : Pos) (b : Rest) : expect stop l (⟨l, p⟩ :: b) = .ok b := by
  rw [expect, if_pos rfl]

theorem identifier_word {x : String} (hx : x ∉ keywords) (p : Pos) (b : Rest) :
    identifier stop (⟨.word x, p⟩ :: b) = .ok ((x, p), b) := by
  rw [identifier, if_neg hx]

/-- A number that fits into 64 bits is read, with its sign. -/
theorem digits_small {ds : String} (h : Text.ofDigits ds.toList ≤ 9223372036854775807)
    (negative : Bool) (p : Pos) (b : Rest) :
    digits stop negative (⟨.number ds, p⟩ :: b) =
      .ok (if negative then -(Text.ofDigits ds.toList : Int) else Text.ofDigits ds.toList, b) := by
  have hmax : Text.maxInt = 9223372036854775807 := rfl
  rw [digits]
  exact if_neg (by omega)

/-- Every number of the grammar is read. -/
theorem Grammar.Number.read {n : Int} (h : Number a n b) : number stop a = .ok (n, b) := by
  cases h with
  | plain h => exact (digits_small h false _ _ : digits stop false _ = _)
  | negated h => exact (digits_small h true _ _ : digits stop true _ = _)

/-! ## Expressions -/

variable {e l r : Arith} {p q : Pos} {x : Cond}

/-- The loop over factors stops where a product ends. -/
theorem productTail_ends (hb : Ends extendsProduct b) (h : 1 ≤ fuel) :
    productTail stop fuel e b = .ok (e, b) := by
  cases fuel with
  | zero => omega
  | succ fuel =>
    cases b with
    | nil => rfl
    | cons t b =>
      have hop : productOp? t.lexeme = none := by
        have h := (Bool.or_eq_false_iff.mp hb).2
        simpa using h
      rw [productTail, hop]

/-- The loop over products stops where a sum ends. -/
theorem sumTail_ends (hb : Ends extendsSum b) (h : 1 ≤ fuel) :
    sumTail stop fuel e b = .ok (e, b) := by
  cases fuel with
  | zero => omega
  | succ fuel =>
    cases b with
    | nil => rfl
    | cons t b =>
      have hop : sumOp? t.lexeme = none := by
        have h := (Bool.or_eq_false_iff.mp hb).2
        simpa using h
      rw [sumTail, hop]

/-! One equation for each rule: how a part is read once its own parts are. -/

/-- A name alone, when neither an index nor a field follows. -/
theorem place_scalar {x : String} (hx : x ∉ keywords) (hb : Ends extendsName b) :
    place stop (fuel + 1) (⟨.word x, p⟩ :: b) = .ok (⟨p, .scalar, x, .missing, ""⟩, b) := by
  rw [place, identifier_word hx, ok_bind]
  dsimp only
  split
  next => exact absurd hb (by simp [Ends, extendsName])
  next => exact absurd hb (by simp [Ends, extendsName])
  next => exact absurd hb (by simp [Ends, extendsName])
  next => rfl

/-- A name with an index in brackets. -/
theorem place_element {x : String} {r : Pos} {i : Arith} (hx : x ∉ keywords)
    (hi : sum stop fuel a = .ok (i, ⟨.mark .closeBracket, r⟩ :: b)) :
    place stop (fuel + 1) (⟨.word x, p⟩ :: ⟨.mark .openBracket, q⟩ :: a) =
      .ok (⟨p, .array, x, i, ""⟩, b) := by
  rw [place, identifier_word hx, ok_bind]
  dsimp only
  rw [hi, ok_bind]
  dsimp only
  rw [expect_self]
  rfl

/-- A name with a field. -/
theorem place_field {x f : String} {r : Pos} (hx : x ∉ keywords) :
    place stop (fuel + 1) (⟨.word x, p⟩ :: ⟨.mark .dot, q⟩ :: ⟨.word f, r⟩ :: b) =
      .ok (⟨p, .record, x, .missing, f⟩, b) := by
  rw [place, identifier_word hx]
  rfl

/-- A number is a factor. -/
theorem factor_number {t : Located} {n : Int} (h : Number (t :: a) n b) :
    factor stop (fuel + 1) (t :: a) = .ok (.num t.pos n, b) := by
  have hn : number stop (t :: a) = .ok (n, b) := h.read
  cases h with
  | plain =>
    rw [factor, hn]
    rfl
  | negated =>
    rw [factor, hn]
    rfl

/-- Any factor that starts with a name is an access. -/
theorem factor_access {x : Place} (hx : place stop fuel a = .ok (x, b))
    (ha : Expression .place a x.toArith c) :
    factor stop (fuel + 1) a = .ok (x.toArith, b) := by
  obtain ⟨d, rfl, -⟩ := ha.place_starts
  rw [factor, hx]
  rfl

/-- A sum in parentheses is a factor. -/
theorem factor_parens (he : sum stop fuel a = .ok (e, ⟨.mark .closeParen, q⟩ :: b)) :
    factor stop (fuel + 1) (⟨.mark .openParen, p⟩ :: a) = .ok (e, b) := by
  rw [factor, he, ok_bind]
  dsimp only
  rw [expect_self]
  rfl

/-- Behind its first factor, a product is read by a loop. -/
theorem product_factor (he : factor stop fuel a = .ok (e, b)) :
    product stop (fuel + 1) a = productTail stop fuel e b := by
  rw [product, he]
  rfl

/-- One round of the loop over factors. -/
theorem productTail_times {t : Located} {op : ArithOp}
    (hop : ProductSign t.lexeme op) (hr : factor stop fuel b = .ok (r, c)) :
    productTail stop (fuel + 1) l (t :: b) =
      productTail stop fuel (.binary t.pos (.arith op) l r) c := by
  rw [productTail, productOp?_eq_some.mpr hop]
  dsimp only
  rw [hr]
  rfl

/-- Behind its first product, a sum is read by a loop. -/
theorem sum_product (he : product stop fuel a = .ok (e, b)) :
    sum stop (fuel + 1) a = sumTail stop fuel e b := by
  rw [sum, he]
  rfl

/-- One round of the loop over products. -/
theorem sumTail_plus {t : Located} {op : ArithOp}
    (hop : SumSign t.lexeme op) (hr : product stop fuel b = .ok (r, c)) :
    sumTail stop (fuel + 1) l (t :: b) =
      sumTail stop fuel (.binary t.pos (.arith op) l r) c := by
  rw [sumTail, sumOp?_eq_some.mpr hop]
  dsimp only
  rw [hr]
  rfl

/-- The functions for expressions return the derived tree when what follows does not go
on with it.  A product and a sum are read up to a point where their loop takes over. -/
def ReadsExpression (stop : Pos) (a : Rest) (e : Arith) (b : Rest) : ArithLevel → Prop
  | .place => Ends extendsName b → ∀ fuel, 16 * a.length + 1 ≤ fuel →
    ∃ x : Place, x.toArith = e ∧ place stop fuel a = .ok (x, b)
  | .factor => Ends extendsName b → ∀ fuel, 16 * a.length + 2 ≤ fuel →
    factor stop fuel a = .ok (e, b)
  | .product => Ends extendsName b → ∀ fuel, 16 * a.length + 3 ≤ fuel →
    ∃ left, 16 * b.length + 1 ≤ left ∧ product stop fuel a = productTail stop left e b
  | .sum => Ends extendsProduct b → ∀ fuel, 16 * a.length + 4 ≤ fuel →
    ∃ left, 16 * b.length + 1 ≤ left ∧ sum stop fuel a = sumTail stop left e b

/-- Where a product ends, the loop that has taken over stops. -/
theorem ReadsExpression.product_ok (h : ReadsExpression stop a e b .product)
    (hb : Ends extendsProduct b) (hf : 16 * a.length + 3 ≤ fuel) :
    product stop fuel a = .ok (e, b) := by
  obtain ⟨left, hleft, heq⟩ := h hb.name fuel hf
  rw [heq, productTail_ends hb (by omega)]

/-- Where a sum ends, the loop that has taken over stops. -/
theorem ReadsExpression.sum_ok (h : ReadsExpression stop a e b .sum)
    (hb : Ends extendsSum b) (hf : 16 * a.length + 4 ≤ fuel) :
    sum stop fuel a = .ok (e, b) := by
  obtain ⟨left, hleft, heq⟩ := h hb.product fuel hf
  rw [heq, sumTail_ends hb (by omega)]

/-- What is derived is read, by induction on the derivation, with one equation for each rule. -/
theorem Grammar.Expression.reads {l : ArithLevel} (h : Expression l a e b) :
    ReadsExpression stop a e b l := by
  induction h with
  | scalar hx =>
    intro hb fuel hf
    obtain _ | fuel := fuel
    · omega
    exact ⟨_, rfl, place_scalar hx hb⟩
  | element hx _ ih =>
    intro hb fuel hf
    obtain _ | fuel := fuel
    · omega
    rw [List.length_cons, List.length_cons] at hf
    exact ⟨_, rfl, place_element hx (ih.sum_ok rfl (by omega))⟩
  | field hx =>
    intro hb fuel hf
    obtain _ | fuel := fuel
    · omega
    exact ⟨_, rfl, place_field hx⟩
  | number h =>
    intro hb fuel hf
    obtain _ | fuel := fuel
    · omega
    exact factor_number h
  | access h ih =>
    intro hb fuel hf
    obtain _ | fuel := fuel
    · omega
    obtain ⟨x, rfl, hx⟩ := ih hb fuel (by omega)
    exact factor_access hx h
  | parens _ ih =>
    intro hb fuel hf
    obtain _ | fuel := fuel
    · omega
    rw [List.length_cons] at hf
    exact factor_parens (ih.sum_ok rfl (by omega))
  | one h ih =>
    intro hb fuel hf
    obtain _ | fuel := fuel
    · omega
    have := h.behind.length_lt
    exact ⟨fuel, by omega, product_factor (ih hb fuel (by omega))⟩
  | times _ hop hr ihl ihr =>
    -- the loop stands in front of the sign, with fuel for one more round
    intro hb fuel hf
    obtain ⟨left, hleft, heq⟩ := ihl hop.ends_name fuel hf
    obtain _ | left := left
    · omega
    have := hr.behind.length_lt
    rw [List.length_cons] at hleft
    refine ⟨left, by omega, ?_⟩
    rw [heq, productTail_times hop (ihr hb left (by omega))]
  | single h ih =>
    intro hb fuel hf
    obtain _ | fuel := fuel
    · omega
    have := h.behind.length_lt
    exact ⟨fuel, by omega, sum_product (ih.product_ok hb (by omega))⟩
  | plus _ hop hr ihl ihr =>
    intro hb fuel hf
    obtain ⟨left, hleft, heq⟩ := ihl hop.ends_product fuel hf
    obtain _ | left := left
    · omega
    have := hr.behind.length_lt
    rw [List.length_cons] at hleft
    refine ⟨left, by omega, ?_⟩
    rw [heq, sumTail_plus hop (ihr.product_ok hb (by omega))]

theorem Grammar.Expression.sum_ok {e : Arith} (h : Expression .sum a e b)
    (hb : Ends extendsSum b) (hf : 16 * a.length + 4 ≤ fuel) :
    sum stop fuel a = .ok (e, b) :=
  h.reads.sum_ok hb hf

/-- A place is read as itself, since its tree has all of it. -/
theorem Grammar.Expression.place_ok {x : Place} (h : Expression .place a x.toArith b)
    (hb : Ends extendsName b) (hf : 16 * a.length + 1 ≤ fuel) :
    place stop fuel a = .ok (x, b) := by
  have hreads : ReadsExpression stop a x.toArith b .place := h.reads
  obtain ⟨y, hy, hread⟩ := hreads hb fuel hf
  obtain rfl : y = x := by
    cases x
    cases y
    simpa [Place.toArith] using hy
  exact hread

/-- From one lexeme on, a sum ends in one place only. -/
theorem Grammar.Expression.sum_unique {f : Arith} (h : Expression .sum a e b)
    (h' : Expression .sum a f c) (hb : Ends extendsSum b) (hc : Ends extendsSum c) : b = c := by
  have hsum : sum default (16 * a.length + 4) a = .ok (e, b) := h.sum_ok hb (Nat.le_refl _)
  rw [h'.sum_ok hc (Nat.le_refl _)] at hsum
  cases hsum
  rfl

/-! ## Conditions -/

/-- What stands in front of a closing parenthesis is not a condition and a sum at once. -/
theorem Grammar.Condition.not_sum {l : CondLevel} (h : Condition l a x b) :
    ∀ {e : Arith} {q : Pos} {c : Rest}, ¬ Expression .sum a e (⟨.mark .closeParen, q⟩ :: c) := by
  intro e q c hsum
  induction h generalizing e q c with
  | yes | no | not =>
    obtain ⟨t, d, heq, ht⟩ := hsum.starts
    cases heq
    exact ht (by decide)
  | parens _ ih =>
    -- the sum starts with a sum in parentheses, and so the same holds further in
    obtain ⟨f, r, d, hf⟩ := hsum.inside rfl
    exact ih hf
  | relation hl hop =>
    -- a sum in front of a relation sign does not go on to the parenthesis
    have heq := hl.sum_unique hsum hop.ends_sum rfl
    cases heq
    cases hop
  | plain _ ih => exact ih hsum
  | one _ ih => exact ih hsum
  | and _ _ ih => exact ih hsum
  | single _ ih => exact ih hsum
  | or _ _ ih => exact ih hsum

/-- Two sums with a sign between them are a relation. -/
theorem relation_ok {t : Located} {op : RelOp}
    (hl : sum stop fuel a = .ok (l, t :: b)) (hop : RelSign t.lexeme op)
    (hr : sum stop fuel b = .ok (r, c)) :
    relation stop fuel a = .ok (.rel t.pos (.rel op) l r, c) := by
  rw [relation, hl, ok_bind]
  dsimp only
  rw [relOp?_eq_some.mpr hop]
  dsimp only
  rw [hr]
  rfl

theorem primary_parens (hx : disjunction stop fuel a = .ok (x, ⟨.mark .closeParen, q⟩ :: b)) :
    primary stop (fuel + 1) (⟨.mark .openParen, p⟩ :: a) = .ok (x, b) := by
  rw [primary, hx]

/-- In front of a relation the attempt to read a condition in parentheses fails, so nothing is lost
by making it first. -/
theorem primary_relation {t : Located}
    (hl : Expression .sum a l (t :: b)) (hf : 16 * a.length + 5 ≤ fuel + 1) :
    primary stop (fuel + 1) a = relation stop fuel a := by
  unfold primary
  split
  next =>
    obtain ⟨t, d, heq, ht⟩ := hl.starts
    cases heq
    exact absurd (by decide) ht
  next =>
    obtain ⟨t, d, heq, ht⟩ := hl.starts
    cases heq
    exact absurd (by decide) ht
  next p d =>
    split
    -- the attempt found a condition and its closing parenthesis, so no sum stands there
    next x q e heq =>
      rw [List.length_cons] at hf
      have hx := (condReads stop fuel).disjunction d (by omega)
      rw [heq] at hx
      obtain ⟨f, r, g, hsum⟩ := hl.inside rfl
      exact absurd hsum (Condition.not_sum hx)
    next => rfl
  next => rfl

/-- A negated condition is read behind `not`. -/
theorem negation_not (hx : negation stop fuel a = .ok (x, b)) :
    negation stop (fuel + 1) (⟨.word "not", p⟩ :: a) = .ok (.not p x, b) := by
  rw [negation, hx]
  rfl

/-- Nothing else starts with `not`. -/
theorem negation_primary (h : Condition .primary a x b) :
    negation stop (fuel + 1) a = primary stop fuel a := by
  rw [negation]
  exact fun p d => h.ne_not p d

/-- Behind its first condition, a conjunction is read by a loop. -/
theorem conjunction_negation (hx : negation stop fuel a = .ok (x, b)) :
    conjunction stop (fuel + 1) a = conjunctionTail stop fuel x b := by
  rw [conjunction, hx]
  rfl

/-- One round of the loop over a conjunction. -/
theorem conjunctionTail_and {l r : Cond} (hr : negation stop fuel b = .ok (r, c)) :
    conjunctionTail stop (fuel + 1) l (⟨.mark .amp, p⟩ :: b) =
      conjunctionTail stop fuel (.logic p .and l r) c := by
  rw [conjunctionTail, hr]
  rfl

/-- The loop stops where a conjunction ends. -/
theorem conjunctionTail_ends (hb : Ends extendsConjunction b) (h : 1 ≤ fuel) :
    conjunctionTail stop fuel x b = .ok (x, b) := by
  obtain _ | fuel := fuel
  · omega
  rw [conjunctionTail]
  · simp
  · rintro - p d - rfl
    exact absurd hb (by simp [Ends, extendsConjunction])

/-- Behind its first conjunction, a disjunction is read by a loop. -/
theorem disjunction_conjunction (hx : conjunction stop fuel a = .ok (x, b)) :
    disjunction stop (fuel + 1) a = disjunctionTail stop fuel x b := by
  rw [disjunction, hx]
  rfl

/-- One round of the loop over a disjunction. -/
theorem disjunctionTail_or {l r : Cond} (hr : conjunction stop fuel b = .ok (r, c)) :
    disjunctionTail stop (fuel + 1) l (⟨.mark .bar, p⟩ :: b) =
      disjunctionTail stop fuel (.logic p .or l r) c := by
  rw [disjunctionTail, hr]
  rfl

/-- The loop stops where a disjunction ends. -/
theorem disjunctionTail_ends (hb : Ends extendsDisjunction b) (h : 1 ≤ fuel) :
    disjunctionTail stop fuel x b = .ok (x, b) := by
  obtain _ | fuel := fuel
  · omega
  rw [disjunctionTail]
  · simp
  · rintro - p d - rfl
    exact absurd hb (by simp [Ends, extendsDisjunction])

/-- The functions for conditions return the derived tree when what follows does not go on
with it. -/
def ReadsCondition (stop : Pos) (a : Rest) (x : Cond) (b : Rest) : CondLevel → Prop
  | .primary => Ends extendsSum b → ∀ fuel, 16 * a.length + 5 ≤ fuel →
    primary stop fuel a = .ok (x, b)
  | .negation => Ends extendsSum b → ∀ fuel, 16 * a.length + 6 ≤ fuel →
    negation stop fuel a = .ok (x, b)
  | .conjunction => Ends extendsSum b → ∀ fuel, 16 * a.length + 7 ≤ fuel →
    ∃ left, 16 * b.length + 1 ≤ left ∧ conjunction stop fuel a = conjunctionTail stop left x b
  | .disjunction => Ends extendsConjunction b → ∀ fuel, 16 * a.length + 8 ≤ fuel →
    ∃ left, 16 * b.length + 1 ≤ left ∧ disjunction stop fuel a = disjunctionTail stop left x b

theorem ReadsCondition.conjunction_ok (h : ReadsCondition stop a x b .conjunction)
    (hb : Ends extendsConjunction b) (hf : 16 * a.length + 7 ≤ fuel) :
    conjunction stop fuel a = .ok (x, b) := by
  obtain ⟨left, hleft, heq⟩ := h hb.sum fuel hf
  rw [heq, conjunctionTail_ends hb (by omega)]

theorem ReadsCondition.disjunction_ok (h : ReadsCondition stop a x b .disjunction)
    (hb : Ends extendsDisjunction b) (hf : 16 * a.length + 8 ≤ fuel) :
    disjunction stop fuel a = .ok (x, b) := by
  obtain ⟨left, hleft, heq⟩ := h hb.conjunction fuel hf
  rw [heq, disjunctionTail_ends hb (by omega)]

/-- Derived conditions are read, as expressions are. -/
theorem Grammar.Condition.reads {l : CondLevel} (h : Condition l a x b) :
    ReadsCondition stop a x b l := by
  induction h with
  | yes | no =>
    intro hb fuel hf
    obtain _ | fuel := fuel
    · omega
    rfl
  | parens _ ih =>
    intro hb fuel hf
    obtain _ | fuel := fuel
    · omega
    rw [List.length_cons] at hf
    exact primary_parens (ih.disjunction_ok rfl (by omega))
  | relation hl hop hr =>
    intro hb fuel hf
    obtain _ | fuel := fuel
    · omega
    have := hl.behind.tail.length_lt
    -- the left side is shorter than the relation, so there is fuel for it
    rw [primary_relation hl hf]
    exact relation_ok (hl.sum_ok hop.ends_sum (by omega)) hop (hr.sum_ok hb (by omega))
  | plain h ih =>
    intro hb fuel hf
    obtain _ | fuel := fuel
    · omega
    rw [negation_primary h]
    exact ih hb fuel (by omega)
  | not _ ih =>
    intro hb fuel hf
    obtain _ | fuel := fuel
    · omega
    rw [List.length_cons] at hf
    exact negation_not (ih hb fuel (by omega))
  | one h ih =>
    intro hb fuel hf
    obtain _ | fuel := fuel
    · omega
    have := h.behind.length_lt
    exact ⟨fuel, by omega, conjunction_negation (ih hb fuel (by omega))⟩
  | and _ hr ihl ihr =>
    intro hb fuel hf
    -- the left condition ends at the sign, where the loop goes on
    obtain ⟨left, hleft, heq⟩ := ihl rfl fuel hf
    obtain _ | left := left
    · omega
    have := hr.behind.length_lt
    rw [List.length_cons] at hleft
    refine ⟨left, by omega, ?_⟩
    rw [heq, conjunctionTail_and (ihr hb left (by omega))]
  | single h ih =>
    intro hb fuel hf
    obtain _ | fuel := fuel
    · omega
    have := h.behind.length_lt
    exact ⟨fuel, by omega, disjunction_conjunction (ih.conjunction_ok hb (by omega))⟩
  | or _ hr ihl ihr =>
    intro hb fuel hf
    obtain ⟨left, hleft, heq⟩ := ihl rfl fuel hf
    obtain _ | left := left
    · omega
    have := hr.behind.length_lt
    rw [List.length_cons] at hleft
    refine ⟨left, by omega, ?_⟩
    rw [heq, disjunctionTail_or (ihr.conjunction_ok hb (by omega))]

/-- The condition of a branch or a loop, in its parentheses. -/
theorem Grammar.Guard.ok {x : Cond} (h : Guard a x b) (hf : 16 * a.length + 8 ≤ fuel) :
    condition stop fuel a = .ok (x, b) := by
  cases h with
  | parens h =>
    rw [List.length_cons] at hf
    rw [condition, expect_self, ok_bind, h.reads.disjunction_ok rfl (by omega), ok_bind]
    dsimp only
    rw [expect_self]
    rfl

end MicroFlow.Source
