import MicroFlow.Proofs.Source.Grammar

/-!
# What the parser reads is in the grammar

With enough fuel, every function of the parser returns a part of the grammar, or refuses
the lexemes with an error that names one of them or the end of the text.  Fuel is
enough when it exceeds sixteen times the number of lexemes that are left by the rank
of the function: a call either goes to a lower rank or has taken a lexeme.
-/

namespace MicroFlow.Source

open Grammar

variable (stop : Pos) {α β : Type} {a b c : Rest}

/-- An error about the lexemes `a`: it names one of them or their end, and has a cause
other than a lack of fuel. -/
structure Refused (a : Rest) (e : SyntaxError) : Prop where
  cause : e.cause ≠ .tooDeep
  pos : ∃ b, b <:+ a ∧ e.pos = here stop b

/-- A reading of the lexemes `a` gives what is wanted, or refuses them. -/
def Answers (a : Rest) (P : α → Prop) : Reading α → Prop
  | .ok x => P x
  | .error e => Refused stop a e

variable {stop} {P : α → Prop} {Q : β → Prop} {x : Reading α} {l : Lexeme}

/-- Readings one after the other. -/
theorem Answers.bind {f : α → Reading β}
    (hx : Answers stop a P x) (hf : ∀ y, P y → Answers stop a Q (f y)) :
    Answers stop a Q (x >>= f) := by
  cases x with
  | error e => exact hx
  | ok y => exact hf y hx

/-- A refusal of a later lexeme is a refusal of the whole. -/
theorem Answers.widen {Q : α → Prop} (hx : Answers stop b P x)
    (hb : b <:+ a) (hPQ : ∀ y, P y → Q y) : Answers stop a Q x := by
  cases x with
  | error e =>
    obtain ⟨c, hc, hpos⟩ := hx.pos
    exact ⟨hx.cause, c, hc.trans hb, hpos⟩
  | ok y => exact hPQ y hx

theorem Answers.cons {t : Located} (hx : Answers stop b P x) : Answers stop (t :: b) P x :=
  hx.widen (List.suffix_cons t b) fun _ h => h

/-- Reading a part and going on behind it. -/
theorem Answers.andThen {P : α → Rest → Prop} {x : Reading (α × Rest)}
    {f : α × Rest → Reading β} (hx : Answers stop a (fun r => P r.1 r.2) x)
    (hP : ∀ {y b}, P y b → Behind b a) (hf : ∀ y b, P y b → Answers stop b Q (f (y, b))) :
    Answers stop a Q (x >>= f) :=
  hx.bind fun r hr => (hf r.1 r.2 hr).widen (hP hr).suffix fun _ h => h

/-- Whatever is expected, the next lexeme or the end is refused. -/
theorem answers_expected (what : Expectation) (hb : b <:+ a) (P : α → Prop) :
    Answers stop a P (.error (expected stop what b)) := by
  cases b with
  | nil => exact ⟨by simp [expected], [], hb, rfl⟩
  | cons t c => exact ⟨by simp [expected], t :: c, hb, rfl⟩

/-! ## Lexemes, names and numbers -/

/-- Expecting a lexeme takes it off or refuses what is there. -/
theorem expect_answers (l : Lexeme) (a : Rest) :
    Answers stop a (fun b => ∃ p, a = ⟨l, p⟩ :: b) (expect stop l a) := by
  cases a with
  | nil => exact answers_expected _ List.suffix_rfl _
  | cons t b =>
    rw [expect]
    split
    next h => exact ⟨t.pos, by rw [← h]⟩
    next => exact answers_expected _ List.suffix_rfl _

/-- Reading goes on behind an expected lexeme. -/
theorem Answers.expect_bind {f : Rest → Reading β}
    (hf : ∀ p b, a = ⟨l, p⟩ :: b → Answers stop b Q (f b)) :
    Answers stop a Q (expect stop l a >>= f) := by
  refine (expect_answers l a).bind fun b hb => ?_
  obtain ⟨p, rfl⟩ := hb
  exact (hf p b rfl).cons

/-- A name is a word that is not reserved. -/
theorem identifier_answers (a : Rest) :
    Answers stop a (fun r => a = ⟨.word r.1.1, r.1.2⟩ :: r.2 ∧ r.1.1 ∉ keywords)
      (identifier stop a) := by
  unfold identifier
  split
  next w p b =>
    split
    next => exact answers_expected _ List.suffix_rfl _
    next h => exact ⟨rfl, h⟩
  next => exact answers_expected _ List.suffix_rfl _

/-- The digits of a number that fits into 64 bits. -/
theorem digits_answers (negative : Bool) (a : Rest) :
    Answers stop a (fun r => ∃ ds p, a = ⟨.number ds, p⟩ :: r.2 ∧
      Text.ofDigits ds.toList ≤ 9223372036854775807 ∧
      r.1 = if negative then -(Text.ofDigits ds.toList : Int) else Text.ofDigits ds.toList)
      (digits stop negative a) := by
  fun_cases digits stop negative a with
  | case1 ds p b value h => exact ⟨by simp, _, List.suffix_rfl, rfl⟩
  | case2 ds p b value h =>
    have hmax : Text.maxInt = 9223372036854775807 := rfl
    exact ⟨ds, p, rfl, by omega, rfl⟩
  | case3 => exact answers_expected _ List.suffix_rfl _

/-- A number, with or without a minus in front. -/
theorem number_answers (a : Rest) :
    Answers stop a (fun r => Number a r.1 r.2) (number stop a) := by
  unfold number
  split
  next p ds q b =>
    refine (digits_answers true _).widen (List.suffix_cons _ _) ?_
    rintro ⟨n, c⟩ ⟨ds', q', heq, hsmall, rfl⟩
    obtain ⟨h, rfl⟩ := List.cons.inj heq
    obtain ⟨rfl, rfl⟩ : ds = ds' ∧ q = q' := by simpa using h
    exact .negated hsmall
  next =>
    refine (digits_answers false a).widen List.suffix_rfl ?_
    rintro ⟨n, c⟩ ⟨ds, q, rfl, hsmall, rfl⟩
    exact .plain hsmall

/-- The signs that a sum is read with are those of the grammar. -/
theorem sumOp?_eq_some {op : ArithOp} : sumOp? l = some op ↔ SumSign l op := by
  constructor
  · intro h
    unfold sumOp? at h
    split at h
    · cases h; exact .plus
    · cases h; exact .minus
    · cases h
  · intro h
    cases h <;> rfl

/-- So are the signs of a product. -/
theorem productOp?_eq_some {op : ArithOp} : productOp? l = some op ↔ ProductSign l op := by
  constructor
  · intro h
    unfold productOp? at h
    split at h
    · cases h; exact .star
    · cases h; exact .slash
    · cases h; exact .percent
    · cases h
  · intro h
    cases h <;> rfl

/-- And those of a relation. -/
theorem relOp?_eq_some {op : RelOp} : relOp? l = some op ↔ RelSign l op := by
  constructor
  · intro h
    unfold relOp? at h
    split at h
    · cases h; exact .lt
    · cases h; exact .gt
    · cases h; exact .le
    · cases h; exact .ge
    · cases h; exact .eq
    · cases h; exact .ne
    · cases h
  · intro h
    cases h <;> rfl

/-! ## Expressions -/

/-- What the functions for expressions read with a given amount of fuel. -/
structure ArithReads (stop : Pos) (fuel : Nat) : Prop where
  place : ∀ a : Rest, 16 * a.length + 1 ≤ fuel →
    Answers stop a (fun r => Expression .place a r.1.toArith r.2) (place stop fuel a)
  factor : ∀ a : Rest, 16 * a.length + 2 ≤ fuel →
    Answers stop a (fun r => Expression .factor a r.1 r.2) (factor stop fuel a)
  product : ∀ a : Rest, 16 * a.length + 3 ≤ fuel →
    Answers stop a (fun r => Expression .product a r.1 r.2) (product stop fuel a)
  productTail : ∀ {a b : Rest} {l : Arith}, Expression .product a l b → 16 * b.length + 1 ≤ fuel →
    Answers stop b (fun r => Expression .product a r.1 r.2) (productTail stop fuel l b)
  sum : ∀ a : Rest, 16 * a.length + 4 ≤ fuel →
    Answers stop a (fun r => Expression .sum a r.1 r.2) (sum stop fuel a)
  sumTail : ∀ {a b : Rest} {l : Arith}, Expression .sum a l b → 16 * b.length + 1 ≤ fuel →
    Answers stop b (fun r => Expression .sum a r.1 r.2) (sumTail stop fuel l b)

section
variable {fuel : Nat} (ih : ArithReads stop fuel)
include ih

/-- A name, and then an index, a field or nothing. -/
theorem place_answers (h : 16 * a.length + 1 ≤ fuel + 1) :
    Answers stop a (fun r => Expression .place a r.1.toArith r.2) (place stop (fuel + 1) a) := by
  rw [place]
  refine (identifier_answers a).bind ?_
  rintro ⟨⟨x, p⟩, b⟩ ⟨rfl, hx⟩
  dsimp only
  split
  next q c =>
    have hc : Behind c (⟨.word x, p⟩ :: ⟨.mark .openBracket, q⟩ :: c) := (behind_cons _ _).cons
    refine Answers.cons (Answers.cons ?_)
    have hlt := hc.length_lt
    refine (ih.sum c (by dsimp only at h; omega)).andThen Expression.behind fun i d hi => ?_
    refine Answers.expect_bind fun r e hd => ?_
    subst hd
    exact Expression.element hx hi
  next => exact Expression.field hx
  next => exact answers_expected _ ((List.suffix_cons _ _).trans (List.suffix_cons _ _)) _
  next => exact Expression.scalar hx

/-- A number, a sum in parentheses, or a place. -/
theorem factor_answers (h : 16 * a.length + 2 ≤ fuel + 1) :
    Answers stop a (fun r => Expression .factor a r.1 r.2) (factor stop (fuel + 1) a) := by
  unfold factor
  split
  next ds p b =>
    refine (number_answers _).andThen Number.behind fun n c hn => ?_
    exact Expression.number hn
  next p b =>
    refine (number_answers _).andThen Number.behind fun n c hn => ?_
    exact Expression.number hn
  next p b =>
    refine Answers.cons ?_
    refine (ih.sum b (by rw [List.length_cons] at h; omega)).andThen Expression.behind
      fun e c he => ?_
    refine Answers.expect_bind fun q d hc => ?_
    subst hc
    exact Expression.parens he
  next w p b =>
    refine (ih.place _ (by omega)).andThen (P := fun x c => Expression .place _ x.toArith c)
      Expression.behind fun x c hx => ?_
    exact Expression.access hx
  next => exact answers_expected _ List.suffix_rfl _

theorem product_answers (h : 16 * a.length + 3 ≤ fuel + 1) :
    Answers stop a (fun r => Expression .product a r.1 r.2) (product stop (fuel + 1) a) := by
  rw [product]
  refine (ih.factor a (by omega)).andThen Expression.behind fun l b hl => ?_
  have := hl.behind.length_lt
  exact ih.productTail (.one hl) (by omega)

/-- The loop over factors makes a longer product of the one so far. -/
theorem productTail_answers {l : Arith} (hl : Expression .product a l b)
    (h : 16 * b.length + 1 ≤ fuel + 1) :
    Answers stop b (fun r => Expression .product a r.1 r.2)
      (productTail stop (fuel + 1) l b) := by
  cases b with
  | nil => exact hl
  | cons t b =>
    rw [List.length_cons] at h
    rw [productTail]
    split
    next op hop =>
      refine Answers.cons ?_
      refine (ih.factor b (by omega)).andThen Expression.behind fun r c hr => ?_
      have := hr.behind.length_lt
      exact ih.productTail (.times hl (productOp?_eq_some.mp hop) hr) (by omega)
    next => exact hl

theorem sum_answers (h : 16 * a.length + 4 ≤ fuel + 1) :
    Answers stop a (fun r => Expression .sum a r.1 r.2) (sum stop (fuel + 1) a) := by
  rw [sum]
  refine (ih.product a (by omega)).andThen Expression.behind fun l b hl => ?_
  have := hl.behind.length_lt
  exact ih.sumTail (.single hl) (by omega)

/-- The loop over products makes a longer sum of the one so far. -/
theorem sumTail_answers {l : Arith} (hl : Expression .sum a l b)
    (h : 16 * b.length + 1 ≤ fuel + 1) :
    Answers stop b (fun r => Expression .sum a r.1 r.2) (sumTail stop (fuel + 1) l b) := by
  cases b with
  | nil => exact hl
  | cons t b =>
    rw [List.length_cons] at h
    rw [sumTail]
    split
    next op hop =>
      refine Answers.cons ?_
      refine (ih.product b (by omega)).andThen Expression.behind fun r c hr => ?_
      have := hr.behind.length_lt
      exact ih.sumTail (.plus hl (sumOp?_eq_some.mp hop) hr) (by omega)
    next => exact hl

end

/-- The functions that call each other, by induction on the fuel, all at once. -/
theorem arithReads (stop : Pos) (fuel : Nat) : ArithReads stop fuel := by
  induction fuel with
  | zero =>
    constructor
    case productTail | sumTail =>
      intro a b l _ h
      omega
    all_goals
      intro a h
      omega
  | succ fuel ih =>
    exact ⟨fun _ => place_answers ih, fun _ => factor_answers ih, fun _ => product_answers ih,
      productTail_answers ih, fun _ => sum_answers ih, sumTail_answers ih⟩

/-! ## Conditions -/

/-- A sum, a sign and another sum. -/
theorem relation_answers {fuel : Nat} (h : 16 * a.length + 4 ≤ fuel) :
    Answers stop a (fun r => Condition .primary a r.1 r.2) (relation stop fuel a) := by
  rw [relation]
  refine ((arithReads stop fuel).sum a h).andThen Expression.behind fun l b hl => ?_
  dsimp only
  split
  next => exact answers_expected _ List.suffix_rfl _
  next t c =>
    split
    next => exact answers_expected _ List.suffix_rfl _
    next op hop =>
      have := hl.behind.tail.length_lt
      refine Answers.cons ?_
      refine ((arithReads stop fuel).sum c (by omega)).andThen Expression.behind fun r d hr => ?_
      exact Condition.relation hl (relOp?_eq_some.mp hop) hr

/-- What the functions for conditions read with a given amount of fuel. -/
structure CondReads (stop : Pos) (fuel : Nat) : Prop where
  primary : ∀ a : Rest, 16 * a.length + 5 ≤ fuel →
    Answers stop a (fun r => Condition .primary a r.1 r.2) (primary stop fuel a)
  negation : ∀ a : Rest, 16 * a.length + 6 ≤ fuel →
    Answers stop a (fun r => Condition .negation a r.1 r.2) (negation stop fuel a)
  conjunction : ∀ a : Rest, 16 * a.length + 7 ≤ fuel →
    Answers stop a (fun r => Condition .conjunction a r.1 r.2) (conjunction stop fuel a)
  conjunctionTail : ∀ {a b : Rest} {l : Cond}, Condition .conjunction a l b →
    16 * b.length + 1 ≤ fuel →
    Answers stop b (fun r => Condition .conjunction a r.1 r.2) (conjunctionTail stop fuel l b)
  disjunction : ∀ a : Rest, 16 * a.length + 8 ≤ fuel →
    Answers stop a (fun r => Condition .disjunction a r.1 r.2) (disjunction stop fuel a)
  disjunctionTail : ∀ {a b : Rest} {l : Cond}, Condition .disjunction a l b →
    16 * b.length + 1 ≤ fuel →
    Answers stop b (fun r => Condition .disjunction a r.1 r.2) (disjunctionTail stop fuel l b)

section
variable {fuel : Nat} (ih : CondReads stop fuel)
include ih

/-- A truth value, a condition in parentheses, or a relation if that attempt fails. -/
theorem primary_answers (h : 16 * a.length + 5 ≤ fuel + 1) :
    Answers stop a (fun r => Condition .primary a r.1 r.2) (primary stop (fuel + 1) a) := by
  unfold primary
  split
  next => exact Condition.yes
  next => exact Condition.no
  next p b =>
    rw [List.length_cons] at h
    -- when no condition ends at a closing parenthesis, the relation starts at the opening one
    have hinner := ih.disjunction b (by omega)
    split
    next x q c heq =>
      rw [heq] at hinner
      exact Condition.parens hinner
    next => exact relation_answers (by rw [List.length_cons]; omega)
  next => exact relation_answers (by omega)

/-- A negated or a plain condition. -/
theorem negation_answers (h : 16 * a.length + 6 ≤ fuel + 1) :
    Answers stop a (fun r => Condition .negation a r.1 r.2) (negation stop (fuel + 1) a) := by
  unfold negation
  split
  next => omega
  next fuel' p b hfuel =>
    cases hfuel
    rw [List.length_cons] at h
    refine Answers.cons ?_
    refine (ih.negation b (by omega)).andThen Condition.behind fun x c hx => ?_
    exact Condition.not hx
  next b fuel' hfuel hne =>
    cases hfuel
    refine (ih.primary _ (by omega)).widen List.suffix_rfl fun _ hx => ?_
    exact Condition.plain hx

theorem conjunction_answers (h : 16 * a.length + 7 ≤ fuel + 1) :
    Answers stop a (fun r => Condition .conjunction a r.1 r.2)
      (conjunction stop (fuel + 1) a) := by
  rw [conjunction]
  refine (ih.negation a (by omega)).andThen Condition.behind fun l b hl => ?_
  have := hl.behind.length_lt
  exact ih.conjunctionTail (.one hl) (by omega)

/-- The loop over `&` makes a longer conjunction of the one so far. -/
theorem conjunctionTail_answers {l : Cond} (hl : Condition .conjunction a l b)
    (h : 16 * b.length + 1 ≤ fuel + 1) :
    Answers stop b (fun r => Condition .conjunction a r.1 r.2)
      (conjunctionTail stop (fuel + 1) l b) := by
  unfold conjunctionTail
  split
  next => omega
  next fuel' p c hfuel =>
    cases hfuel
    rw [List.length_cons] at h
    refine Answers.cons ?_
    refine (ih.negation c (by omega)).andThen Condition.behind fun r d hr => ?_
    have := hr.behind.length_lt
    exact ih.conjunctionTail (.and hl hr) (by omega)
  next => exact hl

theorem disjunction_answers (h : 16 * a.length + 8 ≤ fuel + 1) :
    Answers stop a (fun r => Condition .disjunction a r.1 r.2)
      (disjunction stop (fuel + 1) a) := by
  rw [disjunction]
  refine (ih.conjunction a (by omega)).andThen Condition.behind fun l b hl => ?_
  have := hl.behind.length_lt
  exact ih.disjunctionTail (.single hl) (by omega)

/-- The loop over `|` makes a longer disjunction of the one so far. -/
theorem disjunctionTail_answers {l : Cond} (hl : Condition .disjunction a l b)
    (h : 16 * b.length + 1 ≤ fuel + 1) :
    Answers stop b (fun r => Condition .disjunction a r.1 r.2)
      (disjunctionTail stop (fuel + 1) l b) := by
  unfold disjunctionTail
  split
  next => omega
  next fuel' p c hfuel =>
    cases hfuel
    rw [List.length_cons] at h
    refine Answers.cons ?_
    refine (ih.conjunction c (by omega)).andThen Condition.behind fun r d hr => ?_
    have := hr.behind.length_lt
    exact ih.disjunctionTail (.or hl hr) (by omega)
  next => exact hl

end

/-- The functions for conditions, by induction on the fuel, all at once. -/
theorem condReads (stop : Pos) (fuel : Nat) : CondReads stop fuel := by
  induction fuel with
  | zero =>
    constructor
    case conjunctionTail | disjunctionTail =>
      intro a b l _ h
      omega
    all_goals
      intro a h
      omega
  | succ fuel ih =>
    exact ⟨fun _ => primary_answers ih, fun _ => negation_answers ih,
      fun _ => conjunction_answers ih, conjunctionTail_answers ih,
      fun _ => disjunction_answers ih, disjunctionTail_answers ih⟩

/-- A condition in the parentheses of a branch or a loop. -/
theorem condition_answers {fuel : Nat} (h : 16 * a.length + 8 ≤ fuel) :
    Answers stop a (fun r => Guard a r.1 r.2) (condition stop fuel a) := by
  rw [condition]
  refine Answers.expect_bind fun p b ha => ?_
  subst ha
  rw [List.length_cons] at h
  refine ((condReads stop fuel).disjunction b (by omega)).andThen Condition.behind
    fun x c hx => ?_
  refine Answers.expect_bind fun q d hc => ?_
  subst hc
  exact Guard.parens hx

/-! ## Statements -/

/-- What the functions for statements read with a given amount of fuel. -/
structure StmtReads (stop : Pos) (fuel : Nat) : Prop where
  statement : ∀ a : Rest, 16 * a.length + 9 ≤ fuel →
    Answers stop a (fun r => Statement a r.1 r.2) (statement stop fuel a)
  statements : ∀ a : Rest, 16 * a.length + 10 ≤ fuel →
    Answers stop a (fun r => ∃ p, Statements a r.1 (⟨.mark .closeBrace, p⟩ :: r.2))
      (statements stop fuel a)
  block : ∀ a : Rest, 16 * a.length + 11 ≤ fuel →
    Answers stop a (fun r => Grammar.Block a r.1 r.2) (block stop fuel a)

section
variable {fuel : Nat} (ih : StmtReads stop fuel)
include ih

/-- Statements in braces. -/
theorem block_answers (h : 16 * a.length + 11 ≤ fuel + 1) :
    Answers stop a (fun r => Grammar.Block a r.1 r.2) (block stop (fuel + 1) a) := by
  rw [block]
  refine Answers.expect_bind fun p b ha => ?_
  subst ha
  rw [List.length_cons] at h
  refine (ih.statements b (by omega)).widen List.suffix_rfl ?_
  rintro ⟨body, c⟩ ⟨q, hbody⟩
  exact Block.braces hbody

/-- Statements up to the closing brace. -/
theorem statements_answers (h : 16 * a.length + 10 ≤ fuel + 1) :
    Answers stop a (fun r => ∃ p, Statements a r.1 (⟨.mark .closeBrace, p⟩ :: r.2))
      (statements stop (fuel + 1) a) := by
  unfold statements
  split
  next => omega
  next => exact ⟨by simp, [], List.suffix_rfl, rfl⟩
  next p b hfuel => exact ⟨p, .nil⟩
  next fuel' t b hne hfuel =>
    cases hfuel
    refine (ih.statement (t :: b) (by omega)).andThen Statement.behind fun s c hs => ?_
    have := hs.behind.length_lt
    refine (ih.statements c (by omega)).bind ?_
    rintro ⟨body, d⟩ ⟨q, hbody⟩
    exact ⟨q, .cons hs hbody⟩

/-- A statement by its first word; any other word starts an assignment. -/
theorem statement_answers (h : 16 * a.length + 9 ≤ fuel + 1) :
    Answers stop a (fun r => Statement a r.1 r.2) (statement stop (fuel + 1) a) := by
  unfold statement
  split
  next p b =>
    rw [List.length_cons] at h
    refine Answers.cons ?_
    refine ((arithReads stop fuel).place b (by omega)).andThen
      (P := fun x c => Expression .place b x.toArith c) Expression.behind fun x c hx => ?_
    refine Answers.expect_bind fun q d hc => ?_
    subst hc
    exact Statement.read hx
  next p b =>
    rw [List.length_cons] at h
    refine Answers.cons ?_
    refine ((arithReads stop fuel).sum b (by omega)).andThen Expression.behind fun e c he => ?_
    refine Answers.expect_bind fun q d hc => ?_
    subst hc
    exact Statement.write he
  next p b =>
    rw [List.length_cons] at h
    -- a condition and a block, and then perhaps another block
    refine Answers.cons ?_
    refine (condition_answers (by omega)).andThen Guard.behind fun x c hx => ?_
    have := hx.behind.length_lt
    refine (ih.block c (by omega)).andThen Block.behind fun body d hbody => ?_
    have := hbody.behind.length_lt
    dsimp only
    split
    next q e =>
      rw [List.length_cons] at this
      refine Answers.cons ?_
      refine (ih.block e (by omega)).andThen Block.behind fun other f hother => ?_
      exact Statement.ifElse hx hbody hother
    next => exact Statement.ifThen hx hbody
  next p b =>
    rw [List.length_cons] at h
    refine Answers.cons ?_
    refine (condition_answers (by omega)).andThen Guard.behind fun x c hx => ?_
    have := hx.behind.length_lt
    refine (ih.block c (by omega)).andThen Block.behind fun body d hbody => ?_
    exact Statement.loop hx hbody
  -- no word of its own, so a reserved word is refused
  next w p b _ _ _ _ =>
    split
    next => exact answers_expected _ List.suffix_rfl _
    next =>
      refine ((arithReads stop fuel).place _ (by omega)).andThen
        (P := fun x c => Expression .place _ x.toArith c) Expression.behind fun x c hx => ?_
      have := hx.behind.length_lt
      refine Answers.expect_bind fun q d hc => ?_
      subst hc
      rw [List.length_cons] at this
      refine ((arithReads stop fuel).sum d (by omega)).andThen Expression.behind fun e f he => ?_
      refine Answers.expect_bind fun r g hf => ?_
      subst hf
      exact Statement.assign hx he
  next => exact answers_expected _ List.suffix_rfl _

end

/-- The functions for statements, by induction on the fuel, all at once. -/
theorem stmtReads (stop : Pos) (fuel : Nat) : StmtReads stop fuel := by
  induction fuel with
  | zero =>
    constructor
    all_goals
      intro a h
      omega
  | succ fuel ih =>
    exact ⟨fun _ => statement_answers ih, fun _ => statements_answers ih,
      fun _ => block_answers ih⟩

/-! ## Programs -/

/-- The two fields of a record, in their order. -/
theorem recordFields_answers (a : Rest) :
    Answers stop a (fun b => ∃ i f s j g c, a = ⟨.word "int", i⟩ :: ⟨.word "fst", f⟩ ::
      ⟨.mark .semicolon, s⟩ :: ⟨.word "int", j⟩ :: ⟨.word "snd", g⟩ ::
      ⟨.mark .closeBrace, c⟩ :: b) (recordFields stop a) := by
  rw [recordFields]
  refine Answers.expect_bind fun i b h₁ => ?_
  refine Answers.expect_bind fun f c h₂ => ?_
  refine Answers.expect_bind fun s d h₃ => ?_
  refine Answers.expect_bind fun j e h₄ => ?_
  refine Answers.expect_bind fun g k h₅ => ?_
  subst h₁ h₂ h₃ h₄ h₅
  refine (expect_answers _ k).widen List.suffix_rfl ?_
  rintro l ⟨c, rfl⟩
  exact ⟨i, f, s, j, g, c, rfl⟩

/-- The name behind a type, and a semicolon. -/
theorem declared_answers (pos : Pos) (shape : Shape) (length : Int) (a : Rest) :
    Answers stop a (fun r => ∃ x q s, x ∉ keywords ∧ r.1 = .declare pos shape x length ∧
      a = ⟨.word x, q⟩ :: ⟨.mark .semicolon, s⟩ :: r.2) (declared stop pos shape length a) := by
  rw [declared]
  refine (identifier_answers a).bind ?_
  rintro ⟨⟨x, q⟩, b⟩ ⟨rfl, hx⟩
  refine Answers.cons ?_
  refine Answers.expect_bind fun s c hb => ?_
  subst hb
  exact ⟨x, q, s, hx, rfl, rfl⟩

/-- An item of a program. -/
def IsItem (a : Rest) (i : Item) (b : Rest) : Prop :=
  Grammar.Declaration a i b ∨ ∃ s, i = .stmt s ∧ Statement a s b

theorem IsItem.behind {i : Item} (h : IsItem a i b) : Behind b a := by
  obtain h | ⟨s, -, h⟩ := h
  · exact h.behind
  · exact h.behind

/-- A record, an array, a scalar or a statement. -/
theorem item_answers {fuel : Nat} (h : 16 * a.length + 9 ≤ fuel) :
    Answers stop a (fun r => IsItem a r.1 r.2) (item stop fuel a) := by
  unfold item
  split
  next p b =>
    refine Answers.cons ?_
    refine (recordFields_answers b).bind ?_
    rintro c ⟨i, f, s, j, g, k, rfl⟩
    refine (declared_answers p .record 0 c).widen ⟨[_, _, _, _, _, _], rfl⟩ ?_
    rintro ⟨_, d⟩ ⟨x, q, r, hx, rfl, rfl⟩
    exact .inl (.record hx)
  next p q b =>
    refine Answers.cons (Answers.cons ?_)
    refine (number_answers b).andThen Number.behind fun n c hn => ?_
    refine Answers.expect_bind fun r d hc => ?_
    subst hc
    refine (declared_answers p .array n d).widen List.suffix_rfl ?_
    rintro ⟨_, e⟩ ⟨x, s, t, hx, rfl, rfl⟩
    exact .inl (.array hx hn)
  next p b _ =>
    refine (declared_answers p .scalar 0 b).widen (List.suffix_cons _ _) ?_
    rintro ⟨_, c⟩ ⟨x, q, r, hx, rfl, rfl⟩
    exact .inl (.scalar hx)
  next =>
    refine ((stmtReads stop fuel).statement a h).andThen Statement.behind fun s b hs => ?_
    exact .inr ⟨s, rfl, hs⟩

/-- Items up to the end of the text. -/
theorem program_answers {fuel : Nat} (h : 16 * (a.length + 1) ≤ fuel) :
    Answers stop a (fun p => Derives a p) (program stop fuel a) := by
  induction fuel generalizing a with
  | zero => omega
  | succ fuel ih =>
    unfold program
    split
    next => exact Derives.nil
    next => omega
    next fuel' hfuel hne =>
      cases hfuel
      refine (item_answers (by omega)).andThen IsItem.behind fun i b hi => ?_
      have := hi.behind.length_lt
      refine (ih (by omega)).bind fun p hp => ?_
      obtain hi | ⟨s, rfl, hs⟩ := hi
      · exact Derives.declaration hi hp
      · exact Derives.statement hs hp

end MicroFlow.Source
