import MicroFlow.Proofs.Expr.RoundTrip

/-!
# The grammar of written expressions

`Token.Phrase` is the grammar that the binding strengths stand for: one level for `|`, for `&`, for
`not`, for relations, for sums and for products, each built from phrases of the tighter levels, and
operands and parentheses at the last one.  Binary operators associate to the left, except that a
relation takes two sums.  Types are part of the grammar.

The reader knows nothing of levels: it looks for the weakest operator, and checks types afterwards.
`Phrase` and the splits that the reader makes are the same relation (`phrase_iff_writes`), because a
phrase of a level shows no operator that is weaker than the level.

`Token.plan` is one layer of the reader, with its calls to itself left open.  From
what a plan can be (`sound_plan`) follow that the reader calls itself on shorter sequences only, and
that what it complains of stands in the sequence.
-/

namespace MicroFlow

namespace Token

open MicroFlow.Expr

/-! ## The grammar -/

/-- Written expressions by how tightly they hold together. -/
inductive Level where
  | disjunction | conjunction | negation | relation | sum | product | primary
deriving DecidableEq, Repr

/-- The next tighter level, up to the last one. -/
def Level.next : Level → Level
  | disjunction => conjunction
  | conjunction => negation
  | negation => relation
  | relation => sum
  | sum => product
  | product | primary => primary

/-- The sequence is a phrase of the level, of the type, and stands for the tree. -/
inductive Phrase : Level → Ty → List Token → Expr → Prop
  | literal (n : Int) : Phrase .primary .int [.literal n] (Expr.literal n)
  | truth (b : Bool) : Phrase .primary .bool [.truth b] (Expr.truth b)
  | access {a : Access} (indexed : a.kind = .array → a.index ≠ missing) :
      Phrase .primary .int [.access a] a.toExpr
  | parens {τ : Ty} {ts : List Token} {e : Expr} (inner : Phrase .disjunction τ ts e) :
      Phrase .primary τ (parens ts) e
  | product {op : ArithOp} {ts us : List Token} {l r : Expr} (sign : op ∈ [.mul, .div, .mod])
      (left : Phrase .product .int ts l) (right : Phrase .primary .int us r) :
      Phrase .product .int (ts ++ symbol (.operator (.arith op)) :: us) (node (.arith op) l r)
  | sum {op : ArithOp} {ts us : List Token} {l r : Expr} (sign : op ∈ [.add, .sub])
      (left : Phrase .sum .int ts l) (right : Phrase .product .int us r) :
      Phrase .sum .int (ts ++ symbol (.operator (.arith op)) :: us) (node (.arith op) l r)
  | relation {op : RelOp} {ts us : List Token} {l r : Expr} (left : Phrase .sum .int ts l)
      (right : Phrase .sum .int us r) :
      Phrase .relation .bool (ts ++ symbol (.operator (.rel op)) :: us) (node (.rel op) l r)
  | not {ts : List Token} {e : Expr} (operand : Phrase .negation .bool ts e) :
      Phrase .negation .bool (symbol (.operator .not) :: ts) e.negation
  | and {ts us : List Token} {l r : Expr} (left : Phrase .conjunction .bool ts l)
      (right : Phrase .negation .bool us r) :
      Phrase .conjunction .bool (ts ++ symbol (.operator .and) :: us) (node .and l r)
  | or {ts us : List Token} {l r : Expr} (left : Phrase .disjunction .bool ts l)
      (right : Phrase .conjunction .bool us r) :
      Phrase .disjunction .bool (ts ++ symbol (.operator .or) :: us) (node .or l r)
  | tighter {level : Level} {τ : Ty} {ts : List Token} {e : Expr}
      (only : Phrase level.next τ ts e) : Phrase level τ ts e

variable {level : Level} {τ : Ty} {ts us : List Token} {e l r : Expr} {op : Operator} {fuel : Nat}

/-- The binding strength that the operators of a phrase have at least. -/
def Level.strength : Level → Nat
  | disjunction => 1
  | conjunction => 2
  | negation => 3
  | relation => 4
  | sum => 5
  | product => 6
  | primary => 7

theorem Level.strength_le_next (level : Level) : level.strength ≤ level.next.strength := by
  cases level <;> decide

theorem Level.strength_le_seven (level : Level) : level.strength ≤ 7 := by
  cases level <;> decide

/-- Levels have no strength between them. -/
theorem Level.eq_or_next_le {level level' : Level} (h : level.strength ≤ level'.strength) :
    level = level' ∨ level.strength < level.next.strength ∧
    level.next.strength ≤ level'.strength := by
  revert h
  cases level <;> cases level' <;> decide

/-- A phrase stands for a tree of its type. -/
theorem Phrase.typed (h : Phrase level τ ts e) : Typed e τ := by
  induction h with
  | literal n => exact .literal n
  | truth b => exact .truth b
  | @access a indexed =>
    cases a with
    | scalar x => exact .scalar x
    | element x i layout => exact .element x layout (indexed rfl)
    | field x s => exact .field x s
    | odd x => exact .odd x
  | parens _ ih => exact ih
  | @product op _ _ _ _ _ _ _ ihl ihr => exact .arith op ihl ihr
  | @sum op _ _ _ _ _ _ _ ihl ihr => exact .arith op ihl ihr
  | @relation op _ _ _ _ _ _ ihl ihr => exact .rel op ihl ihr
  | not _ ih => exact .negation ih
  | and _ _ ihl ihr => exact .and ihl ihr
  | or _ _ ihl ihr => exact .or ihl ihr
  | tighter _ ih => exact ih

/-! ## Phrases are what the reader splits -/

/-- The sequence stands for the tree, and shows no operator weaker than the level. -/
structure Shows (level : Level) (ts : List Token) (e : Expr) : Prop where
  writes : Writes ts e
  strength_le : ∀ o ∈ outer 0 ts, level.strength ≤ o.precedence

theorem shows_operand {t : Token} (operand : t.isOperand = true) (level : Level) :
    Shows level [t] (leaf t) := by
  refine ⟨.leaf operand, ?_⟩
  simp [outer_plain (plain_of_isOperand operand)]

theorem Shows.parens (h : Shows level ts e) (level' : Level) : Shows level' (parens ts) e := by
  refine ⟨.parens h.writes, ?_⟩
  simp [outer_parens h.writes.balanced]

/-- A binary operator of a level between phrases, the right one of a tighter level. -/
theorem Shows.binary {left right : Level} (hl : Shows left ts l) (hr : Shows right us r)
    (notUnary : op.isUnary = false) (valid : op.isValid = true)
    (hleft : op.precedence ≤ left.strength)
    (hright : op.precedence < right.strength) (hlevel : level.strength ≤ op.precedence) :
    Shows level (ts ++ symbol (.operator op) :: us) (node op l r) := by
  have hsplit : SplitsAt ts op us := by
    refine ⟨hl.writes.balanced, hr.writes.balanced, ?_, fun o ho => ?_, fun o ho hweaker => ?_⟩
    · intro o ho
      rcases List.mem_append.mp ho with ho | ho
      · exact hl.writes.valid o ho
      · rcases List.mem_cons.mp ho with rfl | ho
        · exact valid
        · exact hr.writes.valid o ho
    · exact Operator.weaker_of_le (Nat.le_trans hleft (hl.strength_le o ho)) notUnary
    · have hlt := Nat.lt_of_lt_of_le hright (hr.strength_le o ho)
      exact absurd hweaker.le (Nat.not_le.mpr hlt)
  refine ⟨.binary hsplit notUnary hl.writes hr.writes, fun o ho => ?_⟩
  rw [hsplit.outer_eq] at ho
  rcases List.mem_append.mp ho with ho | ho
  · exact Nat.le_trans hlevel (hsplit.weaker o ho).le
  · rcases List.mem_cons.mp ho with rfl | ho
    · exact hlevel
    · have hle := hr.strength_le o ho
      omega

/-- Behind `not` stands what binds more tightly. -/
theorem Shows.not (h : Shows .negation ts e) :
    Shows .negation (symbol (.operator .not) :: ts) e.negation := by
  have hsplit : SplitsAt [] .not ts := by
    refine ⟨rfl, h.writes.balanced, ?_, by simp, fun o ho hweaker => ?_⟩
    · simpa using ⟨rfl, h.writes.valid⟩
    · -- only the prefixed operator is as strong as it, and that is not weaker than itself
      rcases hweaker with hlt | ⟨heq, hbinary⟩
      · exact absurd (h.strength_le o ho) (Nat.not_le.mpr hlt)
      · cases Operator.eq_not_of_precedence heq
        cases hbinary
  refine ⟨.negation hsplit h.writes, fun o ho => ?_⟩
  rw [outer_operator_zero] at ho
  rcases List.mem_cons.mp ho with rfl | ho
  · exact Nat.le_refl _
  · exact h.strength_le o ho

/-- A phrase stands for its tree, and its operators are not weaker than its level. -/
theorem Phrase.shows (h : Phrase level τ ts e) : Shows level ts e := by
  induction h with
  | literal n => exact shows_operand (t := .literal n) rfl _
  | truth b => exact shows_operand (t := .truth b) rfl _
  | @access a _ => exact shows_operand (t := .access a) rfl _
  | parens _ ih => exact ih.parens _
  | product sign _ _ ihl ihr =>
    simp only [List.mem_cons, List.not_mem_nil, or_false] at sign
    rcases sign with rfl | rfl | rfl
    all_goals exact ihl.binary ihr rfl rfl (by decide) (by decide) (by decide)
  | sum sign _ _ ihl ihr =>
    simp only [List.mem_cons, List.not_mem_nil, or_false] at sign
    rcases sign with rfl | rfl
    all_goals exact ihl.binary ihr rfl rfl (by decide) (by decide) (by decide)
  | @relation op _ _ _ _ _ _ ihl ihr =>
    exact ihl.binary ihr rfl rfl (by cases op <;> decide) (by cases op <;> decide)
      (by cases op <;> decide)
  | not _ ih => exact ih.not
  | and _ _ ihl ihr
  | or _ _ ihl ihr => exact ihl.binary ihr rfl rfl (by decide) (by decide) (by decide)
  | @tighter level _ _ _ _ ih =>
    exact ⟨ih.writes, fun o ho => Nat.le_trans level.strength_le_next (ih.strength_le o ho)⟩

/-- A phrase is one of every weaker level. -/
theorem Phrase.weaken {level' : Level} (h : Phrase level' τ ts e)
    (hle : level.strength ≤ level'.strength) : Phrase level τ ts e := by
  -- by the number of levels in between
  induction hn : level'.strength - level.strength using Nat.strongRecOn generalizing level with
  | ind n ih =>
    rcases Level.eq_or_next_le hle with rfl | ⟨hlt, hnext⟩
    · exact h
    · exact .tighter (ih _ (by omega) hnext rfl)

/-- What has a number for its value is no relation. -/
theorem Phrase.sum_of_int (h : Phrase .relation .int ts e) : Phrase .sum .int ts e := by
  cases h with
  | tighter only => exact only

/-- An operand alone is a phrase of its type. -/
theorem phrase_operand {t : Token} (operand : t.isOperand = true) (h : Typed (leaf t) τ) :
    Phrase .primary τ [t] (leaf t) := by
  cases t with
  | symbol s => cases operand
  | literal n =>
    cases h
    exact .literal n
  | truth b =>
    cases h
    exact .truth b
  | access a =>
    cases a with
    | scalar x =>
      cases h
      exact .access (a := .scalar x) fun harray => by cases harray
    | element x i layout =>
      cases h with
      | element _ _ index => exact .access (a := .element x i layout) fun _ => index
    | field x s =>
      cases h
      exact .access (a := .field x s) fun harray => by cases harray
    | odd x =>
      cases h
      exact .access (a := .odd x) fun harray => by cases harray

/-- A sequence that stands for a well-typed tree is a phrase of each level that is not above the
operators in sight. -/
theorem Writes.phrase (h : Writes ts e) (htyped : Typed e τ)
    (hlevel : ∀ o ∈ outer 0 ts, level.strength ≤ o.precedence) : Phrase level τ ts e := by
  induction h generalizing level τ with
  | leaf operand => exact (phrase_operand operand htyped).weaken level.strength_le_seven
  | parens h ih =>
    have hinner : Phrase .disjunction τ _ _ :=
      ih htyped fun o ho => of_decide_eq_true (h.valid o ho)
    exact (Phrase.parens hinner).weaken level.strength_le_seven
  | negation split _ ih =>
    cases htyped with
    | negation hbool =>
      have hoperand : Phrase .negation .bool _ _ := ih hbool fun o ho =>
        Nat.le_of_not_lt fun hlt => split.not_weaker o ho (.inl hlt)
      exact (Phrase.not hoperand).weaken (hlevel .not (by simp))
  | @binary before after op l r split notUnary _ _ ihl ihr =>
    -- all operators on the left are as strong as the one at the split, and on the right all are
    -- stronger
    have hop : level.strength ≤ op.precedence := hlevel op (by simp [split.outer_eq])
    have hbefore : ∀ o ∈ outer 0 before, op.precedence ≤ o.precedence :=
      fun o ho => (split.weaker o ho).le
    have hafter : ∀ o ∈ outer 0 after, op.precedence < o.precedence :=
      fun o ho => Operator.lt_of_not_weaker notUnary (split.not_weaker o ho)
    cases htyped with
    | arith op hl hr =>
      cases op with
      | add | sub =>
        exact (Phrase.sum (by simp) (ihl hl hbefore) (ihr hr hafter)).weaken hop
      | mul | div | mod =>
        exact (Phrase.product (by simp) (ihl hl hbefore) (ihr hr hafter)).weaken hop
    | rel op hl hr =>
      have hleft : Phrase .relation .int before l := ihl hl hbefore
      exact (Phrase.relation hleft.sum_of_int (ihr hr hafter)).weaken hop
    | and hl hr => exact (Phrase.and (ihl hl hbefore) (ihr hr hafter)).weaken hop
    | or hl hr => exact (Phrase.or (ihl hl hbefore) (ihr hr hafter)).weaken hop
    | negation => cases notUnary

/-- The grammar derives the sequences that stand for a tree with a type. -/
theorem phrase_iff_writes : Phrase .disjunction τ ts e ↔ Writes ts e ∧ Typed e τ := by
  constructor
  · intro h
    exact ⟨h.shows.writes, h.typed⟩
  · rintro ⟨hwrites, htyped⟩
    exact hwrites.phrase htyped fun o ho => of_decide_eq_true (hwrites.valid o ho)

/-! ## The recursion of the reader -/

variable {err : MalformedExpr}

namespace Plan

/-- The sequences that have to be read. -/
def calls : Plan → List (List Token)
  | refuse _ | accept _ => []
  | negate operand => [operand]
  | combine _ left right => [left, right]

/-- What is planned depends on the reading of the parts alone. -/
theorem carryOut_congr {again again' : List Token → Except MalformedExpr Expr} {plan : Plan}
    (h : ∀ us ∈ plan.calls, again us = again' us) : plan.carryOut again = plan.carryOut again' := by
  cases plan with
  | refuse | accept => rfl
  | negate operand => simp only [carryOut, h operand (by simp [calls])]
  | combine op left right =>
    simp only [carryOut, h left (by simp [calls]), h right (by simp [calls])]

/-- An error is the plan's own or one from a recursive call. -/
theorem cases_of_error {again : List Token → Except MalformedExpr Expr} {plan : Plan}
    (h : plan.carryOut again = .error err) :
    plan = refuse err ∨ ∃ us ∈ plan.calls, again us = .error err := by
  cases plan with
  | refuse err' =>
    cases h
    exact .inl rfl
  | accept => cases h
  | negate operand =>
    rw [carryOut, bind_eq_error] at h
    rcases h with h | ⟨e, -, h⟩
    · exact .inr ⟨operand, by simp [calls], h⟩
    · cases h
  | combine op left right =>
    rw [carryOut, bind_eq_error] at h
    rcases h with h | ⟨l, -, h⟩
    · exact .inr ⟨left, by simp [calls], h⟩
    · rw [bind_eq_error] at h
      rcases h with h | ⟨r, -, h⟩
      · exact .inr ⟨right, by simp [calls], h⟩
      · cases h

end Plan

/-- Stripping leaves a part of the sequence. -/
theorem infix_of_strip {inner : List Token} (h : strip fuel ts = .ok inner) : inner <:+: ts := by
  induction fuel generalizing ts with
  | zero =>
    cases h
    exact List.infix_rfl
  | succ fuel ih =>
    obtain rfl | ⟨us, -, rfl, hus⟩ := strip_cases h
    · exact List.infix_rfl
    · exact (ih hus).trans ⟨[symbol .opening], [symbol .closing], rfl⟩

/-- An error in stripping is about a part of the sequence. -/
theorem infix_of_strip_error (h : strip fuel ts = .error err) :
    ∃ part, part <:+: ts ∧ err = malformed part .unbalanced := by
  induction fuel generalizing ts with
  | zero => cases h
  | succ fuel ih =>
    rw [strip] at h
    split at h
    · split at h
      · cases h
        exact ⟨ts, List.infix_rfl, rfl⟩
      · split at h
        · obtain ⟨part, hpart, rfl⟩ := ih h
          have hinner : (ts.drop 1).dropLast <:+: ts :=
            (List.dropLast_prefix _).isInfix.trans (List.drop_suffix 1 ts).isInfix
          exact ⟨part, hpart.trans hinner, rfl⟩
        · cases h
    · cases h

/-- What a plan complains of, and what it wants to read, stands in the sequence; the parts to be
read are shorter. -/
structure Plan.Sound (ts : List Token) (plan : Plan) : Prop where
  refused : ∀ err, plan = .refuse err → ∃ part flaw, part <:+: ts ∧ err = malformed part flaw
  calls : ∀ us ∈ plan.calls, us <:+: ts ∧ us.length < ts.length

theorem Plan.sound_refuse {part : List Token} (h : part <:+: ts) (flaw : Flaw) :
    Sound ts (.refuse (malformed part flaw)) := by
  refine ⟨fun err herr => ?_, by simp [Plan.calls]⟩
  cases herr
  exact ⟨part, flaw, h, rfl⟩

/-- A plan refuses a part of the sequence, or calls for shorter parts. -/
theorem sound_planBare {inner : List Token} (hinner : inner <:+: ts) :
    (planBare ts inner).Sound ts := by
  have hlength := hinner.length_le
  unfold planBare
  split
  · exact Plan.sound_refuse List.infix_rfl _
  · split
    · exact ⟨by simp, by simp [Plan.calls]⟩
    · exact Plan.sound_refuse List.infix_rfl _
  · split
    · exact Plan.sound_refuse hinner _
    · rename_i k op hweakest
      -- the sequence is split at the weakest operator
      obtain ⟨before, after, rfl, rfl, -⟩ := weakest_eq_ok.mp hweakest
      simp only [List.length_append, List.length_cons] at hlength
      split
      · split
        · exact Plan.sound_refuse List.infix_rfl _
        · -- the operator is the first token
          rename_i hfirst
          have hbefore : before = [] := by simpa using hfirst
          subst hbefore
          refine ⟨by simp, fun us hus => ?_⟩
          cases List.mem_singleton.mp hus
          exact ⟨(List.drop_suffix 1 _).isInfix.trans hinner,
            Nat.lt_of_lt_of_le (by simp) hinner.length_le⟩
      · split
        · exact Plan.sound_refuse List.infix_rfl _
        · refine ⟨by simp, fun us hus => ?_⟩
          rw [Plan.calls, List.take_left, drop_split] at hus
          have hbefore : before <:+: ts := (List.prefix_append _ _).isInfix.trans hinner
          have hafter : after <:+: ts :=
            List.IsInfix.trans ⟨before ++ [symbol (.operator op)], [], by simp⟩ hinner
          rcases List.mem_pair.mp hus with rfl | rfl
          · exact ⟨hbefore, by omega⟩
          · exact ⟨hafter, by omega⟩

/-- The plan for a list of tokens is one that the list allows. -/
theorem sound_plan (ts : List Token) : (plan ts).Sound ts := by
  unfold plan
  split
  · rename_i err hstrip
    obtain ⟨part, hpart, rfl⟩ := infix_of_strip_error hstrip
    exact Plan.sound_refuse hpart _
  · rename_i inner hstrip
    exact sound_planBare (infix_of_strip hstrip)

/-- With more fuel than tokens the fuel does not matter: it is never used up. -/
theorem readTree_fuel {fuel' : Nat} (h : ts.length < fuel) (h' : ts.length < fuel') :
    readTree fuel ts = readTree fuel' ts := by
  induction fuel generalizing ts fuel' with
  | zero => cases h
  | succ fuel ih =>
    cases fuel' with
    | zero => cases h'
    | succ fuel' =>
      rw [readTree, readTree]
      refine Plan.carryOut_congr fun us hus => ?_
      have hshorter := ((sound_plan ts).calls us hus).2
      exact ih (by omega) (by omega)

/-- An error is about a part of what is read. -/
theorem readTree_error (h : readTree fuel ts = .error err) :
    ∃ part flaw, part <:+: ts ∧ err = malformed part flaw := by
  induction fuel generalizing ts with
  | zero =>
    cases h
    exact ⟨ts, .empty, List.infix_rfl, rfl⟩
  | succ fuel ih =>
    rw [readTree] at h
    rcases Plan.cases_of_error h with hplan | ⟨us, hus, hagain⟩
    · exact (sound_plan ts).refused err hplan
    · obtain ⟨part, flaw, hpart, rfl⟩ := ih hagain
      exact ⟨part, flaw, hpart.trans ((sound_plan ts).calls us hus).1, rfl⟩

/-- A failed reading names a part of the list and its flaw. -/
theorem read_error (h : Expr.read ts = .error err) :
    ∃ part flaw, part <:+: ts ∧ err = malformed part flaw := by
  rw [Expr.read, bind_eq_error] at h
  rcases h with h | ⟨e, -, h⟩
  · exact readTree_error h
  · split at h
    · rename_i flaw _
      cases h
      exact ⟨ts, flaw, List.infix_rfl, rfl⟩
    · cases h

end Token

/-- The reader accepts exactly the grammar.  A sequence is read as a tree when it is a phrase that
stands for the tree; any other one is refused, for a flaw of a part of it.  The reader comes to an
end: it calls itself on shorter sequences only, so no bound on the depth is ever met. -/
theorem read_accepts_grammar (ts : List Token) :
    (∀ e, Expr.read ts = .ok e ↔ ∃ τ, Token.Phrase .disjunction τ ts e) ∧
      ((∀ e τ, ¬ Token.Phrase .disjunction τ ts e) →
        ∃ part flaw, part <:+: ts ∧ Expr.read ts = .error (Token.malformed part flaw)) ∧
      (∀ fuel, Token.readTree (fuel + 1) ts = (Token.plan ts).carryOut (Token.readTree fuel)) ∧
      (∀ us ∈ (Token.plan ts).calls, us.length < ts.length) ∧
      ∀ fuel, ts.length < fuel → Token.readTree fuel ts = Token.readTree (ts.length + 1) ts := by
  have hread : ∀ e, Expr.read ts = .ok e ↔ ∃ τ, Token.Phrase .disjunction τ ts e := by
    intro e
    simp only [Token.read_eq_ok_iff, Token.phrase_iff_writes, exists_and_left]
  refine ⟨hread, fun hnone => ?_, fun _ => rfl,
    fun us hus => ((Token.sound_plan ts).calls us hus).2,
    fun fuel hfuel => Token.readTree_fuel hfuel (Nat.lt_succ_self _)⟩
  cases hresult : Expr.read ts with
  | ok e =>
    obtain ⟨τ, hphrase⟩ := (hread e).mp hresult
    exact absurd hphrase (hnone e τ)
  | error err =>
    obtain ⟨part, flaw, hpart, rfl⟩ := Token.read_error hresult
    exact ⟨part, flaw, hpart, rfl⟩

/-- The sequence `a - b - 2 < c & not not (d)`, where `d` is `x == xs[x]`. -/
def layeredTokens : List Token :=
  [.access (.scalar "a"), .symbol (.operator (.arith .sub)), .access (.scalar "b"),
    .symbol (.operator (.arith .sub)), .literal 2, .symbol (.operator (.rel .lt)),
    .access (.scalar "c"), .symbol (.operator .and), .symbol (.operator .not),
    .symbol (.operator .not)] ++
    Token.parens [.access (.scalar "x"), .symbol (.operator (.rel .eq)),
      .access (.element "xs" (.scalar "x") none)]

def layeredTree : Expr :=
  .node .and
    (.node (.rel .lt)
      (.node (.arith .sub) (.node (.arith .sub) (.scalar "a") (.scalar "b")) (.literal 2))
      (.scalar "c"))
    (.negation (.negation (.node (.rel .eq) (.scalar "x") (.element "xs" (.scalar "x") none))))

/-- The sequence `a < b < c`. -/
def chainedTokens : List Token :=
  [.access (.scalar "a"), .symbol (.operator (.rel .lt)), .access (.scalar "b"),
    .symbol (.operator (.rel .lt)), .access (.scalar "c")]

theorem read_accepts_grammar_chained :
    (∃ τ, Token.Phrase .disjunction τ layeredTokens layeredTree) ∧
      (∀ e τ, ¬ Token.Phrase .disjunction τ chainedTokens e) ∧
      (∃ part flaw, part <:+: chainedTokens ∧
        Expr.read chainedTokens = .error (Token.malformed part flaw)) ∧
      chainedTokens.length < 9 ∧ Token.readTree 9 chainedTokens = Token.readTree 6
      chainedTokens := by
  have hlayered : Expr.read layeredTokens = .ok layeredTree := rfl
  have hchained : Expr.read chainedTokens =
      .error (Token.malformed chainedTokens (.booleanOperand (.rel .lt))) := rfl
  have hnone : ∀ e τ, ¬ Token.Phrase .disjunction τ chainedTokens e := by
    intro e τ hphrase
    have hread := ((read_accepts_grammar chainedTokens).1 e).mpr ⟨τ, hphrase⟩
    rw [hchained] at hread
    cases hread
  obtain ⟨-, hrefused, -, -, hfuel⟩ := read_accepts_grammar chainedTokens
  exact ⟨((read_accepts_grammar layeredTokens).1 layeredTree).mp hlayered, hnone, hrefused hnone,
    by decide, hfuel 9 (by decide)⟩

end MicroFlow
