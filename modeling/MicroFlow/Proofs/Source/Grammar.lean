import MicroFlow.Source.Parser

/-!
# The grammar of microC

Which lexemes form a program, and which tree they stand for.  A rule
`Expression l a e b` reads: what stands in `a` in front of `b` is an expression of the
level `l`, and its tree is `e`.  No rule looks at the lexemes behind its own.

The lemmas say that a part is never empty, and what it can start with.
-/

namespace MicroFlow.Source.Grammar

/-! ## Operators and numbers -/

inductive SumSign : Lexeme → ArithOp → Prop
  | plus : SumSign (.mark .plus) .add
  | minus : SumSign (.mark .minus) .sub

inductive ProductSign : Lexeme → ArithOp → Prop
  | star : ProductSign (.mark .star) .mul
  | slash : ProductSign (.mark .slash) .div
  | percent : ProductSign (.mark .percent) .mod

/-- The signs of relations. -/
inductive RelSign : Lexeme → RelOp → Prop
  | lt : RelSign (.mark .lt) .lt
  | gt : RelSign (.mark .gt) .gt
  | le : RelSign (.mark .le) .le
  | ge : RelSign (.mark .ge) .ge
  | eq : RelSign (.mark .eq) .eq
  | ne : RelSign (.mark .ne) .ne

/-- Digits with a value below `2 ^ 63`, possibly behind a minus sign. -/
inductive Number : Rest → Int → Rest → Prop
  | plain {ds : String} {p : Pos} {b : Rest}
      (small : Text.ofDigits ds.toList ≤ 9223372036854775807) :
      Number (⟨.number ds, p⟩ :: b) (Text.ofDigits ds.toList) b
  | negated {ds : String} {p q : Pos} {b : Rest}
      (small : Text.ofDigits ds.toList ≤ 9223372036854775807) :
      Number (⟨.mark .minus, p⟩ :: ⟨.number ds, q⟩ :: b) (-Text.ofDigits ds.toList) b

/-! ## Expressions and conditions -/

/-- Arithmetic expressions by how tightly they bind. -/
inductive ArithLevel where
  | place | factor | product | sum

/-- A name with an index or a field, factors, products and sums; operators of one level associate to
the left. -/
inductive Expression : ArithLevel → Rest → Arith → Rest → Prop
  | scalar {x : String} {p : Pos} {b : Rest} (name : x ∉ keywords) :
      Expression .place (⟨.word x, p⟩ :: b) (.access p .scalar x .missing "") b
  | element {x : String} {p q r : Pos} {a b : Rest} {i : Arith} (name : x ∉ keywords)
      (index : Expression .sum a i (⟨.mark .closeBracket, r⟩ :: b)) :
      Expression .place (⟨.word x, p⟩ :: ⟨.mark .openBracket, q⟩ :: a)
        (.access p .array x i "") b
  | field {x f : String} {p q r : Pos} {b : Rest} (name : x ∉ keywords) :
      Expression .place (⟨.word x, p⟩ :: ⟨.mark .dot, q⟩ :: ⟨.word f, r⟩ :: b)
        (.access p .record x .missing f) b
  | number {t : Located} {a b : Rest} {n : Int} (value : Number (t :: a) n b) :
      Expression .factor (t :: a) (.num t.pos n) b
  | access {a b : Rest} {e : Arith} (place : Expression .place a e b) :
      Expression .factor a e b
  | parens {p q : Pos} {a b : Rest} {e : Arith}
      (inner : Expression .sum a e (⟨.mark .closeParen, q⟩ :: b)) :
      Expression .factor (⟨.mark .openParen, p⟩ :: a) e b
  | one {a b : Rest} {e : Arith} (only : Expression .factor a e b) :
      Expression .product a e b
  | times {t : Located} {op : ArithOp} {a b c : Rest} {l r : Arith}
      (left : Expression .product a l (t :: b)) (sign : ProductSign t.lexeme op)
      (right : Expression .factor b r c) :
      Expression .product a (.binary t.pos (.arith op) l r) c
  | single {a b : Rest} {e : Arith} (only : Expression .product a e b) :
      Expression .sum a e b
  | plus {t : Located} {op : ArithOp} {a b c : Rest} {l r : Arith}
      (left : Expression .sum a l (t :: b)) (sign : SumSign t.lexeme op)
      (right : Expression .product b r c) :
      Expression .sum a (.binary t.pos (.arith op) l r) c

/-- Conditions by how tightly they bind. -/
inductive CondLevel where
  | primary | negation | conjunction | disjunction

/-- Truth values, relations, `not`, `&` and `|`, which associate to the left. -/
inductive Condition : CondLevel → Rest → Cond → Rest → Prop
  | yes {p : Pos} {b : Rest} : Condition .primary (⟨.word "true", p⟩ :: b) (.truth p true) b
  | no {p : Pos} {b : Rest} : Condition .primary (⟨.word "false", p⟩ :: b) (.truth p false) b
  | parens {p q : Pos} {a b : Rest} {x : Cond}
      (inner : Condition .disjunction a x (⟨.mark .closeParen, q⟩ :: b)) :
      Condition .primary (⟨.mark .openParen, p⟩ :: a) x b
  | relation {t : Located} {op : RelOp} {a b c : Rest} {l r : Arith}
      (left : Expression .sum a l (t :: b)) (sign : RelSign t.lexeme op)
      (right : Expression .sum b r c) :
      Condition .primary a (.rel t.pos (.rel op) l r) c
  | plain {a b : Rest} {x : Cond} (only : Condition .primary a x b) :
      Condition .negation a x b
  | not {p : Pos} {a b : Rest} {x : Cond} (operand : Condition .negation a x b) :
      Condition .negation (⟨.word "not", p⟩ :: a) (.not p x) b
  | one {a b : Rest} {x : Cond} (only : Condition .negation a x b) :
      Condition .conjunction a x b
  | and {p : Pos} {a b c : Rest} {l r : Cond}
      (left : Condition .conjunction a l (⟨.mark .amp, p⟩ :: b))
      (right : Condition .negation b r c) :
      Condition .conjunction a (.logic p .and l r) c
  | single {a b : Rest} {x : Cond} (only : Condition .conjunction a x b) :
      Condition .disjunction a x b
  | or {p : Pos} {a b c : Rest} {l r : Cond}
      (left : Condition .disjunction a l (⟨.mark .bar, p⟩ :: b))
      (right : Condition .conjunction b r c) :
      Condition .disjunction a (.logic p .or l r) c

/-! ## Statements and programs -/

/-- A condition in parentheses. -/
inductive Guard : Rest → Cond → Rest → Prop
  | parens {p q : Pos} {a b : Rest} {x : Cond}
      (inner : Condition .disjunction a x (⟨.mark .closeParen, q⟩ :: b)) :
      Guard (⟨.mark .openParen, p⟩ :: a) x b

mutual

/-- A statement, up to its semicolon or the end of its last block. -/
inductive Statement : Rest → Stmt → Rest → Prop
  | assign {t : Located} {p q : Pos} {a b c : Rest} {x : Place} {e : Arith}
      (target : Expression .place (t :: a) x.toArith (⟨.mark .assign, p⟩ :: b))
      (value : Expression .sum b e (⟨.mark .semicolon, q⟩ :: c)) :
      Statement (t :: a) (.assign t.pos (some x) e) c
  | read {p q : Pos} {a b : Rest} {x : Place}
      (target : Expression .place a x.toArith (⟨.mark .semicolon, q⟩ :: b)) :
      Statement (⟨.word "read", p⟩ :: a) (.read p (some x)) b
  | write {p q : Pos} {a b : Rest} {e : Arith}
      (value : Expression .sum a e (⟨.mark .semicolon, q⟩ :: b)) :
      Statement (⟨.word "write", p⟩ :: a) (.write p e) b
  | ifThen {p : Pos} {a b c : Rest} {x : Cond} {body : Source.Block} (guard : Guard a x b)
      (first : Block b body c) :
      Statement (⟨.word "if", p⟩ :: a) (.ifThen p x body) c
  | ifElse {p q : Pos} {a b c d : Rest} {x : Cond} {body other : Source.Block}
      (guard : Guard a x b) (first : Block b body (⟨.word "else", q⟩ :: c))
      (second : Block c other d) :
      Statement (⟨.word "if", p⟩ :: a) (.ifElse p x body other) d
  | loop {p : Pos} {a b c : Rest} {x : Cond} {body : Source.Block} (guard : Guard a x b)
      (repeated : Block b body c) :
      Statement (⟨.word "while", p⟩ :: a) (.loop p x body) c

/-- Statements in braces. -/
inductive Block : Rest → Source.Block → Rest → Prop
  | braces {p q : Pos} {a b : Rest} {body : Source.Block}
      (inner : Statements a body (⟨.mark .closeBrace, q⟩ :: b)) :
      Block (⟨.mark .openBrace, p⟩ :: a) body b

/-- Statements in a row. -/
inductive Statements : Rest → Source.Block → Rest → Prop
  | nil {a : Rest} : Statements a .nil a
  | cons {a b c : Rest} {s : Stmt} {body : Source.Block} (first : Statement a s b)
      (others : Statements b body c) : Statements a (.cons s body) c

end

inductive Declaration : Rest → Item → Rest → Prop
  | scalar {x : String} {p q r : Pos} {b : Rest} (name : x ∉ keywords) :
      Declaration (⟨.word "int", p⟩ :: ⟨.word x, q⟩ :: ⟨.mark .semicolon, r⟩ :: b)
        (.declare p .scalar x 0) b
  | array {x : String} {p q r s t : Pos} {a b : Rest} {n : Int} (name : x ∉ keywords)
      (length : Number a n
        (⟨.mark .closeBracket, r⟩ :: ⟨.word x, s⟩ :: ⟨.mark .semicolon, t⟩ :: b)) :
      Declaration (⟨.word "int", p⟩ :: ⟨.mark .openBracket, q⟩ :: a) (.declare p .array x n) b
  | record {x : String} {p i f s j g c q r : Pos} {b : Rest} (name : x ∉ keywords) :
      Declaration (⟨.mark .openBrace, p⟩ :: ⟨.word "int", i⟩ :: ⟨.word "fst", f⟩ ::
          ⟨.mark .semicolon, s⟩ :: ⟨.word "int", j⟩ :: ⟨.word "snd", g⟩ ::
          ⟨.mark .closeBrace, c⟩ :: ⟨.word x, q⟩ :: ⟨.mark .semicolon, r⟩ :: b)
        (.declare p .record x 0) b

/-- The lexemes of a whole text form a program. -/
inductive Derives : Rest → Program → Prop
  | nil : Derives [] []
  | declaration {a b : Rest} {i : Item} {p : Program} (first : Declaration a i b)
      (others : Derives b p) : Derives a (i :: p)
  | statement {a b : Rest} {s : Stmt} {p : Program} (first : Statement a s b)
      (others : Derives b p) : Derives a (.stmt s :: p)

/-! ## Every part takes a lexeme -/

/-- `b` is left of `a` when at least one lexeme is taken. -/
def Behind (b a : Rest) : Prop := ∃ t c, a = t :: c ∧ b <:+ c

section
variable {a b c : Rest} {t : Located}

theorem behind_cons (t : Located) (a : Rest) : Behind a (t :: a) := ⟨t, a, rfl, List.suffix_rfl⟩

theorem Behind.suffix (h : Behind b a) : b <:+ a := by
  obtain ⟨t, c, rfl, hb⟩ := h
  exact hb.trans (List.suffix_cons t c)

/-- What is behind a part is shorter. -/
theorem Behind.length_lt (h : Behind b a) : b.length < a.length := by
  obtain ⟨t, c, rfl, hb⟩ := h
  have := hb.length_le
  rw [List.length_cons]
  omega

/-- Parts in a row. -/
theorem Behind.trans (h : Behind c b) (g : Behind b a) : Behind c a := by
  obtain ⟨t, d, rfl, hb⟩ := g
  exact ⟨t, d, rfl, h.suffix.trans hb⟩

theorem Behind.cons (h : Behind b a) : Behind b (t :: a) := h.trans (behind_cons t a)

theorem Behind.tail (h : Behind (t :: b) a) : Behind b a := (behind_cons t b).trans h

end

theorem Number.behind {a b : Rest} {n : Int} (h : Number a n b) : Behind b a := by
  cases h with
  | plain => exact behind_cons _ _
  | negated => exact (behind_cons _ _).cons

/-- An expression takes a lexeme or more. -/
theorem Expression.behind {l : ArithLevel} {a b : Rest} {e : Arith} (h : Expression l a e b) :
    Behind b a := by
  induction h with
  | scalar => exact behind_cons _ _
  | element _ _ ih => exact ih.tail.cons.cons
  | field => exact (behind_cons _ _).cons.cons
  | number h => exact h.behind
  | access _ ih => exact ih
  | parens _ ih => exact ih.tail.cons
  | one _ ih => exact ih
  | times _ _ _ ih ih' => exact ih'.trans ih.tail
  | single _ ih => exact ih
  | plus _ _ _ ih ih' => exact ih'.trans ih.tail

/-- A condition takes a lexeme or more. -/
theorem Condition.behind {l : CondLevel} {a b : Rest} {x : Cond} (h : Condition l a x b) :
    Behind b a := by
  induction h with
  | yes => exact behind_cons _ _
  | no => exact behind_cons _ _
  | parens _ ih => exact ih.tail.cons
  | relation hl _ hr => exact hr.behind.trans hl.behind.tail
  | plain _ ih => exact ih
  | not _ ih => exact ih.cons
  | one _ ih => exact ih
  | and _ _ ih ih' => exact ih'.trans ih.tail
  | single _ ih => exact ih
  | or _ _ ih ih' => exact ih'.trans ih.tail

theorem Guard.behind {a b : Rest} {x : Cond} (h : Guard a x b) : Behind b a := by
  cases h with
  | parens h => exact h.behind.tail.cons

mutual

/-- A statement takes a lexeme or more. -/
theorem Statement.behind : ∀ {a b : Rest} {s : Stmt}, Statement a s b → Behind b a
  | _, _, _, .assign h g => g.behind.tail.trans h.behind.tail
  | _, _, _, .read h => h.behind.tail.cons
  | _, _, _, .write h => h.behind.tail.cons
  | _, _, _, .ifThen h g | _, _, _, .loop h g => (g.behind.trans h.behind).cons
  | _, _, _, .ifElse h g g' => ((g'.behind.trans g.behind.tail).trans h.behind).cons

theorem Block.behind : ∀ {a b : Rest} {body : Source.Block}, Block a body b → Behind b a
  | _, _, _, .braces h => by
    obtain ⟨d, hd⟩ := h.suffix
    exact ⟨_, _, rfl, ⟨d ++ [_], by rw [← hd, List.append_assoc, List.singleton_append]⟩⟩

theorem Statements.suffix : ∀ {a b : Rest} {body : Source.Block}, Statements a body b → b <:+ a
  | _, _, _, .nil => List.suffix_rfl
  | _, _, _, .cons h g => g.suffix.trans h.behind.suffix

end

/-- A declaration takes a lexeme or more. -/
theorem Declaration.behind {a b : Rest} {i : Item} (h : Declaration a i b) : Behind b a := by
  cases h with
  | scalar => exact (behind_cons _ _).cons.cons
  | array _ h => exact h.behind.tail.tail.tail.cons.cons
  | record => exact (behind_cons _ _).cons.cons.cons.cons.cons.cons.cons.cons

/-! ## What a part can start with -/

/-- What an expression can start with. -/
def StartsExpression : Lexeme → Prop
  | .number _ => True
  | .word w => w ∉ keywords
  | .mark p => p = .minus ∨ p = .openParen

/-- The first lexeme of an expression is a name, a number, a minus or a parenthesis. -/
theorem Expression.starts {l : ArithLevel} {a b : Rest} {e : Arith} (h : Expression l a e b) :
    ∃ t c, a = t :: c ∧ StartsExpression t.lexeme := by
  induction h with
  | scalar h => exact ⟨_, _, rfl, h⟩
  | element h => exact ⟨_, _, rfl, h⟩
  | field h => exact ⟨_, _, rfl, h⟩
  | number h =>
    cases h with
    | plain => exact ⟨_, _, rfl, trivial⟩
    | negated => exact ⟨_, _, rfl, .inl rfl⟩
  | access _ ih => exact ih
  | parens => exact ⟨_, _, rfl, .inr rfl⟩
  | one _ ih => exact ih
  | times _ _ _ ih => exact ih
  | single _ ih => exact ih
  | plus _ _ _ ih => exact ih

/-- A place starts with its name, where the tree says. -/
theorem Expression.place_starts {a b : Rest} {x : Place} (h : Expression .place a x.toArith b) :
    ∃ c, a = ⟨.word x.name, x.pos⟩ :: c ∧ x.name ∉ keywords := by
  obtain ⟨pos, shape, name, index, field⟩ := x
  cases h with
  | scalar h => exact ⟨_, rfl, h⟩
  | element h => exact ⟨_, rfl, h⟩
  | field h => exact ⟨_, rfl, h⟩

/-- An expression that starts with a parenthesis starts with a sum in parentheses. -/
theorem Expression.inside {l : ArithLevel} {a b : Rest} {e : Arith} (h : Expression l a e b) :
    ∀ {p : Pos} {c : Rest}, a = ⟨.mark .openParen, p⟩ :: c →
      ∃ f q d, Expression .sum c f (⟨.mark .closeParen, q⟩ :: d) := by
  intro p c hc
  induction h with
  | scalar => simp at hc
  | element => simp at hc
  | field => simp at hc
  | number h => cases h <;> simp at hc
  | access _ ih => exact ih hc
  | parens h =>
    obtain ⟨-, rfl⟩ := List.cons.inj hc
    exact ⟨_, _, _, h⟩
  | one _ ih => exact ih hc
  | times _ _ _ ih => exact ih hc
  | single _ ih => exact ih hc
  | plus _ _ _ ih => exact ih hc

/-- Only a negation starts with `not`. -/
theorem Condition.ne_not {a b : Rest} {x : Cond} (h : Condition .primary a x b) (p : Pos)
    (c : Rest) : a ≠ ⟨.word "not", p⟩ :: c := by
  rintro ha
  cases h with
  | yes => simp at ha
  | no => simp at ha
  | parens => simp at ha
  | relation hl =>
    obtain ⟨t, d, hd, ht⟩ := hl.starts
    cases ha.symm.trans hd
    exact ht (by decide)

/-- What a statement can start with. -/
def StartsStatement (w : String) : Prop :=
  w ∈ ["read", "write", "if", "while"] ∨ w ∉ keywords

instance (w : String) : Decidable (StartsStatement w) :=
  inferInstanceAs (Decidable (_ ∈ _ ∨ _))

/-- A statement starts with a name or one of its own words. -/
theorem Statement.starts {a b : Rest} {s : Stmt} (h : Statement a s b) :
    ∃ w p c, a = ⟨.word w, p⟩ :: c ∧ StartsStatement w := by
  cases h with
  | assign h =>
    obtain ⟨c, hc, hname⟩ := h.place_starts
    exact ⟨_, _, c, hc, .inr hname⟩
  | read | write | ifThen | ifElse | loop => exact ⟨_, _, _, rfl, .inl (by decide)⟩

end MicroFlow.Source.Grammar
