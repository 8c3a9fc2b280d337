import MicroFlow.Proofs.Source.Complete
import MicroFlow.Proofs.Source.Munch

/-!
# The parser accepts exactly its grammar

What is derived as a program is read as one, and so the parser and the grammar agree on
every text: what is read is derived (`program_answers`), what is derived is read
(`Derives.ok`), and as a reading has one outcome no lexemes derive two programs.
-/

namespace MicroFlow.Source

open Grammar

variable {stop : Pos} {a b c : Rest} {fuel : Nat}

/-! ## Statements -/

/-- What goes on with a block behind a condition. -/
def extendsBranch (l : Lexeme) : Bool := l == .word "else"

/-- A statement that starts with a name is an assignment. -/
theorem statement_assign {t : Located} {p q : Pos} {x : Place} {e : Arith}
    (hx : Expression .place (t :: a) x.toArith (⟨.mark .assign, p⟩ :: b))
    (he : Expression .sum b e (⟨.mark .semicolon, q⟩ :: c))
    (hf : 16 * (t :: a).length + 9 ≤ fuel + 1) :
    statement stop (fuel + 1) (t :: a) = .ok (.assign t.pos (some x) e, c) := by
  have hlt := hx.behind.tail.length_lt
  obtain ⟨d, heq, hname⟩ := hx.place_starts
  cases heq
  -- the name is not reserved, so no other kind of statement starts there
  have hne : ∀ w q d, w ∈ keywords → ⟨.word x.name, x.pos⟩ :: a ≠ ⟨.word w, q⟩ :: d := by
    intro w q d hw heq
    obtain ⟨h, -⟩ : (x.name = w ∧ x.pos = q) ∧ a = d := by simpa using heq
    exact hname (h.1 ▸ hw)
  unfold statement
  split
  next heq => exact absurd heq (hne _ _ _ (by decide))
  next heq => exact absurd heq (hne _ _ _ (by decide))
  next heq => exact absurd heq (hne _ _ _ (by decide))
  next heq => exact absurd heq (hne _ _ _ (by decide))
  next w r d _ _ _ _ heq =>
    cases heq
    rw [if_neg hname, hx.place_ok rfl (by omega), ok_bind]
    dsimp only
    rw [expect_self, ok_bind, he.sum_ok rfl (by omega), ok_bind]
    dsimp only
    rw [expect_self]
    rfl
  next h => exact absurd rfl (h _ _ _)

/-- A place behind `read`. -/
theorem statement_read {p q : Pos} {x : Place}
    (hx : place stop fuel a = .ok (x, ⟨.mark .semicolon, q⟩ :: b)) :
    statement stop (fuel + 1) (⟨.word "read", p⟩ :: a) = .ok (.read p (some x), b) := by
  rw [statement, hx, ok_bind]
  dsimp only
  rw [expect_self]
  rfl

/-- A sum behind `write`. -/
theorem statement_write {p q : Pos} {e : Arith}
    (he : sum stop fuel a = .ok (e, ⟨.mark .semicolon, q⟩ :: b)) :
    statement stop (fuel + 1) (⟨.word "write", p⟩ :: a) = .ok (.write p e, b) := by
  rw [statement, he, ok_bind]
  dsimp only
  rw [expect_self]
  rfl

/-- A branch, when no `else` follows. -/
theorem statement_ifThen {p : Pos} {x : Cond} {body : Block}
    (hx : condition stop fuel a = .ok (x, b))
    (hbody : block stop fuel b = .ok (body, c)) (hc : Ends extendsBranch c) :
    statement stop (fuel + 1) (⟨.word "if", p⟩ :: a) = .ok (.ifThen p x body, c) := by
  rw [statement, hx, ok_bind]
  dsimp only
  rw [hbody, ok_bind]
  dsimp only
  split
  next => exact absurd hc (by simp [Ends, extendsBranch])
  next => rfl

/-- A branch with another block behind `else`. -/
theorem statement_ifElse {p q : Pos} {d : Rest} {x : Cond} {body other : Block}
    (hx : condition stop fuel a = .ok (x, b))
    (hbody : block stop fuel b = .ok (body, ⟨.word "else", q⟩ :: c))
    (hother : block stop fuel c = .ok (other, d)) :
    statement stop (fuel + 1) (⟨.word "if", p⟩ :: a) = .ok (.ifElse p x body other, d) := by
  rw [statement, hx, ok_bind]
  dsimp only
  rw [hbody, ok_bind]
  dsimp only
  split
  next heq =>
    cases heq
    rw [hother]
    rfl
  next h => exact absurd rfl (h _ _)

/-- A condition and a block behind `while`. -/
theorem statement_loop {p : Pos} {x : Cond} {body : Block} (hx : condition stop fuel a = .ok (x, b))
    (hbody : block stop fuel b = .ok (body, c)) :
    statement stop (fuel + 1) (⟨.word "while", p⟩ :: a) = .ok (.loop p x body, c) := by
  rw [statement, hx, ok_bind]
  dsimp only
  rw [hbody]
  rfl

/-- One statement of a row. -/
theorem statements_cons {s : Stmt} {body : Block} (h : Statement a s b)
    (hs : statement stop fuel a = .ok (s, b)) (hbody : statements stop fuel b = .ok (body, c)) :
    statements stop (fuel + 1) a = .ok (.cons s body, c) := by
  obtain ⟨w, p, d, rfl, -⟩ := h.starts
  rw [statements, hs, ok_bind]
  · dsimp only
    rw [hbody]
    rfl
  · simp

/-- No statement starts with `else`, so a branch before it ends. -/
theorem Grammar.StartsStatement.ends_branch {w : String} {p : Pos} (h : StartsStatement w) :
    Ends extendsBranch (⟨.word w, p⟩ :: a) := by
  show (Lexeme.word w == .word "else") = false
  rw [beq_eq_false_iff_ne]
  rintro ⟨⟩
  exact absurd h (by decide)

theorem Grammar.Statement.ends_branch {s : Stmt} (h : Statement a s b) : Ends extendsBranch a := by
  obtain ⟨w, p, c, rfl, hw⟩ := h.starts
  exact hw.ends_branch

/-- Nor does a row of statements up to its brace. -/
theorem Grammar.Statements.ends_branch {body : Source.Block} {q : Pos} (h : Statements a body c)
    (hc : c = ⟨.mark .closeBrace, q⟩ :: b) : Ends extendsBranch a := by
  cases h with
  | nil =>
    subst hc
    rfl
  | cons h => exact h.ends_branch

mutual

/-- A derived statement is read, if it cannot go on with `else`. -/
theorem Grammar.Statement.ok : ∀ {a b : Rest} {s : Stmt}, Statement a s b →
    Ends extendsBranch b → ∀ {fuel : Nat}, 16 * a.length + 9 ≤ fuel →
      statement stop fuel a = .ok (s, b)
  | _, _, _, _, _, 0, hf => absurd hf (by omega)
  | _, _, _, .assign hx he, _, fuel + 1, hf => statement_assign hx he hf
  | _, _, _, .read hx, _, fuel + 1, hf => by
    rw [List.length_cons] at hf
    exact statement_read (hx.place_ok rfl (by omega))
  | _, _, _, .write he, _, fuel + 1, hf => by
    rw [List.length_cons] at hf
    exact statement_write (he.sum_ok rfl (by omega))
  | _, _, _, .ifThen hx hbody, hb, fuel + 1, hf => by
    have := hx.behind.length_lt
    rw [List.length_cons] at hf
    exact statement_ifThen (hx.ok (by omega)) (hbody.ok (by omega)) hb
  | _, _, _, .ifElse hx hbody hother, _, fuel + 1, hf => by
    have := hx.behind.length_lt
    have := hbody.behind.tail.length_lt
    rw [List.length_cons] at hf
    exact statement_ifElse (hx.ok (by omega)) (hbody.ok (by omega)) (hother.ok (by omega))
  | _, _, _, .loop hx hbody, _, fuel + 1, hf => by
    have := hx.behind.length_lt
    rw [List.length_cons] at hf
    exact statement_loop (hx.ok (by omega)) (hbody.ok (by omega))

theorem Grammar.Block.ok : ∀ {a b : Rest} {body : Source.Block}, Grammar.Block a body b →
    ∀ {fuel : Nat}, 16 * a.length + 11 ≤ fuel → block stop fuel a = .ok (body, b)
  | _, _, _, _, 0, hf => absurd hf (by omega)
  | _, _, _, .braces h, fuel + 1, hf => by
    rw [List.length_cons] at hf
    rw [block, expect_self, ok_bind]
    exact h.ok rfl (by omega)

theorem Grammar.Statements.ok : ∀ {a c : Rest} {body : Source.Block}, Statements a body c →
    ∀ {b : Rest} {q : Pos}, c = ⟨.mark .closeBrace, q⟩ :: b →
      ∀ {fuel : Nat}, 16 * a.length + 10 ≤ fuel → statements stop fuel a = .ok (body, b)
  | _, _, _, _, _, _, _, 0, hf => absurd hf (by omega)
  | _, _, _, .nil, _, _, rfl, fuel + 1, _ => by rw [statements]
  | _, _, _, .cons hs hbody, _, _, hc, fuel + 1, hf => by
    have := hs.behind.length_lt
    have hend : Ends extendsBranch _ := hbody.ends_branch hc
    exact statements_cons hs (hs.ok hend (by omega)) (hbody.ok hc (by omega))

end

/-! ## Programs -/

/-- The name and the semicolon of a declaration. -/
theorem declared_ok {x : String} (hx : x ∉ keywords) (p q r : Pos) (shape : Shape) (n : Int)
    (b : Rest) :
    declared stop p shape n (⟨.word x, q⟩ :: ⟨.mark .semicolon, r⟩ :: b) =
      .ok (.declare p shape x n, b) := by
  rw [declared, identifier_word hx, ok_bind]
  dsimp only
  rw [expect_self]
  rfl

/-- A derived declaration is read. -/
theorem Grammar.Declaration.ok {i : Item} (h : Grammar.Declaration a i b) :
    item stop fuel a = .ok (i, b) := by
  cases h with
  | scalar hx => exact declared_ok hx _ _ _ _ _ _
  | array hx hn =>
    rw [item, hn.read, ok_bind]
    dsimp only
    rw [expect_self, ok_bind]
    exact declared_ok hx _ _ _ _ _ _
  | record hx =>
    rw [item, recordFields]
    simp only [expect_self, ok_bind]
    exact declared_ok hx _ _ _ _ _ _

/-- A statement is not taken for a declaration. -/
theorem item_statement {s : Stmt} (h : Statement a s b) (hs : statement stop fuel a = .ok (s, b)) :
    item stop fuel a = .ok (.stmt s, b) := by
  obtain ⟨w, p, c, rfl, hw⟩ := h.starts
  have hne : w ≠ "int" := by
    rintro rfl
    exact absurd hw (by decide)
  rw [item, hs]
  · rfl
  · simp
  · simp [hne]
  · simp [hne]

theorem Grammar.Derives.ends_branch {p : Program} (h : Derives a p) : Ends extendsBranch a := by
  cases h with
  | nil => trivial
  | declaration h => cases h <;> rfl
  | statement h => exact h.ends_branch

/-- A derived program is read, item by item. -/
theorem Grammar.Derives.ok {p : Program} (h : Derives a p) :
    ∀ {fuel : Nat}, 16 * (a.length + 1) ≤ fuel → program stop fuel a = .ok p := by
  induction h with
  | nil =>
    intro fuel _
    rw [program]
  | @declaration a b i p h _ ih =>
    intro fuel hf
    obtain _ | fuel := fuel
    · omega
    have := h.behind.length_lt
    rw [program, h.ok, ok_bind]
    · dsimp only
      rw [ih (by omega)]
      rfl
    · rintro rfl
      exact absurd this (by simp)
  | @statement a b s p h hp ih =>
    intro fuel hf
    obtain _ | fuel := fuel
    · omega
    have := h.behind.length_lt
    -- the next item starts with a word other than `else`
    rw [program, item_statement h (h.ok hp.ends_branch (by omega)), ok_bind]
    · dsimp only
      rw [ih (by omega)]
      rfl
    · rintro rfl
      exact absurd this (by simp)

/-- Lexemes stand for one program at most. -/
theorem Grammar.Derives.unique {p q : Program} (hp : Derives a p) (hq : Derives a q) : p = q := by
  have h : program default (16 * (a.length + 1)) a = .ok p := hp.ok (Nat.le_refl _)
  rw [hq.ok (Nat.le_refl _)] at h
  cases h
  rfl

/-- Why a text is refused: a byte starts no lexeme, or a lexeme or the end stands where
the grammar does not allow it. -/
def RefusedText (src : Text.Bytes) (e : SyntaxError) : Prop :=
  (lex src = .error e ∧ ∃ b ∈ src, e.cause = .unexpected b) ∨
    ∃ l, lex src = .ok l ∧ Refused l.stop l.lexemes e

/-- A parse derives a program or refuses a lexeme. -/
theorem parse_answers {src : Text.Bytes} {l : Lexed} (h : lex src = .ok l) :
    Answers l.stop l.lexemes (Derives l.lexemes) (parse src) := by
  rw [parse, h, ok_bind]
  exact program_answers (Nat.le_refl _)

/-- A derived program is parsed. -/
theorem parse_of_derives {src : Text.Bytes} {l : Lexed} {p : Program} (h : lex src = .ok l)
    (hp : Derives l.lexemes p) : parse src = .ok p := by
  rw [parse, h, ok_bind]
  exact hp.ok (Nat.le_refl _)

/-- What is parsed is derived. -/
theorem derives_of_parse {src : Text.Bytes} {p : Program} (h : parse src = .ok p) :
    ∃ l, lex src = .ok l ∧ Derives l.lexemes p := by
  cases hlex : lex src with
  | error e =>
    rw [parse, hlex] at h
    cases h
  | ok l =>
    have hp := parse_answers hlex
    rw [h] at hp
    exact ⟨l, rfl, hp⟩

/-- A text is refused by its bytes or by its lexemes. -/
theorem refusedText_of_parse {src : Text.Bytes} {e : SyntaxError} (h : parse src = .error e) :
    RefusedText src e := by
  cases hlex : lex src with
  | error e' =>
    rw [parse, hlex] at h
    cases h
    exact .inl ⟨hlex, unexpected_of_lex hlex⟩
  | ok l =>
    have he := parse_answers hlex
    rw [h] at he
    exact .inr ⟨l, hlex, he⟩

/-- **The parser accepts exactly its grammar.**  A text is read as a program if and only if
its lexemes derive the program; no lexemes derive two programs; and a text whose lexemes
derive none is refused with a syntax error at a place of the text. -/
theorem parse_accepts_grammar (src : Text.Bytes) :
    (∀ p, parse src = .ok p ↔ ∃ l, lex src = .ok l ∧ Derives l.lexemes p) ∧
      (∀ (a : Rest) (p q : Program), Derives a p → Derives a q → p = q) ∧
      ((¬ ∃ l p, lex src = .ok l ∧ Derives l.lexemes p) →
        ∃ e, parse src = .error e ∧ RefusedText src e) := by
  refine ⟨fun p => ⟨derives_of_parse, ?_⟩, fun a p q hp hq => hp.unique hq, fun hnone => ?_⟩
  · rintro ⟨l, hlex, hp⟩
    exact parse_of_derives hlex hp
  · cases hparse : parse src with
    | ok p =>
      obtain ⟨l, hlex, hp⟩ := derives_of_parse hparse
      exact absurd ⟨l, p, hlex, hp⟩ hnone
    | error e => exact ⟨e, rfl, refusedText_of_parse hparse⟩

/-- A text with parentheses around an operand of a relation, around a relation and around
a disjunction, and with both uses of the minus sign. -/
def parensText : Text.Bytes :=
  Text.toBytes "while ((x - 1) * 2 < -9 & (not (x == 3) | true)) \x7b x := x - -1; \x7d"

def parensProgram : Program :=
  [.stmt (.loop ⟨1, 1⟩
    (.logic ⟨1, 25⟩ .and
      (.rel ⟨1, 20⟩ (.rel .lt)
        (.binary ⟨1, 16⟩ (.arith .mul)
          (.binary ⟨1, 11⟩ (.arith .sub) (.access ⟨1, 9⟩ .scalar "x" .missing "") (.num ⟨1, 13⟩ 1))
          (.num ⟨1, 18⟩ 2))
        (.num ⟨1, 22⟩ (-9)))
      (.logic ⟨1, 41⟩ .or
        (.not ⟨1, 28⟩
          (.rel ⟨1, 35⟩ (.rel .eq) (.access ⟨1, 33⟩ .scalar "x" .missing "") (.num ⟨1, 38⟩ 3)))
        (.truth ⟨1, 43⟩ true)))
    (.cons
      (.assign ⟨1, 52⟩ (some ⟨⟨1, 52⟩, .scalar, "x", .missing, ""⟩)
        (.binary ⟨1, 59⟩ (.arith .sub) (.access ⟨1, 57⟩ .scalar "x" .missing "")
          (.num ⟨1, 61⟩ (-1))))
      .nil))]

/-- A text with a relation where a sum has to stand. -/
def relationText : Text.Bytes := Text.toBytes "write (x < 1);"

/-- The lexemes of the first text derive its program and no other; the second is refused. -/
theorem parse_accepts_grammar_parens :
    (∃ l, lex parensText = .ok l ∧ Derives l.lexemes parensProgram ∧
      ∀ q, Derives l.lexemes q → q = parensProgram) ∧
      ∃ e, parse relationText = .error e ∧ RefusedText relationText e := by
  have hread : (parse parensText).toOption = some parensProgram := by decide +kernel
  have hrefused : (parse relationText).toOption = none := by decide +kernel
  constructor
  · obtain ⟨hiff, hunique, -⟩ := parse_accepts_grammar parensText
    cases hparse : parse parensText with
    | error e =>
      rw [hparse] at hread
      cases hread
    | ok p =>
      rw [hparse] at hread
      cases hread
      obtain ⟨l, hlex, hp⟩ := (hiff parensProgram).mp hparse
      exact ⟨l, hlex, hp, fun q hq => hunique _ q _ hq hp⟩
  · obtain ⟨hiff, -, herror⟩ := parse_accepts_grammar relationText
    refine herror ?_
    rintro ⟨l, p, hlex, hp⟩
    rw [(hiff p).mpr ⟨l, hlex, hp⟩] at hrefused
    cases hrefused

end MicroFlow.Source
