import MicroFlow.Proofs.Expr.Text
import MicroFlow.Proofs.Lowering.Layout
import MicroFlow.Proofs.Source.Grammar
import MicroFlow.Proofs.Source.Lexing

/-!
# Printed expressions are read back

An expression is printed with the parentheses that its tree needs, and the grammar decides where
operators belong.  The two agree: what is printed for an expression derives a tree that stands for
the same expression.
-/

namespace MicroFlow.Source

open Grammar

/-! ## Reading a text -/

/-- The first lexeme stands at some place. -/
theorem located_cons {a : Rest} {l : Lexeme} {ls : List Lexeme}
    (h : a.map Located.lexeme = l :: ls) :
    ∃ p b, a = ⟨l, p⟩ :: b ∧ b.map Located.lexeme = ls := by
  obtain ⟨⟨l, p⟩, b, rfl, rfl, hb⟩ := List.map_eq_cons_iff.mp h
  exact ⟨p, b, rfl, hb⟩

theorem located_one {a : Rest} {l : Lexeme} (h : a.map Located.lexeme = [l]) :
    ∃ p, a = [⟨l, p⟩] := by
  obtain ⟨p, b, rfl, hb⟩ := located_cons h
  rw [List.map_eq_nil_iff.mp hb]
  exact ⟨p, rfl⟩

/-- The lexemes of the text, wherever they stand, form something by the rules `R` in front of
anything. -/
def Reads {T : Type} (R : Rest → T → Rest → Prop) (g : T → Prop) (s : String) : Prop :=
  ∃ ls, Lexes s ls ∧
    ∀ a b : Rest, a.map Located.lexeme = ls → ∃ t, R (a ++ b) t b ∧ g t

section
variable {T U V : Type} {R : Rest → T → Rest → Prop} {R' : Rest → U → Rest → Prop}
variable {S : Rest → V → Rest → Prop} {g : T → Prop} {g' : U → Prop} {f : V → Prop} {s u : String}

/-- What forms something by some rules, forms it by more. -/
theorem Reads.imp (h : Reads R g s)
    (hR : ∀ a b t, R a t b → g t → ∃ t', R' a t' b ∧ g' t') : Reads R' g' s := by
  obtain ⟨ls, hls, hread⟩ := h
  refine ⟨ls, hls, fun a b ha => ?_⟩
  obtain ⟨t, ht, hg⟩ := hread a b ha
  exact hR _ _ t ht hg

/-- What stands before a text is read before its lexemes. -/
theorem Reads.before {c : String} {behind : List Lexeme} (h : Reads R g s) (hc : Lexes c behind)
    (hstops : Stops c)
    (hR : ∀ (a z b : Rest) (t : T), z.map Located.lexeme = behind → R a t (z ++ b) → g t →
      ∃ t', R' a t' b ∧ g' t') : Reads R' g' (s ++ c) := by
  obtain ⟨ls, hls, hread⟩ := h
  refine ⟨ls ++ behind, hls.append hc hstops, fun a b ha => ?_⟩
  obtain ⟨y, z, rfl, hy, hz⟩ := List.map_eq_append_iff.mp ha
  obtain ⟨t, ht, hg⟩ := hread y (z ++ b) hy
  rw [List.append_assoc]
  exact hR _ z b t hz ht hg

/-- What stands between two texts is read between their lexemes. -/
theorem Reads.between {o c : String} {before behind : List Lexeme} (h : Reads R g s)
    (ho : Delimits o before) (hc : Lexes c behind) (hstops : Stops c)
    (hR : ∀ (x a z b : Rest) (t : T), x.map Located.lexeme = before →
      z.map Located.lexeme = behind →
      R a t (z ++ b) → g t → ∃ t', R' (x ++ a) t' b ∧ g' t') : Reads R' g' (o ++ s ++ c) := by
  obtain ⟨ls, hls, hread⟩ := h
  refine ⟨before ++ (ls ++ behind), ?_, fun a b ha => ?_⟩
  · rw [String.append_assoc]
    exact ho.append (hls.append hc hstops)
  · obtain ⟨x, a, rfl, hx, ha⟩ := List.map_eq_append_iff.mp ha
    obtain ⟨y, z, rfl, hy, hz⟩ := List.map_eq_append_iff.mp ha
    obtain ⟨t, ht, hg⟩ := hread y (z ++ b) hy
    rw [List.append_assoc, List.append_assoc]
    exact hR x _ z b t hx hz ht hg

/-- A text in parentheses. -/
theorem Reads.parens {P : Rest → T → Rest → Prop} (h : Reads R g s)
    (hR : ∀ (a b : Rest) (p q : Pos) (t : T), R a t (⟨.mark .closeParen, q⟩ :: b) →
      P (⟨.mark .openParen, p⟩ :: a) t b) : Reads P g ("(" ++ s ++ ")") := by
  have hopen : Delimits "(" [.mark .openParen] := delimits_mark .openParen (by decide +kernel)
  have hstops : Stops ")" := stops_mark .closeParen (by decide +kernel)
  refine h.between hopen (lexes_mark .closeParen) hstops fun x a z b t hx hz ht hg => ?_
  obtain ⟨p, rfl⟩ := located_one hx
  obtain ⟨q, rfl⟩ := located_one hz
  exact ⟨t, hR a b p q t ht, hg⟩

/-- Two texts with a mark between them. -/
theorem Reads.infixed (h : Reads R g s) (h' : Reads R' g' u) (p : Punct)
    (hR : ∀ (a b c : Rest) (q : Pos) (t : T) (t' : U), R a t (⟨.mark p, q⟩ :: b) → R' b t' c → g t →
      g' t' → ∃ v, S a v c ∧ f v) : Reads S f (s ++ " " ++ (p.text ++ " " ++ u)) := by
  obtain ⟨ls, hls, hread⟩ := h
  obtain ⟨ms, hms, hread'⟩ := h'
  have hmark : Lexes (p.text ++ " " ++ u) ([.mark p] ++ ms) := (lexes_mark p).blank.append hms
  refine ⟨ls ++ ([.mark p] ++ ms), hls.blank.append hmark, fun a b ha => ?_⟩
  obtain ⟨x, a, rfl, hx, ha⟩ := List.map_eq_append_iff.mp ha
  obtain ⟨q, y, rfl, hy⟩ := located_cons ha
  obtain ⟨t, ht, hg⟩ := hread x (⟨.mark p, q⟩ :: (y ++ b)) hx
  obtain ⟨t', ht', hg'⟩ := hread' y b hy
  obtain ⟨v, hv, hf⟩ := hR _ _ _ q t t' ht ht' hg hg'
  refine ⟨v, ?_, hf⟩
  rwa [List.append_assoc]

end

/-- A word is its own lexeme. -/
theorem reads_word {x : String} (h : IsWord x) :
    Reads (fun a p b => a = ⟨.word x, p⟩ :: b) (fun _ => True) x := by
  refine ⟨[.word x], h.lexes, fun a b ha => ?_⟩
  obtain ⟨p, rfl⟩ := located_one ha
  exact ⟨p, rfl, trivial⟩

/-- A number is read back, a negative one as a minus and its digits. -/
theorem reads_number {n : Int} (h : n.natAbs ≤ 9223372036854775807) :
    Reads Number (· = n) (toString n) := by
  cases n with
  | ofNat m =>
    refine ⟨[.number (toString m)], lexes_number m, fun a b ha => ?_⟩
    obtain ⟨p, rfl⟩ := located_one ha
    have hvalue := Text.ofDigits_toString m
    refine ⟨_, .plain ?_, ?_⟩
    · rw [hvalue]
      exact h
    · rw [hvalue]
      rfl
  | negSucc m =>
    refine ⟨[.mark .minus, .number (toString (m + 1))], ?_, fun a b ha => ?_⟩
    · have hminus : Delimits "-" [.mark .minus] := delimits_mark .minus (by decide +kernel)
      exact hminus.append (lexes_number (m + 1))
    · obtain ⟨p, c, rfl, hc⟩ := located_cons ha
      obtain ⟨q, rfl⟩ := located_one hc
      have hvalue := Text.ofDigits_toString (m + 1)
      refine ⟨_, .negated ?_, ?_⟩
      · rw [hvalue]
        exact h
      · rw [hvalue]
        rfl

/-! ## Trees that stand for expressions -/

/-- The variables that an expression mentions are declared. -/
def MentionsDeclared (vars : Variables) (e : Expr) : Prop :=
  ∀ x ∈ e.accesses, ∃ i, vars.of x = some i

/-- The tree stands for the expression, and passes the check when its variables are declared. -/
structure Arith.Stands (e : Expr) (t : Arith) : Prop where
  lower : t.lower = e
  check : ∀ vars, MentionsDeclared vars e → t.check vars = .ok ()

/-- The tree stands for the condition, and passes the check when its variables are declared. -/
structure Cond.Stands (e : Expr) (t : Cond) : Prop where
  lower : t.lower = e
  check : ∀ vars, MentionsDeclared vars e → t.check vars = .ok ()

section
variable {vars : Variables} {x y : Expr} {op : Operator}

theorem MentionsDeclared.left (h : MentionsDeclared vars (.node op x y)) :
    MentionsDeclared vars x :=
  fun a ha => h a (List.mem_append_left _ ha)

theorem MentionsDeclared.right (h : MentionsDeclared vars (.node op x y)) :
    MentionsDeclared vars y :=
  fun a ha => h a (List.mem_append_right _ ha)

end

/-- An operator between trees that stand for its operands. -/
theorem Arith.Stands.binary {l r : Arith} {x y : Expr} (hl : l.Stands x) (hr : r.Stands y) (p : Pos)
    (op : ArithOp) : (Arith.binary p (.arith op) l r).Stands (.node (.arith op) x y) where
  lower := by rw [Arith.lower, hl.lower, hr.lower]
  check vars h := by
    rw [Arith.check, hl.check vars h.left, hr.check vars h.right]
    rfl

/-- A relation between trees that stand for its operands. -/
theorem Arith.Stands.rel {l r : Arith} {x y : Expr} (hl : l.Stands x) (hr : r.Stands y) (p : Pos)
    (op : RelOp) : (Cond.rel p (.rel op) l r).Stands (.node (.rel op) x y) where
  lower := by rw [Cond.lower, hl.lower, hr.lower]
  check vars h := by
    rw [Cond.check, hl.check vars h.left, hr.check vars h.right]
    rfl

/-- A connective between trees that stand for its operands. -/
theorem Cond.Stands.logic {l r : Cond} {x y : Expr} (hl : l.Stands x) (hr : r.Stands y) (p : Pos)
    {op : Operator} (hop : op = .and ∨ op = .or) : (Cond.logic p op l r).Stands (.node op x y) where
  lower := by rw [Cond.lower, hl.lower, hr.lower]
  check vars h := by
    rw [Cond.check, hl.check vars h.left, hr.check vars h.right]
    rcases hop with rfl | rfl <;> rfl

/-- A negated tree stands for the negation. -/
theorem Cond.Stands.not {t : Cond} {x : Expr} (h : t.Stands x) (p : Pos) :
    (Cond.not p t).Stands x.negation where
  lower := by rw [Cond.lower, h.lower]
  check vars hvars := by
    rw [Cond.check]
    exact h.check vars hvars.right

theorem Arith.stands_scalar (p : Pos) (x : String) :
    (Arith.access p .scalar x .missing "").Stands (.scalar x) where
  lower := rfl
  check vars h := by
    obtain ⟨i, hi⟩ := h (.scalar x) List.mem_cons_self
    simp only [Arith.check, accessOf, hi]
    rfl

/-- An element, with a tree for its index. -/
theorem Arith.Stands.element {t : Arith} {i : Expr} (h : t.Stands i) (p : Pos) (x : String) :
    (Arith.access p .array x t "").Stands (.element x i none) where
  lower := by
    rw [Arith.lower, h.lower]
    rfl
  check vars hvars := by
    obtain ⟨k, hk⟩ := hvars (.element x i none) List.mem_cons_self
    have hindex := h.check vars fun a ha => hvars a (List.mem_cons_of_mem _ ha)
    simp [Arith.check, accessOf, h.lower, hindex, hk]

/-- A field by its name. -/
theorem Arith.stands_field (p : Pos) (x : String) {f : Selector} (hf : f ≠ .none) :
    (Arith.access p .record x .missing f.name).Stands (.field x f) := by
  have hname : Selector.ofName? f.name = some f := by
    cases f with
    | none => exact absurd rfl hf
    | fst => rfl
    | snd => rfl
  refine ⟨?_, fun vars h => ?_⟩
  · simp [Arith.lower, accessOf, hname, Access.toExpr]
  · obtain ⟨i, hi⟩ := h (.field x f) List.mem_cons_self
    simp only [Arith.check, accessOf, hname, Option.getD_some, hi]
    rfl

theorem Arith.stands_num (p : Pos) (n : Int) : (Arith.num p n).Stands (.literal n) :=
  ⟨rfl, fun _ _ => rfl⟩

/-! ## Arithmetic -/

/-- The text is read as an expression of a level. -/
def ReadsArith (l : ArithLevel) (s : String) (e : Expr) : Prop :=
  Reads (Expression l) (·.Stands e) s

/-- The name of a variable. -/
structure IsName (x : String) : Prop where
  word : IsWord x
  free : x ∉ keywords

section
variable {s u : String} {e l r i : Expr} {x : String} {op : ArithOp} {p : Punct}

theorem ReadsArith.factor (h : ReadsArith .place s e) : ReadsArith .factor s e :=
  h.imp fun _ _ t ht hg => ⟨t, .access ht, hg⟩

theorem ReadsArith.product (h : ReadsArith .factor s e) : ReadsArith .product s e :=
  h.imp fun _ _ t ht hg => ⟨t, .one ht, hg⟩

theorem ReadsArith.sum (h : ReadsArith .product s e) : ReadsArith .sum s e :=
  h.imp fun _ _ t ht hg => ⟨t, .single ht, hg⟩

theorem ReadsArith.parens (h : ReadsArith .sum s e) : ReadsArith .factor ("(" ++ s ++ ")") e :=
  Reads.parens h fun _ _ _ _ _ ht => .parens ht

/-- Two factors with a sign between them. -/
theorem ReadsArith.times (hl : ReadsArith .product s l) (hr : ReadsArith .factor u r)
    (hp : ProductSign (.mark p) op) :
    ReadsArith .product (s ++ " " ++ (op.symbol ++ " " ++ u)) (.node (.arith op) l r) := by
  have hsymbol : op.symbol = p.text := by cases hp <;> rfl
  rw [hsymbol]
  exact hl.infixed hr p fun _ _ _ q t t' ht ht' hg hg' =>
    ⟨.binary q (.arith op) t t', .times ht hp ht', hg.binary hg' q op⟩

/-- Two products with a sign between them. -/
theorem ReadsArith.plus (hl : ReadsArith .sum s l) (hr : ReadsArith .product u r)
    (hp : SumSign (.mark p) op) :
    ReadsArith .sum (s ++ " " ++ (op.symbol ++ " " ++ u)) (.node (.arith op) l r) := by
  have hsymbol : op.symbol = p.text := by cases hp <;> rfl
  rw [hsymbol]
  exact hl.infixed hr p fun _ _ _ q t t' ht ht' hg hg' =>
    ⟨.binary q (.arith op) t t', .plus ht hp ht', hg.binary hg' q op⟩

/-- A literal is a factor. -/
theorem readsArith_literal {n : Int} (h : n.natAbs ≤ 9223372036854775807) :
    ReadsArith .factor (toString n) (.literal n) := by
  refine (reads_number h).imp fun a b m hm hn => ?_
  subst hn
  have hnumber : ∃ t c, a = t :: c := by
    cases hm with
    | plain => exact ⟨_, _, rfl⟩
    | negated => exact ⟨_, _, rfl⟩
  obtain ⟨t, c, rfl⟩ := hnumber
  exact ⟨.num t.pos m, .number hm, Arith.stands_num _ m⟩

theorem readsArith_scalar (h : IsName x) : ReadsArith .place x (.scalar x) := by
  refine (reads_word h.word).imp fun a b p ha _ => ?_
  subst ha
  exact ⟨_, .scalar h.free, Arith.stands_scalar p x⟩

/-- A name with an index in brackets is a place. -/
theorem ReadsArith.element (h : ReadsArith .sum s i) (hx : IsName x) :
    ReadsArith .place (x ++ "[" ++ s ++ "]") (.element x i none) := by
  have hopen : Delimits (x ++ "[") ([.word x] ++ [.mark .openBracket]) :=
    hx.word.lexes.append_delimits (delimits_mark .openBracket (by decide +kernel))
      (stops_mark .openBracket (by decide +kernel))
  have hstops : Stops "]" := stops_mark .closeBracket (by decide +kernel)
  refine h.between hopen (lexes_mark .closeBracket) hstops fun a y z b t ha hz ht hg => ?_
  obtain ⟨p, c, rfl, hc⟩ := located_cons ha
  obtain ⟨q, rfl⟩ := located_one hc
  obtain ⟨r, rfl⟩ := located_one hz
  exact ⟨_, .element hx.free ht, hg.element p x⟩

/-- A name with a field is a place. -/
theorem readsArith_field (hx : IsName x) {f : Selector} (hf : f ≠ .none) :
    ReadsArith .place (x ++ "." ++ f.name) (.field x f) := by
  have hword : IsWord f.name := by
    cases f with
    | none => exact absurd rfl hf
    | fst | snd => exact isWord_of_bytes (by decide +kernel)
  have hopen : Delimits (x ++ ".") ([.word x] ++ [.mark .dot]) :=
    hx.word.lexes.append_delimits (delimits_mark .dot (by decide +kernel))
      (stops_mark .dot (by decide +kernel))
  refine ⟨_, hopen.append hword.lexes, fun a b ha => ?_⟩
  obtain ⟨p, c, rfl, hc⟩ := located_cons ha
  obtain ⟨q, d, rfl, hd⟩ := located_cons hc
  obtain ⟨r, rfl⟩ := located_one hd
  exact ⟨_, .field hx.free, Arith.stands_field p x hf⟩

end

/-- Arithmetic with names and numbers that can be written. -/
inductive Legible : Expr → Prop
  | literal {n : Int} (small : n.natAbs ≤ 9223372036854775807) : Legible (.literal n)
  | scalar {x : String} (name : IsName x) : Legible (.scalar x)
  | element {x : String} {i : Expr} (name : IsName x) (index : Legible i) :
      Legible (.element x i none)
  | field {x : String} {f : Selector} (name : IsName x) (selects : f ≠ .none) : Legible (.field x f)
  | node {op : ArithOp} {l r : Expr} (left : Legible l) (right : Legible r) :
      Legible (.node (.arith op) l r)

theorem Legible.ne_missing {e : Expr} (h : Legible e) : e ≠ .missing := by
  cases h <;> nofun

/-- A legible expression has words in all its parts. -/
theorem Legible.solid {e : Expr} (h : Legible e) : Word.Solid e.words := by
  induction h with
  | literal | scalar | field => exact Word.solid_text _
  | @element x i _ hi _ =>
    cases i with
    | missing => exact absurd rfl hi.ne_missing
    | _ => exact Word.solid_text _
  | node _ _ ihl ihr => exact Expr.solid_node (by simp) ihl ihr

/-- The level of expressions that hold together as tightly. -/
def levelOf (binding : Nat) : ArithLevel :=
  if 7 ≤ binding then .factor else if 6 ≤ binding then .product else .sum

section
variable {n : Nat} {s : String} {e : Expr} {needed : Bool}

/-- Any operand is a sum, in parentheses or not. -/
theorem ReadsArith.enclosed_sum (h : ReadsArith (levelOf n) s e) (needed : Bool) :
    ReadsArith .sum (Expr.enclosed needed s) e := by
  have hsum : ReadsArith .sum s e := by
    unfold levelOf at h
    split at h
    · exact h.product.sum
    · split at h
      · exact h.sum
      · exact h
  cases needed with
  | false => exact hsum
  | true => exact hsum.parens.product.sum

/-- An operand is a product if it binds as products do or stands in parentheses. -/
theorem ReadsArith.enclosed_product (h : ReadsArith (levelOf n) s e) (hn : needed = false → 6 ≤ n) :
    ReadsArith .product (Expr.enclosed needed s) e := by
  cases needed with
  | true => exact (h.enclosed_sum false).parens.product
  | false =>
    unfold levelOf at h
    split at h
    · exact h.product
    · rw [if_pos (hn rfl)] at h
      exact h

/-- An operand is a factor if nothing in it is open or it stands in parentheses. -/
theorem ReadsArith.enclosed_factor (h : ReadsArith (levelOf n) s e) (hn : needed = false → 7 ≤ n) :
    ReadsArith .factor (Expr.enclosed needed s) e := by
  cases needed with
  | true => exact (h.enclosed_sum false).parens
  | false =>
    unfold levelOf at h
    rw [if_pos (hn rfl)] at h
    exact h

end

/-- The text of an expression is read back, at the level of its root. -/
theorem Legible.reads {e : Expr} (h : Legible e) : ReadsArith (levelOf e.binding) e.text e := by
  induction h with
  | literal hn =>
    rw [Expr.text_word rfl]
    exact readsArith_literal hn
  | scalar hx =>
    rw [Expr.text_word rfl]
    exact (readsArith_scalar hx).factor
  | element hx hi ih =>
    rw [Expr.text_element _ hi.ne_missing]
    exact (ReadsArith.element (ih.enclosed_sum false) hx).factor
  | field hx hf =>
    rw [Expr.text_word rfl]
    exact (readsArith_field hx hf).factor
  | @node op l r hl hr ihl ihr =>
    have hop : Operator.arith op ≠ .not := by simp
    rw [Expr.text_node hop hl.solid hr.solid]
    -- what is not in parentheses on the left holds together as tightly as the operator, and what is
    -- not in parentheses on the right more tightly
    have hleft : ∀ {k n : Nat}, decide (n < k) = false → k ≤ n := by simp
    have hright : ∀ {k n : Nat}, decide (n ≤ k) = false → k < n := by simp
    cases op with
    | add => exact (ihl.enclosed_sum _).plus (ihr.enclosed_product hright) .plus
    | sub => exact (ihl.enclosed_sum _).plus (ihr.enclosed_product hright) .minus
    | mul => exact (ihl.enclosed_product hleft).times (ihr.enclosed_factor hright) .star
    | div => exact (ihl.enclosed_product hleft).times (ihr.enclosed_factor hright) .slash
    | mod => exact (ihl.enclosed_product hleft).times (ihr.enclosed_factor hright) .percent

/-! ## Conditions -/

/-- The text is read as a condition of a level. -/
def ReadsCond (l : CondLevel) (s : String) (e : Expr) : Prop := Reads (Condition l) (·.Stands e) s

/-- Conditions over legible arithmetic. -/
inductive LegibleCond : Expr → Prop
  | truth {b : Bool} : LegibleCond (.truth b)
  | rel {op : RelOp} {l r : Expr} (left : Legible l) (right : Legible r) :
      LegibleCond (.node (.rel op) l r)
  | and {l r : Expr} (left : LegibleCond l) (right : LegibleCond r) : LegibleCond (.node .and l r)
  | or {l r : Expr} (left : LegibleCond l) (right : LegibleCond r) : LegibleCond (.node .or l r)
  | not {e : Expr} (operand : LegibleCond e) : LegibleCond e.negation

theorem LegibleCond.solid {e : Expr} (h : LegibleCond e) : Word.Solid e.words := by
  induction h with
  | truth => exact Word.solid_text _
  | rel hl hr => exact Expr.solid_node (by simp) hl.solid hr.solid
  | and _ _ ihl ihr | or _ _ ihl ihr => exact Expr.solid_node (by simp) ihl ihr
  | not _ ih => exact Expr.solid_negation ih

section
variable {s u : String} {e l r : Expr}

theorem ReadsCond.negation (h : ReadsCond .primary s e) : ReadsCond .negation s e :=
  h.imp fun _ _ t ht hg => ⟨t, .plain ht, hg⟩

theorem ReadsCond.conjunction (h : ReadsCond .negation s e) : ReadsCond .conjunction s e :=
  h.imp fun _ _ t ht hg => ⟨t, .one ht, hg⟩

theorem ReadsCond.disjunction (h : ReadsCond .conjunction s e) : ReadsCond .disjunction s e :=
  h.imp fun _ _ t ht hg => ⟨t, .single ht, hg⟩

theorem ReadsCond.parens (h : ReadsCond .disjunction s e) :
    ReadsCond .primary ("(" ++ s ++ ")") e :=
  Reads.parens h fun _ _ _ _ _ ht => .parens ht

/-- A truth value is a condition. -/
theorem readsCond_truth (b : Bool) :
    ReadsCond .primary (if b then "true" else "false") (.truth b) := by
  cases b with
  | true =>
    refine (reads_word (isWord_of_bytes (by decide +kernel))).imp fun a c p ha _ => ?_
    subst ha
    exact ⟨_, .yes, rfl, fun _ _ => rfl⟩
  | false =>
    refine (reads_word (isWord_of_bytes (by decide +kernel))).imp fun a c p ha _ => ?_
    subst ha
    exact ⟨_, .no, rfl, fun _ _ => rfl⟩

/-- Two sums with a relation sign between them. -/
theorem ReadsArith.relation {p : Punct} {op : RelOp} (hl : ReadsArith .sum s l)
    (hr : ReadsArith .sum u r) (hp : RelSign (.mark p) op) :
    ReadsCond .primary (s ++ " " ++ (op.symbol ++ " " ++ u)) (.node (.rel op) l r) := by
  have hsymbol : op.symbol = p.text := by cases hp <;> rfl
  rw [hsymbol]
  exact hl.infixed hr p fun _ _ _ q t t' ht ht' hg hg' =>
    ⟨.rel q (.rel op) t t', .relation ht hp ht', hg.rel hg' q op⟩

/-- Two conditions with `&` between them. -/
theorem ReadsCond.and (hl : ReadsCond .conjunction s l) (hr : ReadsCond .negation u r) :
    ReadsCond .conjunction (s ++ " " ++ ("&" ++ " " ++ u)) (.node .and l r) :=
  Reads.infixed hl hr .amp fun _ _ _ q t t' ht ht' hg hg' =>
    ⟨.logic q .and t t', .and ht ht', hg.logic hg' q (.inl rfl)⟩

/-- Two conditions with `|` between them. -/
theorem ReadsCond.or (hl : ReadsCond .disjunction s l) (hr : ReadsCond .conjunction u r) :
    ReadsCond .disjunction (s ++ " " ++ ("|" ++ " " ++ u)) (.node .or l r) :=
  Reads.infixed hl hr .bar fun _ _ _ q t t' ht ht' hg hg' =>
    ⟨.logic q .or t t', .or ht ht', hg.logic hg' q (.inr rfl)⟩

/-- A condition behind `not`. -/
theorem ReadsCond.not (h : ReadsCond .negation s e) :
    ReadsCond .negation ("not" ++ " " ++ s) e.negation := by
  obtain ⟨ls, hls, hread⟩ := h
  have hword : IsWord "not" := isWord_of_bytes (by decide +kernel)
  refine ⟨_, hword.lexes.blank.append hls, fun a b ha => ?_⟩
  obtain ⟨p, c, rfl, hc⟩ := located_cons ha
  obtain ⟨t, ht, hg⟩ := hread c b hc
  exact ⟨.not p t, .not ht, hg.not p⟩

end

/-- The level of conditions that hold together as tightly. -/
def condLevelOf (binding : Nat) : CondLevel :=
  if 4 ≤ binding then .primary else if 3 ≤ binding then .negation
  else if 2 ≤ binding then .conjunction else .disjunction

section
variable {n : Nat} {s : String} {e : Expr} {needed : Bool}

/-- Any condition is a disjunction, in parentheses or not. -/
theorem ReadsCond.enclosed_disjunction (h : ReadsCond (condLevelOf n) s e) (needed : Bool) :
    ReadsCond .disjunction (Expr.enclosed needed s) e := by
  have hdisjunction : ReadsCond .disjunction s e := by
    unfold condLevelOf at h
    split at h
    · exact h.negation.conjunction.disjunction
    · split at h
      · exact h.conjunction.disjunction
      · split at h
        · exact h.disjunction
        · exact h
  cases needed with
  | false => exact hdisjunction
  | true => exact hdisjunction.parens.negation.conjunction.disjunction

/-- A condition that binds as `&` does, or stands in parentheses. -/
theorem ReadsCond.enclosed_conjunction (h : ReadsCond (condLevelOf n) s e)
    (hn : needed = false → 2 ≤ n) : ReadsCond .conjunction (Expr.enclosed needed s) e := by
  cases needed with
  | true => exact (h.enclosed_disjunction false).parens.negation.conjunction
  | false =>
    unfold condLevelOf at h
    split at h
    · exact h.negation.conjunction
    · split at h
      · exact h.conjunction
      · rw [if_pos (hn rfl)] at h
        exact h

/-- A condition that binds as `not` does, or stands in parentheses. -/
theorem ReadsCond.enclosed_negation (h : ReadsCond (condLevelOf n) s e)
    (hn : needed = false → 3 ≤ n) :
    ReadsCond .negation (Expr.enclosed needed s) e := by
  cases needed with
  | true => exact (h.enclosed_disjunction false).parens.negation
  | false =>
    unfold condLevelOf at h
    split at h
    · exact h.negation
    · rw [if_pos (hn rfl)] at h
      exact h

end

/-- The text of a condition is read back, at the level of its root. -/
theorem LegibleCond.reads {e : Expr} (h : LegibleCond e) :
    ReadsCond (condLevelOf e.binding) e.text e := by
  have hleft : ∀ {k n : Nat}, decide (n < k) = false → k ≤ n := by simp
  have hright : ∀ {k n : Nat}, decide (n ≤ k) = false → k < n := by simp
  induction h with
  | truth =>
    rw [Expr.text_word rfl]
    exact readsCond_truth _
  | @rel op l r hl hr =>
    have hop : Operator.rel op ≠ .not := by simp
    rw [Expr.text_node hop hl.solid hr.solid]
    -- both sides are arithmetic, which binds more tightly than any relation
    have hl := hl.reads.enclosed_sum (decide (l.binding < (Operator.rel op).precedence))
    have hr := hr.reads.enclosed_sum (decide (r.binding ≤ (Operator.rel op).precedence))
    cases op with
    | lt => exact hl.relation hr .lt
    | gt => exact hl.relation hr .gt
    | le => exact hl.relation hr .le
    | ge => exact hl.relation hr .ge
    | eq => exact hl.relation hr .eq
    | ne => exact hl.relation hr .ne
  | and hl hr ihl ihr =>
    rw [Expr.text_node (by decide) hl.solid hr.solid]
    exact (ihl.enclosed_conjunction hleft).and (ihr.enclosed_negation hright)
  | or hl hr ihl ihr =>
    rw [Expr.text_node (by decide) hl.solid hr.solid]
    exact (ihl.enclosed_disjunction _).or (ihr.enclosed_conjunction hright)
  | not h ih =>
    rw [Expr.text_negation h.solid]
    exact (ih.enclosed_negation hleft).not

end MicroFlow.Source
