import MicroFlow.Proofs.Lowering.Accepted
import MicroFlow.Proofs.Source.Parse
import MicroFlow.Proofs.Source.Printed
import MicroFlow.Proofs.Source.Written

/-!
# Actions are read back from their texts

What is printed for an action of a built graph is a text of the language.  With a semicolon behind
it, the text of an assignment, read, write or declaration is a single item that is laid out as the
same action; the text of a guard is a condition that stands for the same expression.  The item is
accepted with the variables that are declared on the edges before.
-/

namespace MicroFlow

variable {vars : Variables} {p : Pos} {a b : Rest} {n : Int} {x : Place} {e : Expr}

namespace Source

open Grammar

/-! ## What was read can be written -/

/-- If the lexeme is a word, it is one of letters and digits. -/
def Located.Clean (t : Located) : Prop := ∀ w, t.lexeme = .word w → IsWord w

theorem Arith.check_binary {op : ArithOp} {l r : Arith}
    (h : (Arith.binary p (.arith op) l r).check vars = .ok ()) :
    l.check vars = .ok () ∧ r.check vars = .ok () := by
  rw [Arith.check] at h
  exact check_bind_eq_ok.mp h

/-- Numbers that were read fit into a word. -/
theorem Grammar.Number.small (h : Number a n b) : n.natAbs ≤ 9223372036854775807 := by
  cases h with
  | plain hsmall => exact hsmall
  | negated hsmall =>
    rw [Int.natAbs_neg]
    exact hsmall

theorem Selector.ne_none {name : String} {f : Selector} (h : Selector.ofName? name = some f) :
    f ≠ .none := by
  unfold Selector.ofName? at h
  split at h <;> cases h <;> decide

/-- What was read from a text can be written. -/
theorem Grammar.Expression.legible {l : ArithLevel} {t : Arith} (h : Expression l a t b)
    (good : ∀ t ∈ a, t.Clean) (hcheck : t.check vars = .ok ()) :
    Legible t.lower := by
  induction h with
  | scalar hx => exact .scalar ⟨good _ List.mem_cons_self _ rfl, hx⟩
  | element hx _ ih =>
    obtain ⟨-, hindex, -⟩ := Arith.access_of_check hcheck
    refine .element ⟨good _ List.mem_cons_self _ rfl, hx⟩ (ih (fun t ht => ?_) (hindex rfl))
    exact good t (List.mem_cons_of_mem _ (List.mem_cons_of_mem _ ht))
  | @field x f p q r b hx =>
    obtain ⟨-, -, hfield, -⟩ := Arith.access_of_check hcheck
    obtain ⟨selector, hselector⟩ := Option.isSome_iff_exists.mp (hfield rfl)
    have hlower : (Arith.access p .record x .missing f).lower = .field x selector := by
      simp only [Arith.lower, accessOf, hselector, Option.getD_some, Access.toExpr]
    rw [hlower]
    exact .field ⟨good _ List.mem_cons_self _ rfl, hx⟩ (Selector.ne_none hselector)
  | number hn => exact .literal hn.small
  | access _ ih => exact ih good hcheck
  | parens _ ih => exact ih (fun t ht => good t (List.mem_cons_of_mem _ ht)) hcheck
  | one _ ih => exact ih good hcheck
  | single _ ih => exact ih good hcheck
  | times hl _ _ ihl ihr | plus hl _ _ ihl ihr =>
    obtain ⟨hcl, hcr⟩ := Arith.check_binary hcheck
    exact .node (ihl good hcl) (ihr (hl.behind.tail.good good) hcr)

/-- The same for conditions. -/
theorem Grammar.Condition.legible {l : CondLevel} {a b : Rest} {t : Cond} (h : Condition l a t b)
    {vars : Variables} (good : ∀ t ∈ a, t.Clean) (hcheck : t.check vars = .ok ()) :
    LegibleCond t.lower := by
  induction h with
  | yes => exact .truth
  | no => exact .truth
  | parens _ ih => exact ih (fun t ht => good t (List.mem_cons_of_mem _ ht)) hcheck
  | relation hl _ hr =>
    rw [Cond.check] at hcheck
    obtain ⟨hcl, hcr⟩ := check_bind_eq_ok.mp hcheck
    exact .rel (hl.legible good hcl) (hr.legible (hl.behind.tail.good good) hcr)
  | plain _ ih => exact ih good hcheck
  | not _ ih => exact .not (ih (fun t ht => good t (List.mem_cons_of_mem _ ht)) hcheck)
  | one _ ih => exact ih good hcheck
  | single _ ih => exact ih good hcheck
  | and hl _ ihl ihr =>
    rw [Cond.check] at hcheck
    obtain ⟨hcl, hcr⟩ := check_bind_eq_ok.mp hcheck
    exact .and (ihl good hcl) (ihr (hl.behind.tail.good good) hcr)
  | or hl _ ihl ihr =>
    rw [Cond.check] at hcheck
    obtain ⟨hcl, hcr⟩ := check_bind_eq_ok.mp hcheck
    exact .or (ihl good hcl) (ihr (hl.behind.tail.good good) hcr)

/-! ## Texts of statements and declarations -/

/-- The target stands for the access. -/
def Place.Stands (a : Access) (x : Place) : Prop := x.toArith.Stands a.toExpr

theorem Access.toExpr_inj {a b : Access} (h : a.toExpr = b.toExpr) : a = b := by
  cases a <;> cases b <;> cases h <;> rfl

theorem Place.Stands.lower_eq {a : Access} (h : x.Stands a) : x.lower = a := by
  have hlower : x.toArith.lower = a.toExpr := Arith.Stands.lower h
  exact Access.toExpr_inj hlower

/-- The text of an access is a place. -/
theorem reads_place {a : Access} (h : Legible a.toExpr) :
    Reads (fun b (x : Place) c => Expression .place b x.toArith c) (·.Stands a) a.text := by
  have hplace : ReadsArith .place a.toExpr.text a.toExpr := by
    cases a with
    | scalar x =>
      cases h with
      | scalar hx =>
        rw [Access.toExpr, Expr.text_word rfl]
        exact readsArith_scalar hx
    | element x i layout =>
      cases h with
      | element hx hi =>
        rw [Access.toExpr, Expr.text_element _ hi.ne_missing]
        exact ReadsArith.element (hi.reads.enclosed_sum false) hx
    | field x f =>
      cases h with
      | field hx hf =>
        rw [Access.toExpr, Expr.text_word rfl]
        exact readsArith_field hx hf
    | odd x => cases h
  refine hplace.imp fun b c t ht hg => ?_
  cases ht with
  | @scalar x p _ hx => exact ⟨⟨p, .scalar, x, .missing, ""⟩, .scalar hx, hg⟩
  | @element x p _ _ _ _ i hx hi => exact ⟨⟨p, .array, x, i, ""⟩, .element hx hi, hg⟩
  | @field x f p _ _ _ hx => exact ⟨⟨p, .record, x, .missing, f⟩, .field hx, hg⟩

theorem stops_semicolon : Stops ";" := stops_mark .semicolon (by decide +kernel)

/-- The text of a write is a statement. -/
theorem reads_write (h : Legible e) :
    Reads Statement (fun s => ∃ p t, s = .write p t ∧ t.Stands e)
    ("write" ++ " " ++ e.text ++ ";") := by
  have hword : IsWord "write" := isWord_of_bytes (by decide +kernel)
  refine (h.reads.enclosed_sum false).between hword.lexes.blank (lexes_mark .semicolon)
    stops_semicolon fun x y z b t hx hz ht hg => ?_
  obtain ⟨p, rfl⟩ := located_one hx
  obtain ⟨q, rfl⟩ := located_one hz
  exact ⟨.write p t, .write ht, p, t, rfl, hg⟩

/-- So is that of a read. -/
theorem reads_read {a : Access} (h : Legible a.toExpr) :
    Reads Statement (fun s => ∃ p x, s = .read p (some x) ∧ x.Stands a)
      ("read" ++ " " ++ a.text ++ ";") := by
  have hword : IsWord "read" := isWord_of_bytes (by decide +kernel)
  refine (reads_place h).between hword.lexes.blank (lexes_mark .semicolon) stops_semicolon
    fun x y z b t hx hz ht hg => ?_
  obtain ⟨p, rfl⟩ := located_one hx
  obtain ⟨q, rfl⟩ := located_one hz
  exact ⟨.read p (some t), .read ht, p, t, rfl, hg⟩

/-- And that of an assignment. -/
theorem reads_assign {a : Access} (ha : Legible a.toExpr) (he : Legible e) :
    Reads Statement (fun s => ∃ p x t, s = .assign p (some x) t ∧ x.Stands a ∧ t.Stands e)
      (a.text ++ " " ++ (":=" ++ " " ++ e.text) ++ ";") := by
  have hboth : Reads
      (fun b (v : Place × Arith) d => ∃ p c,
        Expression .place b v.1.toArith (⟨.mark .assign, p⟩ :: c) ∧ Expression .sum c v.2 d)
      (fun v => v.1.Stands a ∧ v.2.Stands e) (a.text ++ " " ++ (":=" ++ " " ++ e.text)) :=
    (reads_place ha).infixed (he.reads.enclosed_sum false) .assign
      fun b c d p x t hx ht hg hg' => ⟨(x, t), ⟨p, c, hx, ht⟩, hg, hg'⟩
  refine hboth.before (lexes_mark .semicolon) stops_semicolon fun b z c v hz hv hg => ?_
  obtain ⟨x, t⟩ := v
  obtain ⟨p, d, hx, ht⟩ := hv
  obtain ⟨q, rfl⟩ := located_one hz
  obtain ⟨b, rfl, -⟩ := hx.place_starts
  exact ⟨_, .assign hx ht, _, x, t, rfl, hg⟩

/-- The text of a guard is the condition of a branch. -/
theorem reads_guard (h : LegibleCond e) : Reads Statement
      (fun s => ∃ p c q r, s = .ifThen p c (.cons (.write q (.num r 0)) .nil) ∧ c.Stands e)
      ("if (" ++ e.text ++ ") \x7b write 0; \x7d") := by
  have hif : IsWord "if" := isWord_of_bytes (by decide +kernel)
  have hwrite : IsWord "write" := isWord_of_bytes (by decide +kernel)
  have ho : Delimits "if (" [.word "if", .mark .openParen] :=
    hif.lexes.blank.append_delimits (delimits_mark .openParen (by decide +kernel))
  have hc : Lexes ") \x7b write 0; \x7d" [.mark .closeParen, .mark .openBrace, .word "write",
      .number "0", .mark .semicolon, .mark .closeBrace] :=
    (lexes_mark .closeParen).blank.append <| (lexes_mark .openBrace).blank.append <|
      hwrite.lexes.blank.append <| (lexes_number 0).append
        ((lexes_mark .semicolon).blank.append (lexes_mark .closeBrace))
          ((stops_semicolon.append " ").append _)
  have hstops : Stops ") \x7b write 0; \x7d" :=
    (stops_mark .closeParen (by decide +kernel)).append " \x7b write 0; \x7d"
  refine (h.reads.enclosed_disjunction false).between ho hc hstops fun x a z b t hx hz ht hg => ?_
  obtain ⟨p, x₁, rfl, hx₁⟩ := located_cons hx
  obtain ⟨_, rfl⟩ := located_one hx₁
  obtain ⟨_, z₁, rfl, hz₁⟩ := located_cons hz
  obtain ⟨_, z₂, rfl, hz₂⟩ := located_cons hz₁
  obtain ⟨q, z₃, rfl, hz₃⟩ := located_cons hz₂
  obtain ⟨r, z₄, rfl, hz₄⟩ := located_cons hz₃
  obtain ⟨u, z₅, rfl, hz₅⟩ := located_cons hz₄
  obtain ⟨v, rfl⟩ := located_one hz₅
  have hzero : ∀ b, Number (⟨.number "0", r⟩ :: b) 0 b := fun b => by
    have hplain : Number (⟨.number (toString 0), r⟩ :: b) (Text.ofDigits (toString 0).toList) b :=
      .plain (by rw [Text.ofDigits_toString]; decide)
    rwa [Text.ofDigits_toString] at hplain
  have hvalue : Expression .sum (⟨.number "0", r⟩ :: ⟨.mark .semicolon, u⟩ ::
    ⟨.mark .closeBrace, v⟩ :: b)
      (.num r 0) (⟨.mark .semicolon, u⟩ :: ⟨.mark .closeBrace, v⟩ :: b) :=
    .single (.one (.number (hzero _)))
  exact ⟨_, .ifThen (.parens ht) (.braces (.cons (.write hvalue) .nil)), p, t, q, r, rfl, hg⟩

/-- The item declares a variable of this shape, name and length. -/
def Item.Declares (shape : Shape) (x : String) (n : Int) (i : Item) : Prop :=
  ∃ p, i = .declare p shape x n

/-- The text of a declaration declares the same. -/
theorem reads_declaration {shape : Shape} {x : String}
    (h : Grammar.Declaration a (.declare p shape x n) b) (good : ∀ t ∈ a, t.Clean) :
    Reads Grammar.Declaration (·.Declares shape x n) ((declarationOf shape x n).text ++ ";") := by
  have hint : IsWord "int" := isWord_of_bytes (by decide +kernel)
  cases h with
  | scalar hx =>
    -- the name was a lexeme, so that it can stand in a text again
    have hname : IsWord x := good _ (List.mem_cons_of_mem _ List.mem_cons_self) _ rfl
    refine (reads_word hname).between hint.lexes.blank (lexes_mark .semicolon) stops_semicolon
      fun y a z b q hy hz ha _ => ?_
    obtain ⟨p, rfl⟩ := located_one hy
    obtain ⟨r, rfl⟩ := located_one hz
    subst ha
    exact ⟨_, .scalar hx, p, rfl⟩
  | array hx hn =>
    have hname : IsWord x :=
      hn.behind.tail.good
        (fun t ht => good t (List.mem_cons_of_mem _ (List.mem_cons_of_mem _ ht))) _
        List.mem_cons_self _ rfl
    have ho : Delimits "int[" [.word "int", .mark .openBracket] :=
      hint.lexes.append_delimits (delimits_mark .openBracket (by decide +kernel))
        (stops_mark .openBracket (by decide +kernel))
    have hc : Lexes ("]" ++ " " ++ (x ++ ";")) [.mark .closeBracket, .word x, .mark .semicolon] :=
      (lexes_mark .closeBracket).blank.append
        (hname.lexes.append (lexes_mark .semicolon) stops_semicolon)
    have hstops : Stops ("]" ++ " " ++ (x ++ ";")) :=
      ((stops_mark .closeBracket (by decide +kernel)).append " ").append _
    have htext : (declarationOf .array x n).text ++ ";" =
        "int[" ++ toString n ++ ("]" ++ " " ++ (x ++ ";")) := by
      show "int[" ++ toString n ++ ("]" ++ " ") ++ x ++ ";" = _
      simp only [String.append_assoc]
    rw [htext]
    refine (reads_number hn.small).between ho hc hstops fun y a z b m hy hz hm hmn => ?_
    obtain ⟨p, y₁, rfl, hy₁⟩ := located_cons hy
    obtain ⟨_, rfl⟩ := located_one hy₁
    obtain ⟨_, z₁, rfl, hz₁⟩ := located_cons hz
    obtain ⟨_, z₂, rfl, hz₂⟩ := located_cons hz₁
    obtain ⟨_, rfl⟩ := located_one hz₂
    subst hmn
    exact ⟨_, .array hx hm, p, rfl⟩
  | @record _ _ _ _ _ _ _ _ q _ _ hx =>
    have hname : IsWord x := good ⟨.word x, q⟩ (by simp) x rfl
    have hfst : IsWord "fst" := isWord_of_bytes (by decide +kernel)
    have hsnd : IsWord "snd" := isWord_of_bytes (by decide +kernel)
    have ho : Delimits "\x7bint fst; int snd\x7d " [.mark .openBrace, .word "int", .word "fst",
        .mark .semicolon, .word "int", .word "snd", .mark .closeBrace] :=
      (delimits_mark .openBrace (by decide +kernel)).append_delimits <|
        hint.lexes.blank.append_delimits <|
          (hfst.lexes.append (lexes_mark .semicolon) stops_semicolon).blank.append_delimits <|
            hint.lexes.blank.append_delimits <|
              (hsnd.lexes.append (lexes_mark .closeBrace)
                (stops_mark .closeBrace (by decide +kernel))).blank
    refine (reads_word hname).between ho (lexes_mark .semicolon) stops_semicolon
      fun y a z b q hy hz ha _ => ?_
    obtain ⟨p, y₁, rfl, hy₁⟩ := located_cons hy
    obtain ⟨_, y₂, rfl, hy₂⟩ := located_cons hy₁
    obtain ⟨_, y₃, rfl, hy₃⟩ := located_cons hy₂
    obtain ⟨_, y₄, rfl, hy₄⟩ := located_cons hy₃
    obtain ⟨_, y₅, rfl, hy₅⟩ := located_cons hy₄
    obtain ⟨_, y₆, rfl, hy₆⟩ := located_cons hy₅
    obtain ⟨_, rfl⟩ := located_one hy₆
    obtain ⟨r, rfl⟩ := located_one hz
    subst ha
    exact ⟨_, .record hx, p, rfl⟩

/-! ## Reading actions back -/

/-- A text that is read alone is a program of one item. -/
theorem parse_of_reads {T : Type} {R : Rest → T → Rest → Prop} {g : T → Prop} {s : String}
    {item : T → Item} (h : Reads R g s) (hR : ∀ a t, R a t [] → Derives a [item t]) :
    ∃ t, parse (Text.toBytes s) = .ok [item t] ∧ g t := by
  obtain ⟨ls, hls, hread⟩ := h
  obtain ⟨l, hlex, hlexemes⟩ := hls.lex
  obtain ⟨t, ht, hg⟩ := hread l.lexemes [] hlexemes
  rw [List.append_nil] at ht
  exact ⟨t, parse_of_derives hlex (hR _ t ht), hg⟩

theorem parse_of_reads_statement {g : Stmt → Prop} {s : String} (h : Reads Statement g s) :
    ∃ t, parse (Text.toBytes s) = .ok [.stmt t] ∧ g t :=
  parse_of_reads h fun _ _ ht => .statement ht .nil

end Source

open Source

/-- The text is read as a single item, which is accepted with these variables and laid out as the
action. -/
def Action.IsItem (scope : Variables) (a : Action) (text : String) : Prop :=
  ∃ i vars, parse (Text.toBytes (text ++ ";")) = .ok [i] ∧ i.check scope = .ok vars ∧
    ∀ source next, i.lower source next = single source none next a

/-- The text is read as the condition of a statement, which is accepted with these variables and
stands for the guard. -/
def Action.IsGuard (scope : Variables) (a : Action) (text : String) : Prop :=
  ∃ p c q r, parse (Text.toBytes ("if (" ++ text ++ ") \x7b write 0; \x7d")) =
      .ok [.stmt (.ifThen p c (.cons (.write q (.num r 0)) .nil))] ∧
    (Stmt.ifThen p c (.cons (.write q (.num r 0)) .nil)).check scope = .ok () ∧ c.lower = a.guard

/-- The action is read back from its text. -/
def Action.ReadsBack (scope : Variables) (a : Action) : Prop :=
  ∃ text, a.text? = some text ∧
    if a.kind = .boolean then a.IsGuard scope text else a.IsItem scope text

namespace Source

open Grammar

variable {scope : Variables}

/-- An assignment is read back. -/
theorem Part.readsBack_assign {e : Arith} {c d : Rest} (good : ∀ t ∈ a, t.Clean)
    (hx : Expression .place a x.toArith b) (good' : ∀ t ∈ c, t.Clean) (he : Expression .sum c e d)
    (hcx : x.toArith.check scope = .ok ()) (hce : e.check scope = .ok ()) :
    (assignment (some x) e).ReadsBack scope := by
  have hlx : Legible x.lower.toExpr := hx.legible good hcx
  obtain ⟨s, hparse, p, y, t, rfl, hy, ht⟩ :=
    parse_of_reads_statement (reads_assign hlx (he.legible good' hce))
  have htext : x.lower.text ++ " := " ++ e.lower.text =
      x.lower.text ++ " " ++ (":=" ++ " " ++ e.lower.text) := by
    show x.lower.text ++ (" " ++ ":=" ++ " ") ++ e.lower.text = _
    simp only [String.append_assoc]
  refine ⟨x.lower.text ++ " := " ++ e.lower.text, rfl, ?_⟩
  rw [if_neg (by simp [assignment])]
  refine ⟨.stmt (.assign p (some y) t), scope, by
    rw [htext]; exact hparse, ?_, fun source next => ?_⟩
  · have hcy : y.toArith.check scope = .ok () := hy.check scope (Arith.declared_of_check hcx)
    rw [Item.check, Stmt.check, checkTarget, hcy, ht.check scope (Arith.declared_of_check hce)]
    · rfl
    · simp
  · show single source none next (assignment (some y) t) = _
    rw [assignment, Option.map_some, hy.lower_eq, ht.lower]
    rfl

/-- A read is read back. -/
theorem Part.readsBack_read (good : ∀ t ∈ a, t.Clean)
    (hx : Expression .place a x.toArith b) (hcx : x.toArith.check scope = .ok ()) :
    (Part.read (some x)).action.ReadsBack scope := by
  have hlx : Legible x.lower.toExpr := hx.legible good hcx
  obtain ⟨s, hparse, p, y, rfl, hy⟩ := parse_of_reads_statement (reads_read hlx)
  refine ⟨"read " ++ x.lower.text, rfl, ?_⟩
  rw [if_neg (by simp [Part.action])]
  refine ⟨.stmt (.read p (some y)), scope, hparse, ?_, fun source next => ?_⟩
  · have hcy : y.toArith.check scope = .ok () := hy.check scope (Arith.declared_of_check hcx)
    rw [Item.check, Stmt.check, checkTarget, hcy]
    · rfl
    · simp
  · show single source none next { kind := .read, target := some y.lower } = _
    rw [hy.lower_eq]
    rfl

/-- A write is read back. -/
theorem Part.readsBack_write {e : Arith} (good : ∀ t ∈ a, t.Clean)
    (he : Expression .sum a e b) (hce : e.check scope = .ok ()) :
    (Part.write e).action.ReadsBack scope := by
  obtain ⟨s, hparse, p, t, rfl, ht⟩ := parse_of_reads_statement (reads_write (he.legible good hce))
  refine ⟨"write " ++ e.lower.text, rfl, ?_⟩
  rw [if_neg (by simp [Part.action, Action.write])]
  refine ⟨.stmt (.write p t), scope, hparse, ?_, fun source next => ?_⟩
  · rw [Item.check, Stmt.check, ht.check scope (Arith.declared_of_check hce)]
    · rfl
    · simp
  · show single source none next (.write t.lower) = _
    rw [ht.lower]
    rfl

/-- A guard is read back. -/
theorem readsBack_branch (h : LegibleCond e) (hvars : MentionsDeclared scope e) :
    (Action.branch e).ReadsBack scope := by
  obtain ⟨s, hparse, p, c, q, r, rfl, hc⟩ := parse_of_reads_statement (reads_guard h)
  have hkind : (Action.branch e).kind = .boolean := rfl
  refine ⟨e.text, rfl, ?_⟩
  rw [if_pos hkind]
  refine ⟨p, c, q, r, hparse, ?_, hc.lower⟩
  rw [Stmt.check, hc.check scope hvars]
  rfl

/-- The action of a part is read back. -/
theorem Part.readsBack {q : Part} (h : q.Spelled Located.Clean) (hcheck : q.check scope = .ok ()) :
    q.action.ReadsBack scope := by
  cases h with
  | assign good hx good' he =>
    rw [Part.check, check_bind_eq_ok] at hcheck
    exact readsBack_assign good hx good' he hcheck.1 hcheck.2
  | read good hx => exact readsBack_read good hx hcheck
  | write good he => exact readsBack_write good he hcheck
  | @guard x holds _ _ good hx =>
    have hlegible : LegibleCond x.lower := hx.legible good hcheck
    have hvars : MentionsDeclared scope x.lower := Cond.declared_of_check hcheck
    cases holds with
    | true => exact readsBack_branch hlegible hvars
    | false =>
      refine readsBack_branch hlegible.not fun a ha => hvars a ?_
      rcases List.mem_append.mp ha with ha | ha
      · cases ha
      · exact ha

/-- A declaration that was read from a text is read back. -/
theorem readsBack_declare {shape : Shape} {x : String}
    (h : Grammar.Declaration a (.declare p shape x n) b)
    (good : ∀ t ∈ a, t.Clean) (hcheck : (Item.declare p shape x n).check scope = .ok vars) :
    (Action.declare (declarationOf shape x n)).ReadsBack scope := by
  obtain ⟨i, hparse, q, rfl⟩ :=
    parse_of_reads (reads_declaration h good) fun _ _ hd => .declaration hd .nil
  obtain ⟨hnew, hlength, -⟩ := Item.declare_of_check hcheck
  have hshape : ∀ kind, shape ≠ .unknown kind := by
    cases h <;> nofun
  refine ⟨(declarationOf shape x n).text, rfl, ?_⟩
  rw [if_neg (by simp [Action.declare])]
  exact ⟨.declare q shape x n, _, hparse, Item.check_declare hshape hnew hlength, fun _ _ => rfl⟩

end Source

/-- What is declared on the edges before a position. -/
def Graph.declaredBefore (g : Graph) (i : Nat) : Variables :=
  (g.edges.toList.take i).filterMap (·.action.decl)

/-- The variables before an edge are those that earlier arrows declare. -/
theorem Graph.declaredBefore_ofArrows (points : Nat) (arrows : List Arrow) (finish : Nat)
    (vars : Variables) (i : Nat) :
    (Graph.ofArrows points arrows finish vars).declaredBefore i = Arrow.declared arrows i := by
  have hactions : (Graph.ofArrows points arrows finish vars).edges.toList.map Edge.action =
      arrows.map Arrow.action := by
    refine List.ext_getElem? fun k => ?_
    rw [List.getElem?_map, Array.getElem?_toList, ofArrows_getElem?, List.getElem?_map]
    cases arrows[k]? <;> rfl
  have hfilter : ∀ es : List Edge,
      es.filterMap (·.action.decl) = (es.map Edge.action).filterMap (·.decl) := by
    intro es
    rw [List.filterMap_map]
    rfl
  unfold Graph.declaredBefore Arrow.declared
  rw [hfilter, List.map_take, hactions, ← List.map_take, List.filterMap_map]
  rfl

/--
**Printed actions are read back.**  In the graph of a program that was read from a text, what is
printed for an assignment, a read, a write or a declaration is, with a semicolon behind it, a single
item; what is printed for a guard is the condition of a statement, also when the guard is the
negation of a condition.  With the variables that are declared on the edges before, the item is
accepted and laid out as the same action, and the condition is accepted and stands for the same
guard.
-/
theorem printed_actions_read_back {src : Text.Bytes} {p : Program} {b : Built}
    (hparse : parse src = .ok p) (hbuild : build p = .ok b) {i : Nat} {e : Edge}
    (he : b.graph.edges[i]? = some e) : e.action.ReadsBack (b.graph.declaredBefore i) := by
  obtain ⟨l, hlex, hderives⟩ := derives_of_parse hparse
  have hclean : ∀ t ∈ l.lexemes, t.Clean := isWord_of_lexFrom hlex
  obtain ⟨vars, hvars, hgraph, -⟩ := build_eq_ok hbuild
  rw [hgraph, Graph.ofProgram, Graph.ofArrows_getElem?, Option.map_eq_some_iff] at he
  obtain ⟨a, ha, rfl⟩ := he
  rw [hgraph, Graph.ofProgram, Graph.declaredBefore_ofArrows]
  refine (lowerProgram_scoped (P := Action.ReadsBack) hvars ?_ ?_ 0 1 ha).1
  · intro scope scope' pos shape name length hmem hcheck
    obtain ⟨c, d, hgood, hdecl⟩ := hderives.declared hclean hmem
    exact readsBack_declare hdecl hgood hcheck
  · intro scope s hmem q hq hcheck
    exact Part.readsBack (hderives.spelled hclean s hmem q hq) hcheck

/-- Literals below zero, indices inside indices, operators that need parentheses on the right, and
guards that are negated twice. -/
def nestedText : Text.Bytes :=
  Text.toBytes ("int x; int[4] a; \x7bint fst; int snd\x7d r; read a[a[x] - (1 - x)]; " ++
    "r.snd := (x - (-3 - r.fst)) * (2 / (x % 5)); " ++
    "while (not (x < 1 & (true | not r.fst == 2)) & (x > 2 | x != -7)) \x7b x := x - 1; \x7d")

/-- The guard of the way out of the loop is read back, like every other action. -/
theorem printed_actions_read_back_nested :
    ∃ p b e, parse nestedText = .ok p ∧ build p = .ok b ∧ b.graph.edges[7]? = some e ∧
      e.action.text? =
        some "not (not (x < 1 & (true | not r.fst == 2)) & (x > 2 | x != -7))" ∧
      e.action.ReadsBack (b.graph.declaredBefore 7) := by
  have hsome : ((compile nestedText).toOption.bind (·.graph.edges[7]?)).bind (·.action.text?) =
      some "not (not (x < 1 & (true | not r.fst == 2)) & (x > 2 | x != -7))" := by decide +kernel
  obtain ⟨e, hedge, htext⟩ := Option.bind_eq_some_iff.mp hsome
  obtain ⟨b, hb, he⟩ := Option.bind_eq_some_iff.mp hedge
  cases hcompile : compile nestedText with
  | error err =>
    rw [hcompile] at hb
    cases hb
  | ok b' =>
    rw [hcompile] at hb
    cases hb
    obtain ⟨p, hparse, hbuild⟩ := compile_eq_ok hcompile
    exact ⟨p, b, e, hparse, hbuild, he, htext, printed_actions_read_back hparse hbuild he⟩

end MicroFlow
