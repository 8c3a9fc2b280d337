import MicroFlow.Expr.Flat

/-!
# The text of an expression from the texts of its parts

Spaces are put between the words of an expression by looking at two neighbours, and whether a part
is in parentheses is decided for its words.  For words that neither start with a closing nor end
with an opening parenthesis (`Word.Solid`) this comes to putting texts together: an operator stands
between the texts of its operands with a space on both sides, and an operand in parentheses is its
text in parentheses.
-/

namespace MicroFlow

variable {ws : List Word}

namespace Word

/-- Words with something to put parentheses around, or to put an operator next to. -/
structure Solid (ws : List Word) : Prop where
  starts : ∃ w rest, ws = w :: rest ∧ w ≠ .closing
  ends : ∃ front w, ws = front ++ [w] ∧ w ≠ .opening

theorem solid_text (s : String) : Solid [.text s] :=
  ⟨⟨.text s, [], rfl, nofun⟩, [], .text s, rfl, nofun⟩

/-- Words in a row. -/
theorem Solid.append {vs : List Word} (hw : Solid ws) (hv : Solid vs) : Solid (ws ++ vs) := by
  obtain ⟨w, rest, rfl, hne⟩ := hw.starts
  obtain ⟨front, v, rfl, hne'⟩ := hv.ends
  exact ⟨⟨w, _, rfl, hne⟩, _, v, (List.append_assoc ..).symm, hne'⟩

theorem solid_enclose (needed : Bool) (h : Solid ws) :
    Solid (Expr.enclose .opening .closing needed ws) := by
  cases needed with
  | false => exact h
  | true => exact ⟨⟨.opening, _, rfl, nofun⟩, .opening :: ws, .closing, rfl, nofun⟩

/-- Words are joined one by one. -/
theorem joinAfter_append (p : Word) (front : List Word) (w : Word) (rest : List Word) :
    joinAfter p (front ++ w :: rest) = joinAfter p (front ++ [w]) ++ joinAfter w rest := by
  induction front generalizing p with
  | nil => simp [joinAfter, String.append_assoc]
  | cons v front ih => simp [joinAfter, ih, String.append_assoc]

theorem join_append (front : List Word) (w : Word) (rest : List Word) :
    join (front ++ w :: rest) = join (front ++ [w]) ++ joinAfter w rest := by
  cases front with
  | nil => simp [join, joinAfter]
  | cons v front =>
    show v.chars ++ joinAfter v (front ++ w :: rest) = v.chars ++ joinAfter v (front ++ [w]) ++ _
    rw [joinAfter_append, String.append_assoc]

/-- A blank stands in front of words, unless they follow an opening parenthesis. -/
theorem joinAfter_of_solid {p : Word} (h : Solid ws) (hp : p ≠ .opening) :
    joinAfter p ws = " " ++ join ws := by
  obtain ⟨w, rest, rfl, hne⟩ := h.starts
  have hglued : glued p w = false := by
    cases p <;> cases w <;> simp_all [glued]
  simp [joinAfter, join, hglued, String.append_assoc]

/-- A blank stands between words in a row. -/
theorem Solid.join_append {ws vs : List Word} (hw : Solid ws) (hv : Solid vs) :
    join (ws ++ vs) = join ws ++ " " ++ join vs := by
  obtain ⟨front, w, rfl, hne⟩ := hw.ends
  rw [List.append_assoc, List.singleton_append, Word.join_append, joinAfter_of_solid hv hne,
    String.append_assoc]

/-- No blank stands inside parentheses. -/
theorem Solid.join_parens (h : Solid ws) :
    join (.opening :: ws ++ [.closing]) = "(" ++ join ws ++ ")" := by
  obtain ⟨front, w, rfl, -⟩ := h.ends
  obtain ⟨v, rest, hv, -⟩ := h.starts
  have hinner : joinAfter .opening (front ++ [w]) = join (front ++ [w]) := by
    rw [hv]
    simp [joinAfter, join, glued]
  have hlast : joinAfter w [.closing] = ")" := by
    cases w <;> rfl
  rw [List.cons_append, List.append_assoc, List.singleton_append]
  show "(" ++ joinAfter .opening (front ++ [w, .closing]) = _
  rw [joinAfter_append, hinner, hlast, String.append_assoc]

end Word

namespace Expr

open Word (Solid)

/-- A text in parentheses when `needed`. -/
def enclosed (needed : Bool) (s : String) : String := if needed then "(" ++ s ++ ")" else s

theorem join_enclose {needed : Bool} (h : Solid ws) :
    Word.join (enclose .opening .closing needed ws) = enclosed needed (Word.join ws) := by
  cases needed with
  | false => rfl
  | true => exact h.join_parens

variable {op : Operator} {e : Expr}

/-- The words of an operation, with parentheses where they are needed. -/
theorem words_node (h : op ≠ .not) (l r : Expr) : (node op l r).words =
      enclose .opening .closing (l.binding < op.precedence) l.words ++
        .text op.symbol :: enclose .opening .closing (r.binding ≤ op.precedence) r.words := by
  cases op with
  | not => exact absurd rfl h
  | _ => rfl

theorem solid_node (h : op ≠ .not) {l r : Expr} (hl : Solid l.words)
    (hr : Solid r.words) : Solid (node op l r).words := by
  rw [words_node h, ← List.singleton_append]
  exact (Word.solid_enclose _ hl).append ((Word.solid_text _).append (Word.solid_enclose _ hr))

theorem solid_negation (h : Solid e.words) : Solid e.negation.words :=
  (Word.solid_text Operator.not.symbol).append
    (Word.solid_enclose (e.binding < Operator.not.precedence) h)

/-- An operator stands between its operands. -/
theorem text_node (h : op ≠ .not) {l r : Expr} (hl : Solid l.words) (hr : Solid r.words) :
    (node op l r).text =
      enclosed (l.binding < op.precedence) l.text ++ " " ++
        (op.symbol ++ " " ++ enclosed (r.binding ≤ op.precedence) r.text) := by
  have hright := Word.solid_enclose (r.binding ≤ op.precedence) hr
  have hleft := Word.solid_enclose (l.binding < op.precedence) hl
  unfold text
  rw [words_node h, ← List.singleton_append,
    hleft.join_append ((Word.solid_text op.symbol).append hright),
    (Word.solid_text op.symbol).join_append hright, join_enclose hl, join_enclose hr]
  simp [Word.join, Word.joinAfter, Word.chars]

/-- The text of a negation. -/
theorem text_negation (h : Solid e.words) :
    e.negation.text = "not" ++ " " ++ enclosed (e.binding < Operator.not.precedence) e.text := by
  have hoperand := Word.solid_enclose (e.binding < Operator.not.precedence) h
  have hwords : e.negation.words = [.text "not"] ++
      enclose .opening .closing (e.binding < Operator.not.precedence) e.words := rfl
  unfold text
  rw [hwords, (Word.solid_text "not").join_append hoperand, join_enclose h]
  rfl

theorem text_word {s : String} (h : e.words = [.text s]) : e.text = s := by
  rw [text, h]
  exact String.append_empty

/-- The text of an element, without blanks. -/
theorem text_element (x : String) {i : Expr} (h : i ≠ .missing) :
    (element x i none).text = x ++ "[" ++ i.text ++ "]" := by
  refine text_word ?_
  cases i with
  | missing => exact absurd rfl h
  | _ => rfl

end Expr

end MicroFlow
