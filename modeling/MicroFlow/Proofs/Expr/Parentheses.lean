import Mathlib.Logic.Relation
import MicroFlow.Expr.Reader

/-!
# Matching parentheses

A sequence of tokens is balanced when every parenthesis in it has its counterpart in it
(`Token.Balanced`), which is found out by counting (`Token.depth`).  Two parentheses match when what
stands between them is balanced, and `Token.Sheds` says that one sequence is another without some
matching pairs.
-/

namespace MicroFlow.Token

open Relation

/-- The sequence in parentheses. -/
def parens (ts : List Token) : List Token := symbol .opening :: ts ++ [symbol .closing]

/-- The token is neither a parenthesis nor an operator. -/
def Plain : Token → Prop
  | symbol s => s = .unknown
  | _ => True

/-- The tokens, as counting tells them apart. -/
theorem sorts (t : Token) : t = symbol .opening ∨ t = symbol .closing ∨
    (∃ op, t = symbol (.operator op)) ∨ t.Plain := by
  cases t with
  | literal | truth | access => exact .inr (.inr (.inr trivial))
  | symbol s =>
    cases s with
    | opening => exact .inl rfl
    | closing => exact .inr (.inl rfl)
    | operator op => exact .inr (.inr (.inl ⟨op, rfl⟩))
    | unknown => exact .inr (.inr (.inr rfl))

/-! ## Counting -/

/-- The number of parentheses that are open behind a sequence when `d` are open before it.  A
parenthesis must not be closed when none is open. -/
def depth : Nat → List Token → Option Nat
  | d, [] => some d
  | d, symbol .opening :: rest => depth (d + 1) rest
  | 0, symbol .closing :: _ => none
  | d + 1, symbol .closing :: rest => depth d rest
  | d, _ :: rest => depth d rest

/-- Every parenthesis in the sequence has its counterpart in it. -/
def Balanced (ts : List Token) : Prop := depth 0 ts = some 0

instance (ts : List Token) : Decidable (Balanced ts) := inferInstanceAs (Decidable (_ = _))

variable {t : Token} {ts us inner rest : List Token} {d e k : Nat}

@[simp] theorem depth_opening : depth d (symbol .opening :: rest) = depth (d + 1) rest := rfl

@[simp] theorem depth_closing_zero : depth 0 (symbol .closing :: rest) = none := rfl

@[simp] theorem depth_closing : depth (d + 1) (symbol .closing :: rest) = depth d rest := rfl

@[simp] theorem depth_operator {op : Operator} :
    depth d (symbol (.operator op) :: rest) = depth d rest := rfl

theorem depth_plain (h : t.Plain) : depth d (t :: rest) = depth d rest := by
  cases t with
  | literal | truth | access => rfl
  | symbol s =>
    cases h
    rfl

/-- Counting goes on where it stopped. -/
theorem depth_append : depth d (ts ++ us) = (depth d ts).bind fun e => depth e us := by
  induction ts generalizing d with
  | nil => rfl
  | cons t ts ih =>
    rw [List.cons_append]
    obtain rfl | rfl | ⟨op, rfl⟩ | hplain := t.sorts
    · simp [ih]
    · cases d with
      | zero => simp
      | succ d => simp [ih]
    · simp [ih]
    · rw [depth_plain hplain, depth_plain hplain, ih]

/-- More open parentheses around a sequence stay open. -/
theorem depth_add (h : depth d ts = some e) (k : Nat) : depth (d + k) ts = some (e + k) := by
  induction ts generalizing d with
  | nil =>
    cases h
    rfl
  | cons t ts ih =>
    obtain rfl | rfl | ⟨op, rfl⟩ | hplain := t.sorts
    · rw [depth_opening] at h ⊢
      rw [Nat.add_right_comm]
      exact ih h
    · cases d with
      | zero => simp at h
      | succ d =>
        rw [Nat.add_right_comm, depth_closing]
        exact ih (by simpa using h)
    · rw [depth_operator] at h ⊢
      exact ih h
    · rw [depth_plain hplain] at h ⊢
      exact ih h

/-- A balanced list leaves every depth as it is. -/
theorem Balanced.depth_eq (h : Balanced ts) (d : Nat) : depth d ts = some d := by
  simpa using depth_add h d

theorem Balanced.append (h : Balanced ts) (k : Balanced us) : Balanced (ts ++ us) := by
  rw [Balanced, depth_append, h]
  exact k

theorem Balanced.parens (h : Balanced ts) : Balanced (parens ts) := by
  rw [Balanced, Token.parens, List.cons_append, depth_opening, depth_append, h.depth_eq]
  rfl

/-- An open parenthesis is closed, and what follows is balanced. -/
theorem exists_closing (h : depth (d + 1) ts = some 0) : ∃ inner rest,
    ts = inner ++ symbol .closing :: rest ∧ depth d inner = some 0 ∧ Balanced rest := by
  induction ts generalizing d with
  | nil => cases h
  | cons t ts ih =>
    obtain rfl | rfl | ⟨op, rfl⟩ | hplain := t.sorts
    · rw [depth_opening] at h
      obtain ⟨inner, rest, rfl, hinner, hrest⟩ := ih h
      exact ⟨symbol .opening :: inner, rest, rfl, by rwa [depth_opening], hrest⟩
    · rw [depth_closing] at h
      cases d with
      | zero => exact ⟨[], ts, rfl, rfl, h⟩
      | succ d =>
        obtain ⟨inner, rest, rfl, hinner, hrest⟩ := ih h
        exact ⟨symbol .closing :: inner, rest, rfl, by rwa [depth_closing], hrest⟩
    · rw [depth_operator] at h
      obtain ⟨inner, rest, rfl, hinner, hrest⟩ := ih h
      exact ⟨symbol (.operator op) :: inner, rest, rfl, by rwa [depth_operator], hrest⟩
    · rw [depth_plain hplain] at h
      obtain ⟨inner, rest, rfl, hinner, hrest⟩ := ih h
      exact ⟨t :: inner, rest, rfl, by rwa [depth_plain hplain], hrest⟩

/-! ## The counterpart of a parenthesis -/

theorem closingAt_opening : closingAt d (symbol .opening :: rest) =
    (closingAt (d + 1) rest).map (· + 1) := rfl

theorem closingAt_closing : closingAt (d + 2) (symbol .closing :: rest) =
    (closingAt (d + 1) rest).map (· + 1) := rfl

/-- Other tokens are passed over. -/
theorem closingAt_other (h : t.Plain ∨ ∃ op, t = symbol (.operator op)) :
    closingAt d (t :: rest) = (closingAt d rest).map (· + 1) := by
  cases t with
  | literal | truth | access => rfl
  | symbol s =>
    rcases h with h | ⟨op, h⟩
    · cases h
      rfl
    · cases h
      rfl

/-- The parenthesis that closes the last of `d + 1` open ones: before it, `d` are closed. -/
theorem closingAt_eq_some : closingAt (d + 1) ts = some k ↔ ∃ inner rest,
    ts = inner ++ symbol .closing :: rest ∧ inner.length = k ∧ depth d inner = some 0 := by
  induction ts generalizing d k with
  | nil =>
    constructor
    · intro h
      cases h
    · rintro ⟨inner, rest, heq, -⟩
      simp at heq
  | cons t ts ih =>
    -- the token is passed over, and the rest is looked through with `e + 1` open parentheses
    have hpass : ∀ e, closingAt (d + 1) (t :: ts) = (closingAt (e + 1) ts).map (· + 1) →
        (∀ us, depth d (t :: us) = depth e us) → (d = 0 → t ≠ symbol .closing) →
        (closingAt (d + 1) (t :: ts) = some k ↔ ∃ inner rest,
          t :: ts = inner ++ symbol .closing :: rest ∧ inner.length = k ∧
            depth d inner = some 0) := by
      intro e hclosing hdepth hne
      rw [hclosing, Option.map_eq_some_iff]
      constructor
      · rintro ⟨k, hk, rfl⟩
        obtain ⟨inner, rest, rfl, rfl, hinner⟩ := ih.mp hk
        exact ⟨t :: inner, rest, rfl, rfl, by rwa [hdepth]⟩
      · rintro ⟨inner, rest, heq, rfl, hinner⟩
        cases inner with
        | nil =>
          cases heq
          cases hinner
          exact absurd rfl (hne rfl)
        | cons u inner =>
          cases heq
          exact ⟨inner.length, ih.mpr ⟨inner, rest, rfl, rfl, by rwa [hdepth] at hinner⟩, rfl⟩
    obtain rfl | rfl | hother | hplain := t.sorts
    · exact hpass (d + 1) closingAt_opening (by simp) (by simp)
    · cases d with
      | zero =>
        constructor
        · rintro h
          cases h
          -- the counterpart itself
          exact ⟨[], ts, rfl, rfl, rfl⟩
        · rintro ⟨inner, rest, heq, rfl, hinner⟩
          cases inner with
          | nil => rfl
          | cons u inner =>
            cases heq
            simp at hinner
      | succ d => exact hpass d closingAt_closing (by simp) (by simp)
    · refine hpass d (closingAt_other (.inr hother)) ?_ ?_
      · obtain ⟨op, rfl⟩ := hother
        simp
      · obtain ⟨op, rfl⟩ := hother
        simp
    · refine hpass d (closingAt_other (.inl hplain)) (fun us => depth_plain hplain) ?_
      rintro - rfl
      cases hplain

/-! ## Stripping off parentheses -/

theorem exists_of_startsOpen (h : startsOpen ts = true) :
    ∃ rest, ts = symbol .opening :: rest := by
  unfold startsOpen at h
  split at h
  · exact ⟨_, rfl⟩
  · cases h

theorem length_parens (ts : List Token) : (parens ts).length = ts.length + 2 := by
  simp [parens]

/-- The parentheses around a balanced list match. -/
theorem closingAt_parens (h : Balanced ts) : closingAt 0 (parens ts) = some (ts.length + 1) := by
  have hclosing : closingAt 1 (ts ++ [symbol .closing]) = some ts.length :=
    closingAt_eq_some.mpr ⟨ts, [], rfl, rfl, h⟩
  rw [parens, List.cons_append, closingAt_opening, Nat.zero_add, hclosing]
  rfl

/-- Parentheses around a balanced sequence are stripped off. -/
theorem strip_parens (h : Balanced ts) (fuel : Nat) :
    strip (fuel + 1) (parens ts) = strip fuel ts := by
  rw [strip, if_pos (by simp [parens, startsOpen]), closingAt_parens h]
  simp [parens]

/-- The sequence stands in no parentheses as a whole. -/
def Bare (ts : List Token) : Prop := ∀ inner, Balanced inner → ts ≠ parens inner

/-- No others are. -/
theorem strip_bare (h : Balanced ts) (hbare : Bare ts) (fuel : Nat) : strip fuel ts = .ok ts := by
  cases fuel with
  | zero => rfl
  | succ fuel =>
    rw [strip]
    split
    · rename_i hstarts
      obtain ⟨rest, rfl⟩ := exists_of_startsOpen (Bool.and_eq_true_iff.mp hstarts).2
      rw [Balanced, depth_opening] at h
      obtain ⟨inner, behind, rfl, hinner, -⟩ := exists_closing h
      have hclosing : closingAt 0 (symbol .opening :: (inner ++ symbol .closing :: behind)) =
          some (inner.length + 1) := by
        rw [closingAt_opening, Nat.zero_add,
          closingAt_eq_some.mpr ⟨inner, behind, rfl, rfl, hinner⟩]
        rfl
      rw [hclosing]
      -- something stands behind the counterpart of the first parenthesis
      have hne : behind ≠ [] := by
        rintro rfl
        exact hbare inner hinner rfl
      have hlength := List.length_pos_iff.mpr hne
      simp only [List.length_cons, List.length_append, beq_iff_eq]
      rw [if_neg (by omega)]
    · rfl

/-- One round of stripping. -/
theorem strip_cases {fuel : Nat} (h : strip (fuel + 1) ts = .ok inner) :
    inner = ts ∨ ∃ us, Balanced us ∧ ts = parens us ∧ strip fuel us = .ok inner := by
  rw [strip] at h
  split at h
  · rename_i hstarts
    split at h
    · cases h
    · rename_i closing hclosing
      split at h
      · rename_i hlast
        right
        obtain ⟨rest, rfl⟩ := exists_of_startsOpen (Bool.and_eq_true_iff.mp hstarts).2
        rw [closingAt_opening, Nat.zero_add, Option.map_eq_some_iff] at hclosing
        obtain ⟨k, hk, rfl⟩ := hclosing
        obtain ⟨us, behind, rfl, rfl, hus⟩ := closingAt_eq_some.mp hk
        have hbehind : behind = [] := by
          simp only [List.length_cons, List.length_append, beq_iff_eq] at hlast
          exact List.eq_nil_of_length_eq_zero (by omega)
        subst hbehind
        refine ⟨us, hus, rfl, ?_⟩
        simpa using h
      · cases h
        exact .inl rfl
  · cases h
    exact .inl rfl

/-- A pair takes two tokens, so fuel for each token is enough. -/
theorem strip_fuel {fuel fuel' : Nat} (h : ts.length ≤ fuel) (h' : ts.length ≤ fuel') :
    strip fuel ts = strip fuel' ts := by
  induction fuel generalizing fuel' ts with
  | zero =>
    obtain rfl := List.eq_nil_of_length_eq_zero (Nat.le_zero.mp h)
    cases fuel' with
    | zero => rfl
    | succ fuel' => rfl
  | succ fuel ih =>
    cases fuel' with
    | zero =>
      obtain rfl := List.eq_nil_of_length_eq_zero (Nat.le_zero.mp h')
      rfl
    | succ fuel' =>
      rw [strip, strip]
      split
      · split
        · rfl
        · split
          · refine ih ?_ ?_
            · simp only [List.length_dropLast, List.length_drop]
              omega
            · simp only [List.length_dropLast, List.length_drop]
              omega
          · rfl
      · rfl

/-! ## Removing pairs -/

/-- One matching pair of parentheses is removed. -/
def ShedsPair (ts us : List Token) : Prop :=
  ∃ before inner after, Balanced inner ∧ ts = before ++ parens inner ++ after ∧
    us = before ++ inner ++ after

/-- Some matching pairs of parentheses are removed, possibly none. -/
def Sheds : List Token → List Token → Prop := ReflTransGen ShedsPair

/-- A pair can be removed in any context. -/
theorem ShedsPair.context {before after : List Token} (h : ShedsPair ts us) :
    ShedsPair (before ++ ts ++ after) (before ++ us ++ after) := by
  obtain ⟨a, inner, b, hinner, rfl, rfl⟩ := h
  exact ⟨before ++ a, inner, b ++ after, hinner, by simp, by simp⟩

/-- Pairs can be removed in any context. -/
theorem Sheds.context (h : Sheds ts us) (before after : List Token) :
    Sheds (before ++ ts ++ after) (before ++ us ++ after) := by
  induction h with
  | refl => exact .refl
  | tail _ hpair ih => exact ih.tail hpair.context

theorem Sheds.append {ts' us' : List Token} (h : Sheds ts us) (h' : Sheds ts' us') :
    Sheds (ts ++ ts') (us ++ us') := by
  have hleft : Sheds (ts ++ ts') (us ++ ts') := by simpa using h.context [] ts'
  have hright : Sheds (us ++ ts') (us ++ us') := by simpa using h'.context us []
  exact hleft.trans hright

theorem Sheds.parens (h : Sheds ts us) : Sheds (parens ts) (parens us) :=
  h.context [symbol .opening] [symbol .closing]

/-- The outer pair can be removed. -/
theorem sheds_parens (h : Balanced ts) : Sheds (parens ts) ts :=
  .single ⟨[], ts, [], h, by simp, by simp⟩

end MicroFlow.Token
