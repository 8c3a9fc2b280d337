import MicroFlow.Source.Position
import Mathlib.Order.Basic

/-!
# Places in a text

The place behind a text counts its newlines, and the code points behind the last of them
(`placeAfter`).  A text can be passed in pieces that start with a byte of ASCII, since no code point
goes on in such a byte (`decode_append`); each piece leads to a later place (`Pos.before_after`).
-/

namespace MicroFlow

/-! ## Code points of texts in a row -/

namespace Text

/-- No code point goes on with these bytes. -/
def Fresh (tail : Bytes) : Prop := ∀ b ∈ tail.head?, b < 0x80

variable {tail : Bytes}

/-- A code point does not run over into what starts afresh. -/
theorem decodeHead_append (a : UInt8) (rest : Bytes) (h : Fresh tail) :
    decodeHead a (rest ++ tail) = decodeHead a rest := by
  cases tail with
  | nil => rw [List.append_nil]
  | cons t tail =>
    have hlow : ∀ low : UInt8, 0x80 ≤ low → ¬ low ≤ t := fun low hlow hle =>
      UInt8.not_le.mpr (h t rfl) (UInt8.le_trans hlow hle)
    have hcont : isContinuation t = false := by simp [isContinuation, hlow]
    have hthree : decide ((if a == 0xe0 then (0xa0 : UInt8) else 0x80) ≤ t) = false := by
      refine decide_eq_false (hlow _ ?_)
      split <;> decide
    have hfour : decide ((if a == 0xf0 then (0x90 : UInt8) else 0x80) ≤ t) = false := by
      refine decide_eq_false (hlow _ ?_)
      split <;> decide
    -- the tail is asked for a second, a third or a fourth byte, and has none to offer
    rcases rest with _ | ⟨b, _ | ⟨c, _ | ⟨d, rest⟩⟩⟩
    · rcases tail with _ | ⟨u, _ | ⟨v, tail⟩⟩ <;> simp only [decodeHead, List.nil_append, hcont,
        hthree, hfour, Bool.false_and, Bool.false_eq_true, if_false, ite_self]
    · rcases tail with _ | ⟨u, tail⟩ <;> simp [decodeHead, hcont]
    · simp [decodeHead, hcont]
    · rfl

/-- Code points of texts in a row, from any byte of the first on. -/
theorem decodeFrom_append (h : Fresh tail) (bytes : Bytes) : ∀ {skip : Nat},
    skip ≤ bytes.length → decodeFrom skip (bytes ++ tail) = decodeFrom skip bytes ++
    decode tail := by
  induction bytes with
  | nil =>
    intro skip hskip
    obtain rfl := Nat.le_zero.mp hskip
    cases tail <;> rfl
  | cons a bytes ih =>
    intro skip hskip
    cases skip with
    | succ k => exact ih (Nat.le_of_succ_le_succ hskip)
    | zero =>
      have hwidth : (decodeHead a bytes).2 - 1 ≤ bytes.length := by
        fun_cases decodeHead a bytes <;> simp
      rw [List.cons_append, decodeFrom, decodeFrom, decodeHead_append a bytes h]
      exact congrArg (List.cons _) (ih hwidth)

theorem decode_append (bytes : Bytes) (h : Fresh tail) :
    decode (bytes ++ tail) = decode bytes ++ decode tail :=
  decodeFrom_append h bytes (Nat.zero_le _)

end Text

/-! ## Lines and columns -/

/-- The place behind a text. -/
def placeAfter (before : Text.Bytes) : Pos where
  line := 1 + (Text.decode before).count (some '\n')
  col := 1 + ((Text.decode before).reverse.takeWhile (· ≠ some '\n')).length

namespace Pos

/-- One place comes before another. -/
def Before (p q : Pos) : Prop := p.line < q.line ∨ p.line = q.line ∧ p.col < q.col

variable {p q r : Pos}

/-- Places are ordered by line and column. -/
theorem Before.trans (h : p.Before q) (h' : q.Before r) : p.Before r := by
  unfold Before at *
  omega

theorem Before.asymm (h : p.Before q) : ¬ q.Before p := by
  unfold Before at *
  omega

theorem Before.of_not (h : p.Before q) (h' : ¬ r.Before q) : p.Before r := by
  unfold Before at *
  omega

/-- Every code point leads to a later place. -/
theorem before_foldl_step (c : Option Char) (cs : List (Option Char)) :
    p.Before ((c :: cs).foldl step p) := by
  have hstep : ∀ (p : Pos) (c : Option Char), p.Before (p.step c) := by
    intro p c
    unfold step Before
    split <;> simp only [true_and] <;> omega
  induction cs generalizing p c with
  | nil => exact hstep p c
  | cons d cs ih => exact (hstep p c).trans (ih d)

theorem before_after (a : UInt8) (rest : Text.Bytes) : p.Before (p.after (a :: rest)) :=
  before_foldl_step _ _

/-- The place behind a text, by its newlines and by the code points of its last line. -/
theorem first_after (before : Text.Bytes) : first.after before = placeAfter before := by
  suffices h : ∀ cs : List (Option Char), cs.reverse.foldl step first =
      ⟨1 + cs.count (some '\n'), 1 + (cs.takeWhile (· ≠ some '\n')).length⟩ by
    simpa [after, placeAfter] using h (Text.decode before).reverse
  intro cs
  induction cs with
  | nil => rfl
  | cons c cs ih =>
    rw [List.reverse_cons, List.foldl_append, ih, List.foldl_cons, List.foldl_nil]
    unfold step
    split
    · rename_i hc
      simp [hc, Int.add_assoc]
    · rename_i hc
      simp [hc, Int.add_assoc]

/-- Places add up over texts in a row. -/
theorem after_placeAfter (before : Text.Bytes) {text : Text.Bytes} (h : Text.Fresh text) :
    (placeAfter before).after text = placeAfter (before ++ text) := by
  rw [← first_after, ← first_after, after, after, after, Text.decode_append before h,
    List.foldl_append]

end Pos

end MicroFlow
