import MicroFlow.Proofs.Text.Bytes
import MicroFlow.Source.Lexeme

/-!
# Lexemes of texts that are put together

Cutting a text into lexemes goes on behind a piece as it does at the beginning of a text, apart from
the places.  So the lexemes of two texts in a row are those of the first and then those of the
second, unless the last piece of the first goes on in the second
(`Lexes`, `Delimits`, `Stops`).  Words, numbers and marks have themselves as their only lexemes.
-/

namespace MicroFlow.Source

open MicroFlow.Text (Bytes toBytes)

/-! ## Lexemes without places -/

/-- The lexemes of a text that follows a piece, without their places. -/
def scanFrom (skip : Nat) (pos : Pos) (src : Bytes) : Option (List Lexeme) :=
  (lexFrom skip pos src).toOption.map fun l => l.lexemes.map Located.lexeme

/-- The lexemes of a text, without their places. -/
def scan (src : Bytes) : Option (List Lexeme) := scanFrom 0 .first src

/-- What is added in front of the other lexemes for a piece. -/
def Piece.lexemes (piece : Piece) : List Lexeme := piece.lexeme?.toList

variable {a : UInt8} {rest : Bytes}

/-- One piece is cut off. -/
theorem scanFrom_cons {piece : Piece} (h : pieceAt a rest = some piece) (pos : Pos) :
    scanFrom 0 pos (a :: rest) =
      (scanFrom (piece.width - 1) (pos.after (a :: rest.take (piece.width - 1))) rest).map
        (piece.lexemes ++ ·) := by
  unfold scanFrom
  rw [lexFrom, h]
  dsimp only
  cases lexFrom (piece.width - 1) (pos.after (a :: rest.take (piece.width - 1))) rest with
  | error e => rfl
  | ok tail =>
    unfold Piece.lexemes
    cases piece.lexeme? <;> rfl

/-- The lexemes do not depend on the places. -/
theorem scanFrom_pos (skip : Nat) (pos pos' : Pos) (src : Bytes) :
    scanFrom skip pos src = scanFrom skip pos' src := by
  induction src generalizing skip pos pos' with
  | nil => rfl
  | cons a rest ih =>
    cases skip with
    | succ k => exact ih k pos pos'
    | zero =>
      cases h : pieceAt a rest with
      | none =>
        unfold scanFrom
        rw [lexFrom, lexFrom, h]
        rfl
      | some piece =>
        rw [scanFrom_cons h, scanFrom_cons h]
        exact congrArg _ (ih ..)

/-- The bytes of a piece are skipped. -/
theorem lexFrom_skip (passed rest : Bytes) (pos : Pos) :
    lexFrom passed.length pos (passed ++ rest) = lexFrom 0 pos rest := by
  induction passed with
  | nil => rfl
  | cons a passed ih => exact ih

/-- Behind a piece, cutting goes on as at the beginning. -/
theorem scan_piece (passed : Bytes) {l? : Option Lexeme}
    (h : pieceAt a (passed ++ rest) = some ⟨l?, passed.length + 1⟩) :
    scan (a :: passed ++ rest) = (scan rest).map (l?.toList ++ ·) := by
  show scanFrom 0 .first (a :: (passed ++ rest)) = _
  rw [scanFrom_cons h, Nat.add_sub_cancel, scanFrom, lexFrom_skip]
  exact congrArg _ (scanFrom_pos ..)

theorem scan_lexeme (passed : Bytes) {l : Lexeme}
    (h : pieceAt a (passed ++ rest) = some ⟨some l, passed.length + 1⟩) :
    scan (a :: passed ++ rest) = (scan rest).map ([l] ++ ·) :=
  scan_piece passed h

/-- A text with lexemes is lexed, and has these lexemes. -/
theorem lex_of_scan {src : Bytes} {ls : List Lexeme} (h : scan src = some ls) :
    ∃ l, lex src = .ok l ∧ l.lexemes.map Located.lexeme = ls := by
  unfold scan scanFrom at h
  unfold lex
  cases hlex : lexFrom 0 .first src with
  | error e =>
    rw [hlex] at h
    cases h
  | ok l =>
    rw [hlex] at h
    exact ⟨l, rfl, Option.some.inj h⟩

/-! ## Texts in a row -/

/-- No word, number or mark goes on with these bytes. -/
def Stopped (rest : Bytes) : Prop :=
  ∀ b, rest.head? = some b → isWordByte b = false ∧ b ≠ ascii '=' ∧ b ≠ ascii '/'

/-- In front of bytes with which no lexeme goes on, the text has these lexemes. -/
def Lexes (s : String) (ls : List Lexeme) : Prop :=
  ∀ rest, Stopped rest → scan (toBytes s ++ rest) = (scan rest).map (ls ++ ·)

/-- In front of any bytes, the text has these lexemes. -/
def Delimits (s : String) (ls : List Lexeme) : Prop :=
  ∀ rest, scan (toBytes s ++ rest) = (scan rest).map (ls ++ ·)

/-- No lexeme goes on with the text. -/
def Stops (s : String) : Prop := ∀ rest, Stopped (toBytes s ++ rest)

variable {s t : String} {ls ms : List Lexeme}

theorem map_append_append (x : Option (List Lexeme)) :
    (x.map (ms ++ ·)).map (ls ++ ·) = x.map ((ls ++ ms) ++ ·) := by
  cases x with
  | none => rfl
  | some l => exact congrArg some (List.append_assoc ls ms l).symm

/-- Texts in a row, if the second does not go on with the first. -/
theorem Lexes.append (hs : Lexes s ls) (ht : Lexes t ms) (hstop : Stops t) :
    Lexes (s ++ t) (ls ++ ms) := by
  intro rest hrest
  rw [Text.toBytes_append, List.append_assoc, hs _ (hstop rest), ht rest hrest, map_append_append]

theorem Lexes.append_delimits (hs : Lexes s ls) (ht : Delimits t ms) (hstop : Stops t) :
    Delimits (s ++ t) (ls ++ ms) := by
  intro rest
  rw [Text.toBytes_append, List.append_assoc, hs _ (hstop rest), ht rest, map_append_append]

/-- Texts in a row, if the first ends with a lexeme that nothing goes on with. -/
theorem Delimits.append (hs : Delimits s ls) (ht : Lexes t ms) : Lexes (s ++ t) (ls ++ ms) := by
  intro rest hrest
  rw [Text.toBytes_append, List.append_assoc, hs, ht rest hrest, map_append_append]

theorem Delimits.append_delimits (hs : Delimits s ls) (ht : Delimits t ms) :
    Delimits (s ++ t) (ls ++ ms) := by
  intro rest
  rw [Text.toBytes_append, List.append_assoc, hs, ht rest, map_append_append]

theorem Stops.append (h : Stops s) (t : String) : Stops (s ++ t) := by
  intro rest
  rw [Text.toBytes_append, List.append_assoc]
  exact h _

/-- A text alone goes on with nothing. -/
theorem Lexes.lex (h : Lexes s ls) :
    ∃ l, lex (toBytes s) = .ok l ∧ l.lexemes.map Located.lexeme = ls := by
  refine lex_of_scan ?_
  have hscan := h [] fun b hb => by cases hb
  rw [List.append_nil] at hscan
  rw [hscan]
  exact congrArg some (List.append_nil ls)

/-! ## Blanks and marks -/

theorem toBytes_blank : toBytes " " = [ascii ' '] := by decide +kernel

/-- A blank has no lexeme, whatever follows. -/
theorem delimits_blank : Delimits " " [] := by
  intro rest
  have hpiece : pieceAt (ascii ' ') ([] ++ rest) = some ⟨none, 1⟩ := rfl
  rw [toBytes_blank]
  exact scan_piece [] hpiece

theorem stops_blank : Stops " " := by
  intro rest b hb
  rw [toBytes_blank] at hb
  cases hb
  decide +kernel

theorem Lexes.blank (h : Lexes s ls) : Delimits (s ++ " ") ls := by
  have happend := h.append_delimits delimits_blank stops_blank
  rwa [List.append_nil] at happend

/-- The byte starts a mark, and nothing else except perhaps a comment. -/
def startsMark (a : UInt8) : Bool := !isSpace a && !isWordByte a

/-- A mark of one byte. -/
def Punct.isSingle (p : Punct) : Bool :=
  match toBytes p.text with
  | [a] => startsMark a && singleMark? a == some p
  | _ => false

/-- A mark of two bytes. -/
def Punct.isDouble (p : Punct) : Bool :=
  match toBytes p.text with
  | [a, b] => startsMark a && a != ascii '/' && doubleMark? a b == some p
  | _ => false

/-- A mark of one byte with which no longer mark and no comment starts or ends. -/
def Punct.isAlone (p : Punct) : Bool :=
  match toBytes p.text with
  | [a] => startsMark a && singleMark? a == some p && a != ascii '/' && a != ascii '=' &&
      (doubleMark? a (ascii '=')).isNone
  | _ => false

/-- What starts with neither a blank, a word nor a comment is a mark. -/
theorem pieceAt_mark (ha : startsMark a = true)
    (hcomment : a = ascii '/' → rest.head? ≠ some (ascii '/')) :
    pieceAt a rest = markAt a rest := by
  simp only [startsMark, isWordByte, Bool.and_eq_true, Bool.not_eq_true',
    Bool.or_eq_false_iff] at ha
  obtain ⟨hspace, hletter, hdigit⟩ := ha
  have hcomment' : (a == ascii '/' && rest.head? == some (ascii '/')) = false := by
    rw [Bool.eq_false_iff]
    intro h
    simp only [Bool.and_eq_true, beq_iff_eq] at h
    exact hcomment h.1 h.2
  simp [pieceAt, hspace, hletter, hdigit, hcomment']

theorem doubleMark?_of_ne {b : UInt8} (h : b ≠ ascii '=') : doubleMark? a b = none := by
  simp [doubleMark?, h]

/-- A mark of one byte, if no mark of two bytes starts there. -/
theorem markAt_single {p : Punct} (ha : singleMark? a = some p)
    (hrest : ∀ b, rest.head? = some b → doubleMark? a b = none) :
    markAt a rest = some ⟨some (.mark p), 1⟩ := by
  unfold markAt
  cases hb : rest.head? with
  | none => simp [ha]
  | some b => simp [hrest b hb, ha]

theorem Punct.isSingle_or_isDouble (p : Punct) : p.isSingle = true ∨ p.isDouble = true := by
  cases p <;> decide +kernel

/-- A mark has itself as its only lexeme. -/
theorem lexes_mark (p : Punct) : Lexes p.text [.mark p] := by
  intro rest hrest
  rcases p.isSingle_or_isDouble with h | h
  · unfold Punct.isSingle at h
    split at h
    next a hbytes =>
      simp only [Bool.and_eq_true, beq_iff_eq] at h
      rw [hbytes]
      refine scan_lexeme [] ?_
      rw [List.nil_append, pieceAt_mark h.1 fun _ hb => (hrest _ hb).2.2 rfl]
      exact markAt_single h.2 fun b hb => doubleMark?_of_ne (hrest b hb).2.1
    next => cases h
  · unfold Punct.isDouble at h
    split at h
    next a b hbytes =>
      simp only [Bool.and_eq_true, beq_iff_eq, bne_iff_ne] at h
      rw [hbytes]
      refine scan_lexeme [b] ?_
      rw [pieceAt_mark h.1.1 fun ha => absurd ha h.1.2]
      simp [markAt, h.2]
    next => cases h

/-- So it has in front of any text, if it starts no longer mark or comment. -/
theorem delimits_mark (p : Punct) (h : p.isAlone = true) : Delimits p.text [.mark p] := by
  intro rest
  unfold Punct.isAlone at h
  split at h
  next a hbytes =>
    simp only [Bool.and_eq_true, beq_iff_eq, bne_iff_ne, Option.isNone_iff_eq_none] at h
    obtain ⟨⟨⟨⟨hstarts, hsingle⟩, hslash⟩, -⟩, hdouble⟩ := h
    rw [hbytes]
    refine scan_lexeme [] ?_
    rw [pieceAt_mark hstarts fun ha => absurd ha hslash]
    refine markAt_single hsingle fun b _ => ?_
    by_cases hb : b = ascii '='
    · rw [hb, hdouble]
    · exact doubleMark?_of_ne hb
  next => cases h

/-- Such a mark goes on with no lexeme. -/
theorem stops_mark (p : Punct) (h : p.isAlone = true) : Stops p.text := by
  intro rest b hb
  unfold Punct.isAlone at h
  split at h
  next a hbytes =>
    simp only [startsMark, Bool.and_eq_true, Bool.not_eq_true', beq_iff_eq, bne_iff_ne] at h
    obtain ⟨⟨⟨⟨⟨-, hword⟩, -⟩, hslash⟩, heq⟩, -⟩ := h
    rw [hbytes] at hb
    cases hb
    exact ⟨hword, heq, hslash⟩
  next => cases h

/-! ## Words and numbers -/

/-- A letter followed by letters and digits. -/
def IsWord (w : String) : Prop :=
  ∃ a run, w = asciiText (a :: run) ∧ isLetter a = true ∧ ∀ b ∈ run, isWordByte b = true

/-- The bytes tell whether a text is a word. -/
def isWordText (w : String) : Bool :=
  match toBytes w with
  | [] => false
  | a :: run => isLetter a && run.all isWordByte && w == asciiText (a :: run)

theorem isWord_of_bytes {w : String} (h : isWordText w = true) : IsWord w := by
  unfold isWordText at h
  split at h
  next => cases h
  next a run _ =>
    simp only [Bool.and_eq_true, List.all_eq_true, beq_iff_eq] at h
    exact ⟨a, run, h.2, h.1.1, h.1.2⟩

/-- What is checked for all numbers below 256 holds of all bytes. -/
theorem forall_byte {P : UInt8 → Bool} (h : ∀ n < 256, P (UInt8.ofNat n) = true) (b : UInt8) :
    P b = true := by
  have hb := h b.toNat b.toNat_lt
  rwa [UInt8.ofNat_toNat] at hb

/-- A byte of a word is told apart from white space and from the start of a comment, and a letter
from a digit. -/
theorem classes_of_isWordByte {b : UInt8} (h : isWordByte b = true) : b.toNat < 128 ∧
    isSpace b = false ∧ b ≠ ascii '/' ∧ (isLetter b = true → isDigit b = false) := by
  have hall := forall_byte (P := fun b => !isWordByte b || (decide (b.toNat < 128) && !isSpace b &&
    b != ascii '/' && !(isLetter b && isDigit b))) (by decide +kernel) b
  simp only [h, Bool.not_true, Bool.false_or, Bool.and_eq_true, decide_eq_true_eq,
    Bool.not_eq_true', bne_iff_ne, Bool.and_eq_false_imp] at hall
  obtain ⟨⟨⟨hascii, hspace⟩, hslash⟩, hdigit⟩ := hall
  exact ⟨hascii, hspace, hslash, hdigit⟩

theorem toNat_ofNat_ascii {n : Nat} (h : n < 128) : (Char.ofNat n).toNat = n := by
  have hvalid : n.isValidChar := .inl (by omega)
  rw [Char.ofNat, dif_pos hvalid]
  rfl

/-- Text of ASCII bytes is read back. -/
theorem toBytes_asciiText {bytes : Bytes} (h : ∀ b ∈ bytes, b.toNat < 128) :
    toBytes (asciiText bytes) = bytes := by
  unfold asciiText
  rw [Text.toBytes_ofList, List.map_map]
  · refine (List.map_congr_left fun b hb => ?_).trans (List.map_id bytes)
    show (Char.ofNat b.toNat).toNat.toUInt8 = b
    rw [toNat_ofNat_ascii (h b hb)]
    exact UInt8.ofNat_toNat
  · intro c hc
    obtain ⟨b, hb, rfl⟩ := List.mem_map.mp hc
    rw [toNat_ofNat_ascii (h b hb)]
    exact h b hb

/-- A run stops where its bytes do. -/
theorem takeWhile_append_stop {p : UInt8 → Bool} {run : Bytes} (hrun : ∀ b ∈ run, p b = true)
    (hrest : ∀ b, rest.head? = some b → p b = false) : (run ++ rest).takeWhile p = run := by
  rw [List.takeWhile_append_of_pos hrun]
  cases rest with
  | nil => exact List.append_nil run
  | cons b rest => rw [List.takeWhile_cons_of_neg (by simp [hrest b rfl]), List.append_nil]

/-- A word has itself as its only lexeme. -/
theorem IsWord.lexes {w : String} (h : IsWord w) : Lexes w [.word w] := by
  obtain ⟨a, run, rfl, ha, hrun⟩ := h
  intro rest hrest
  have hword : isWordByte a = true := by simp [isWordByte, ha]
  obtain ⟨-, hspace, hslash, hdigit⟩ := classes_of_isWordByte hword
  have hbytes : toBytes (asciiText (a :: run)) = a :: run := by
    refine toBytes_asciiText fun b hb => (classes_of_isWordByte ?_).1
    rcases List.mem_cons.mp hb with rfl | hb
    · exact hword
    · exact hrun b hb
  have htake : (run ++ rest).takeWhile isWordByte = run :=
    takeWhile_append_stop hrun fun b hb => (hrest b hb).1
  rw [hbytes]
  refine scan_lexeme run ?_
  simp [pieceAt, hspace, hslash, hdigit ha, ha, htake]

/-- The digits of a number are digits as bytes. -/
theorem isDigit_toUInt8 {c : Char} (h : c.isDigit = true) :
    c.toNat < 128 ∧ isDigit c.toNat.toUInt8 = true ∧ Char.ofNat c.toNat.toUInt8.toNat = c := by
  have hrange : 48 ≤ c.toNat ∧ c.toNat ≤ 57 := by
    simp only [Char.isDigit, Bool.and_eq_true, decide_eq_true_eq, ge_iff_le,
      UInt32.le_iff_toNat_le] at h
    exact h
  have hdigit : ∀ n < 58, 48 ≤ n → isDigit n.toUInt8 = true ∧ n.toUInt8.toNat = n := by
    decide +kernel
  obtain ⟨hbyte, hback⟩ := hdigit c.toNat (by omega) hrange.1
  refine ⟨by omega, hbyte, ?_⟩
  rw [hback, Char.ofNat_toNat]

/-- The digits of a number are one lexeme. -/
theorem lexes_number (n : Nat) : Lexes (toString n) [.number (toString n)] := by
  have hdigit : ∀ c ∈ Nat.toDigits 10 n, c.isDigit = true :=
    fun c hc => Nat.isDigit_of_mem_toDigits (by decide) (by decide) hc
  have htext : toString n = String.ofList (Nat.toDigits 10 n) := Nat.repr_eq_ofList_toDigits
  have hbytes : toBytes (toString n) = (Nat.toDigits 10 n).map fun c => c.toNat.toUInt8 := by
    rw [htext]
    exact Text.toBytes_ofList fun c hc => (isDigit_toUInt8 (hdigit c hc)).1
  have hback : asciiText (toBytes (toString n)) = toString n := by
    rw [hbytes, asciiText, List.map_map, htext]
    refine congrArg String.ofList ((List.map_congr_left fun c hc => ?_).trans (List.map_id _))
    exact (isDigit_toUInt8 (hdigit c hc)).2.2
  have hall : ∀ b ∈ toBytes (toString n), isDigit b = true := by
    rw [hbytes]
    intro b hb
    obtain ⟨c, hc, rfl⟩ := List.mem_map.mp hb
    exact (isDigit_toUInt8 (hdigit c hc)).2.1
  intro rest hrest
  -- the run of digits ends with the number, since no digit follows
  cases hrun : toBytes (toString n) with
  | nil =>
    rw [hbytes, List.map_eq_nil_iff] at hrun
    exact absurd hrun Nat.toDigits_ne_nil
  | cons a run =>
    rw [hrun] at hall hback
    have ha := hall a List.mem_cons_self
    obtain ⟨-, hspace, hslash, -⟩ := classes_of_isWordByte (b := a) (by simp [isWordByte, ha])
    have htake : (run ++ rest).takeWhile isDigit = run := by
      refine takeWhile_append_stop (fun b hb => hall b (List.mem_cons_of_mem _ hb)) fun b hb => ?_
      have hword := (hrest b hb).1
      unfold isWordByte at hword
      exact (Bool.or_eq_false_iff.mp hword).2
    refine scan_lexeme run ?_
    simp [pieceAt, hspace, hslash, ha, htake, hback]

end MicroFlow.Source
