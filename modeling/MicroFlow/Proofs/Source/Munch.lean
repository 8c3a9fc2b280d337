import MicroFlow.Proofs.Source.Lexing
import MicroFlow.Proofs.Source.Places

/-!
# A text as its lexemes and what lies between them

Cutting a text into lexemes loses nothing: the text is its lexemes in order, with blanks and
comments in between (`Cuts`).  Each lexeme is as long as it can be (`Lexeme.Longest`), and stands at
the place behind all that comes before it (`placeAfter`).  A text that is not cut to its end is cut
up to the first byte with which no lexeme, blank or comment starts.
-/

namespace MicroFlow.Source

open MicroFlow.Text (Bytes toBytes)

/-- In front of the rest of a text, a blank or a comment, which ends with its line. -/
inductive Skipped (rest : Bytes) : Bytes → Prop
  | blank {b : UInt8} (blank : isSpace b = true) : Skipped rest [b]
  | comment {text : Bytes} (slashes : toBytes "//" <+: text) (line : ascii '\n' ∉ text)
      (stop : ∀ b ∈ rest.head?, b = ascii '\n') : Skipped rest text

/-- Between two parts of a text, the lexeme could not be longer. -/
def Lexeme.Longest (before rest : Bytes) : Lexeme → Prop
  | .number digits => toBytes digits ≠ [] ∧ (∀ b ∈ toBytes digits, isDigit b = true) ∧
      (∀ b ∈ before.getLast?, isWordByte b = false) ∧ ∀ b ∈ rest.head?, isDigit b = false
  | .word letters => (∃ b ∈ (toBytes letters).head?, isDigit b = false) ∧
      (∀ b ∈ toBytes letters, isWordByte b = true) ∧
      (∀ b ∈ before.getLast?, isLetter b = false) ∧ ∀ b ∈ rest.head?, isWordByte b = false
  | .mark p => ¬ toBytes "//" <+: toBytes p.text ++ rest ∧
      ∀ q : Punct, toBytes q.text <+: toBytes p.text ++ rest →
        (toBytes q.text).length ≤ (toBytes p.text).length

/-- With this byte no lexeme, blank or comment starts. -/
def StartsNothing (a : UInt8) (rest : Bytes) : Prop :=
  isSpace a = false ∧ isWordByte a = false ∧ ¬ toBytes "//" <+: a :: rest ∧
    ∀ q : Punct, ¬ toBytes q.text <+: a :: rest

/-- Between `before` and `tail`, a text consists of the lexemes and of what is skipped. -/
inductive Cuts (tail : Bytes) : Bytes → Bytes → List Located → Prop
  | done {before : Bytes} : Cuts tail before [] []
  | skipped {before text rest : Bytes} {ls : List Located} (gap : Skipped (rest ++ tail) text)
      (next : Cuts tail (before ++ text) rest ls) : Cuts tail before (text ++ rest) ls
  | lexeme {before rest : Bytes} {l : Lexeme} {ls : List Located}
    (longest : l.Longest before (rest ++ tail))
      (next : Cuts tail (before ++ toBytes l.text) rest ls) :
      Cuts tail before (toBytes l.text ++ rest) (⟨l, placeAfter before⟩ :: ls)

/-! ## Marks -/

theorem toBytes_slashes : toBytes "//" = [ascii '/', ascii '/'] := by decide +kernel

variable {p : Punct} {src : Bytes}

/-- A mark at the head of a text has one byte or two, and the tables know it. -/
theorem mark_of_prefix {a : UInt8} {rest : Bytes} (h : toBytes p.text <+: a :: rest) :
    (toBytes p.text).length = 1 ∧ singleMark? a = some p ∨
      (toBytes p.text).length = 2 ∧ rest.head?.bind (doubleMark? a) = some p := by
  rcases p.isSingle_or_isDouble with hp | hp
  · unfold Punct.isSingle at hp
    split at hp
    next b hbytes =>
      simp only [Bool.and_eq_true, beq_iff_eq] at hp
      rw [hbytes, List.cons_prefix_cons] at h
      obtain ⟨rfl, -⟩ := h
      exact .inl ⟨by rw [hbytes]; rfl, hp.2⟩
    next => cases hp
  · unfold Punct.isDouble at hp
    split at hp
    next b c hbytes =>
      simp only [Bool.and_eq_true, beq_iff_eq] at hp
      rw [hbytes, List.cons_prefix_cons, List.cons_prefix_iff] at h
      obtain ⟨rfl, _, rfl, -⟩ := h
      exact .inr ⟨by rw [hbytes]; rfl, hp.2⟩
    next => cases hp

/-- A mark that is found by one byte is that byte. -/
theorem toBytes_of_singleMark {a : UInt8} (h : singleMark? a = some p) : toBytes p.text = [a] := by
  have hall := forall_byte (P := fun a => (singleMark? a).all fun p => toBytes p.text == [a])
    (by decide +kernel) a
  simpa [h] using hall

/-- A mark that is found by two bytes ends with `=`. -/
theorem toBytes_of_doubleMark {a b : UInt8} (h : doubleMark? a b = some p) :
    toBytes p.text = [a, b] ∧ b = ascii '=' := by
  have hb : b = ascii '=' := by
    by_contra hb
    rw [doubleMark?_of_ne hb] at h
    cases h
  subst hb
  have hall := forall_byte (P := fun a => (doubleMark? a (ascii '=')).all fun p =>
    toBytes p.text == [a, ascii '=']) (by decide +kernel) a
  exact ⟨by simpa [h] using hall, rfl⟩

/-! ## The piece at the head of a text -/

/-- No word or number goes on from one part of a text to the next. -/
def Apart (before rest : Bytes) : Prop :=
  ∀ a ∈ before.getLast?, ∀ b ∈ rest.head?, isWordByte a = true →
    isDigit b = false ∧ (isLetter a = true → isLetter b = false)

/-- The bytes are a lexeme, or else they are skipped. -/
def Fits (before text rest : Bytes) : Option Lexeme → Prop
  | none => Skipped rest text
  | some l => toBytes l.text = text ∧ l.Longest before rest

/-- Behind `before`, the text of the piece that starts with `a` is cut off from what it cannot go on
with. -/
def CutsOff (before : Bytes) (a : UInt8) (rest : Bytes) (piece : Piece) : Prop :=
  ∃ text rest', rest = text ++ rest' ∧ piece.width = text.length + 1 ∧ a.toNat < 128 ∧
    Fits before (a :: text) rest' piece.lexeme? ∧ Apart (a :: text) rest'

variable {before rest : Bytes} {a : UInt8} {l? : Option Lexeme}

theorem apart_of_last (h : ∀ b ∈ before.getLast?, isWordByte b = false) : Apart before rest := by
  intro b hb _ _ hword
  rw [h b hb] at hword
  cases hword

theorem apart_of_head (h : ∀ b ∈ rest.head?, isWordByte b = false) : Apart before rest := by
  intro _ _ b hb _
  have hb := h b hb
  rw [isWordByte, Bool.or_eq_false_iff] at hb
  exact ⟨hb.2, fun _ => hb.1⟩

/-- Where a run has stopped, its bytes do not go on. -/
theorem stop_dropWhile (p : UInt8 → Bool) (l : Bytes) :
    ∀ b ∈ (l.dropWhile p).head?, p b = false := by
  intro b hb
  have h := List.head?_dropWhile_not p l
  rw [hb] at h
  exact h

/-- A blank is cut off alone. -/
theorem cutsOff_blank (h : isSpace a = true) : CutsOff before a rest ⟨none, 1⟩ := by
  have hall := forall_byte (P := fun a => !isSpace a || decide (a.toNat < 128) && !isWordByte a)
    (by decide +kernel) a
  obtain ⟨hascii, hword⟩ : a.toNat < 128 ∧ isWordByte a = false := by simpa [h] using hall
  refine ⟨[], rest, rfl, rfl, hascii, .blank h, apart_of_last fun b hb => ?_⟩
  cases hb
  exact hword

/-- How a comment starts. -/
theorem slashes_prefix_iff :
    toBytes "//" <+: a :: rest ↔ a = ascii '/' ∧ rest.head? = some (ascii '/') := by
  rw [toBytes_slashes, List.cons_prefix_cons, List.cons_prefix_iff, List.head?_eq_some_iff,
    @eq_comm _ a]
  simp only [List.nil_prefix, and_true]

/-- A comment takes the rest of its line and leaves the newline, which is a blank. -/
theorem cutsOff_comment (ha : a = ascii '/') (hrest : rest.head? = some (ascii '/')) :
    CutsOff before a rest ⟨none, 1 + (rest.takeWhile (· != ascii '\n')).length⟩ := by
  have hstop := stop_dropWhile (· != ascii '\n') rest
  simp only [bne_eq_false_iff_eq] at hstop
  refine ⟨rest.takeWhile (· != ascii '\n'), rest.dropWhile (· != ascii '\n'),
    List.takeWhile_append_dropWhile.symm, Nat.add_comm .., ?_, .comment ?_ ?_ hstop,
      apart_of_head ?_⟩
  · rw [ha]
    decide
  · obtain ⟨rest', rfl⟩ := List.head?_eq_some_iff.mp hrest
    exact slashes_prefix_iff.mpr ⟨ha, rfl⟩
  · intro hmem
    rcases List.mem_cons.mp hmem with hslash | hmem
    · rw [ha] at hslash
      cases hslash
    · exact absurd (List.all_eq_true.mp List.all_takeWhile _ hmem) (by simp)
  · intro b hb
    rw [hstop b hb]
    rfl

theorem isWordByte_of_isDigit {b : UInt8} (h : isDigit b = true) : isWordByte b = true := by
  simp [isWordByte, h]

/-- A run of word bytes is its own text. -/
theorem toBytes_run (rest : Bytes) {p : UInt8 → Bool} (hp : ∀ b, p b = true → isWordByte b = true)
    (ha : isWordByte a = true) :
    toBytes (asciiText (a :: rest.takeWhile p)) = a :: rest.takeWhile p := by
  refine toBytes_asciiText fun b hb => (classes_of_isWordByte ?_).1
  rcases List.mem_cons.mp hb with rfl | hb
  · exact ha
  · exact hp b (List.all_eq_true.mp List.all_takeWhile b hb)

/-- All digits are cut off at once. -/
theorem cutsOff_number (hapart : Apart before (a :: rest)) (ha : isDigit a = true) :
    CutsOff before a rest ⟨some (.number (asciiText (a :: rest.takeWhile isDigit))),
      (a :: rest.takeWhile isDigit).length⟩ := by
  have hword := isWordByte_of_isDigit ha
  have hbytes := toBytes_run rest (fun _ => isWordByte_of_isDigit) hword
  have hstop := stop_dropWhile isDigit rest
  have hrun : ∀ b ∈ a :: rest.takeWhile isDigit, isDigit b = true := by
    simp only [List.forall_mem_cons]
    exact ⟨ha, List.all_eq_true.mp List.all_takeWhile⟩
  refine ⟨rest.takeWhile isDigit, rest.dropWhile isDigit, List.takeWhile_append_dropWhile.symm, rfl,
    (classes_of_isWordByte hword).1, ⟨hbytes, ?_⟩, fun x hx b hb _ =>
      ⟨hstop b hb, fun hletter => ?_⟩⟩
  · simp only [Lexeme.Longest, hbytes]
    refine ⟨List.cons_ne_nil _ _, hrun, fun b hb => Bool.eq_false_iff.mpr fun hb' => ?_, hstop⟩
    rw [(hapart b hb a rfl hb').1] at ha
    cases ha
  · -- a word can follow a number, since the number ends with a digit and not with a letter
    have hx := hrun x (List.mem_of_getLast? hx)
    rw [(classes_of_isWordByte (isWordByte_of_isDigit hx)).2.2.2 hletter] at hx
    cases hx

/-- All letters and digits of a word are cut off at once. -/
theorem cutsOff_word (hapart : Apart before (a :: rest)) (ha : isLetter a = true) :
    CutsOff before a rest ⟨some (.word (asciiText (a :: rest.takeWhile isWordByte))),
      (a :: rest.takeWhile isWordByte).length⟩ := by
  have hword : isWordByte a = true := by simp [isWordByte, ha]
  have hbytes := toBytes_run rest (fun _ => id) hword
  have hstop := stop_dropWhile isWordByte rest
  refine ⟨rest.takeWhile isWordByte, rest.dropWhile isWordByte,
    List.takeWhile_append_dropWhile.symm, rfl,
    (classes_of_isWordByte hword).1, ⟨hbytes, ?_⟩, apart_of_head hstop⟩
  simp only [Lexeme.Longest, hbytes, List.forall_mem_cons]
  refine ⟨⟨a, rfl, (classes_of_isWordByte hword).2.2.2 ha⟩,
    ⟨hword, List.all_eq_true.mp List.all_takeWhile⟩,
    fun b hb => Bool.eq_false_iff.mpr fun hb' => ?_, hstop⟩
  rw [(hapart b hb a rfl (by simp [isWordByte, hb'])).2 hb'] at ha
  cases ha

/-- A mark is cut off, the longer one if there are two. -/
theorem cutsOff_mark {piece : Piece} (hword : isWordByte a = false)
    (hslash : ¬ toBytes "//" <+: a :: rest)
    (h : markAt a rest = some piece) : CutsOff before a rest piece := by
  have hascii : ∀ p, singleMark? a = some p ∨ doubleMark? a (ascii '=') = some p →
    a.toNat < 128 := by
    have hall := forall_byte (P := fun a => decide (a.toNat < 128) || (singleMark? a).isNone &&
      (doubleMark? a (ascii '=')).isNone) (by decide +kernel) a
    intro p hp
    rcases hp with hp | hp <;> simpa [hp] using hall
  unfold markAt at h
  split at h
  -- a mark of two bytes: no mark is longer
  next p hp =>
    cases h
    obtain ⟨b, hb, hdouble⟩ := Option.bind_eq_some_iff.mp hp
    obtain ⟨rest', rfl⟩ := List.head?_eq_some_iff.mp hb
    obtain ⟨hbytes, rfl⟩ := toBytes_of_doubleMark hdouble
    refine ⟨[ascii '='], rest', rfl, rfl, hascii p (.inr hdouble), ⟨hbytes, ?_⟩, apart_of_last ?_⟩
    · simp only [Lexeme.Longest, hbytes]
      refine ⟨hslash, fun q hq => ?_⟩
      rcases mark_of_prefix hq with h | h <;> simp [h.1]
    · intro b hb
      cases hb
      rfl
  next hnone =>
    obtain ⟨p, hsingle, hp⟩ := Option.map_eq_some_iff.mp h
    cases hp
    have hbytes := toBytes_of_singleMark hsingle
    refine ⟨[], rest, rfl, rfl, hascii p (.inl hsingle), ⟨hbytes, ?_⟩, apart_of_last ?_⟩
    · simp only [Lexeme.Longest, hbytes]
      refine ⟨hslash, fun q hq => ?_⟩
      rcases mark_of_prefix hq with h | h
      · simp [h.1]
      -- a longer mark would have been found
      · exact absurd (hnone.symm.trans h.2) (by simp)
    · intro b hb
      cases hb
      exact hword

/-- Whatever is cut off is as long as can be, by the kind of piece. -/
theorem cutsOff_of_pieceAt {piece : Piece} (hapart : Apart before (a :: rest))
    (h : pieceAt a rest = some piece) : CutsOff before a rest piece := by
  unfold pieceAt at h
  split at h
  next hspace =>
    cases h
    exact cutsOff_blank hspace
  next =>
    simp only [Bool.and_eq_true, beq_iff_eq] at h
    split at h
    next hslash =>
      cases h
      exact cutsOff_comment hslash.1 hslash.2
    next hslash =>
      split at h
      next hdigit =>
        cases h
        exact cutsOff_number hapart hdigit
      next hdigit =>
        split at h
        next hletter =>
          cases h
          exact cutsOff_word hapart hletter
        next hletter =>
          refine cutsOff_mark ?_ (mt slashes_prefix_iff.mp hslash) h
          simp [isWordByte, hdigit, hletter]

/-- Where no piece is found, nothing starts. -/
theorem startsNothing_of_pieceAt (h : pieceAt a rest = none) : StartsNothing a rest := by
  unfold pieceAt at h
  split at h
  next => cases h
  next hspace =>
    simp only [Bool.and_eq_true, beq_iff_eq] at h
    split at h
    next => cases h
    next hslash =>
      split at h
      next => cases h
      next hdigit =>
        split at h
        next => cases h
        next hletter =>
          refine ⟨by simp [hspace], by simp [isWordByte, hdigit, hletter],
            mt slashes_prefix_iff.mp hslash, fun q hq => ?_⟩
          unfold markAt at h
          rcases mark_of_prefix hq with ⟨-, hq⟩ | ⟨-, hq⟩ <;> rw [hq] at h
          · split at h <;> cases h
          · cases h

/-! ## The whole text -/

/-- A piece in front of a text that is cut. -/
theorem Fits.cuts {tail text : Bytes} {ls : List Located} (h : Fits before text (rest ++ tail) l?)
    (next : Cuts tail (before ++ text) rest ls) :
    Cuts tail before (text ++ rest) (l?.toList.map (⟨·, placeAfter before⟩) ++ ls) := by
  cases l? with
  | none => exact .skipped h next
  | some l =>
    obtain ⟨rfl, hl⟩ := h
    exact .lexeme hl next

/-- What comes out when the text behind `before` is cut: its lexemes, at places one behind the
other, or the first byte that starts nothing. -/
def Outcome (before src : Bytes) : Except SyntaxError Lexed → Prop
  | .ok l => Cuts [] before src l.lexemes ∧ l.stop = placeAfter (before ++ src) ∧
      l.lexemes.Pairwise (fun s t => s.pos.Before t.pos) ∧
      ∀ t ∈ l.lexemes, ¬ t.pos.Before (placeAfter before)
  | .error e => ∃ passed b rest ls, src = passed ++ b :: rest ∧ Cuts (b :: rest) before passed ls ∧
      StartsNothing b rest ∧ e = ⟨placeAfter (before ++ passed), .unexpected b⟩

/-- A piece in front of a text that is cut, and that stands at a later place. -/
theorem Outcome.behind {text : Bytes} {l : Lexed} (hfits : Fits before text rest l?)
    (hlater : (placeAfter before).Before (placeAfter (before ++ text)))
    (h : Outcome (before ++ text) rest (.ok l)) : Outcome before (text ++ rest)
      (.ok { l with lexemes := l?.toList.map (⟨·, placeAfter before⟩) ++ l.lexemes }) := by
  obtain ⟨hcuts, hstop, hsorted, hafter⟩ := h
  rw [← List.append_nil rest] at hfits
  rw [List.append_assoc] at hstop
  replace hafter : ∀ t ∈ l.lexemes, (placeAfter before).Before t.pos :=
    fun t ht => hlater.of_not (hafter t ht)
  refine ⟨hfits.cuts hcuts, hstop, ?_⟩
  cases l? with
  | none => exact ⟨hsorted, fun t ht => (hafter t ht).asymm⟩
  | some l =>
    refine ⟨List.pairwise_cons.mpr ⟨hafter, hsorted⟩, fun t ht => ?_⟩
    rcases List.mem_cons.mp ht with rfl | ht
    · exact fun h => h.asymm h
    · exact (hafter t ht).asymm

/-- A piece in front of a text that is not cut to its end. -/
theorem Outcome.error_behind {text : Bytes} {e : SyntaxError} (hfits : Fits before text rest l?)
    (h : Outcome (before ++ text) rest (.error e)) : Outcome before (text ++ rest) (.error e) := by
  obtain ⟨passed, b, rest, ls, rfl, hcuts, hb, rfl⟩ := h
  refine ⟨text ++ passed, b, rest, _, ?_, hfits.cuts hcuts, hb, ?_⟩
  · rw [List.append_assoc]
  · rw [List.append_assoc]

/-- The whole text is cut, or the text up to the first byte that starts nothing. -/
theorem outcome_lexFrom (before src : Bytes) (h : Apart before src) :
    Outcome before src (lexFrom 0 (placeAfter before) src) := by
  -- on the length of the text, since a piece takes one byte or more; what was cut off stays apart
  -- from the rest
  induction hn : src.length using Nat.strongRecOn generalizing before src with
  | ind n ih =>
    cases src with
    | nil => exact ⟨.done, by rw [List.append_nil], .nil, fun t ht => by cases ht⟩
    | cons a rest =>
      rw [lexFrom]
      cases hpiece : pieceAt a rest with
      | none =>
        exact ⟨[], a, rest, [], rfl, .done, startsNothing_of_pieceAt hpiece, by
          rw [List.append_nil]⟩
      | some piece =>
        obtain ⟨l?, width⟩ := piece
        obtain ⟨text, rest', rfl, rfl, hascii, hfits, hapart⟩ := cutsOff_of_pieceAt h hpiece
        -- pieces start with a byte of ASCII, so their places add up
        have hplace : (placeAfter before).after (a :: text) = placeAfter (before ++ a :: text) := by
          refine Pos.after_placeAfter before fun b hb => ?_
          cases hb
          exact UInt8.lt_iff_toNat_lt.mpr hascii
        have hlater : (placeAfter before).Before (placeAfter (before ++ a :: text)) :=
          hplace ▸ Pos.before_after a text
        have hshorter : rest'.length < n := by
          rw [← hn, List.length_cons, List.length_append]
          omega
        have hstays : Apart (before ++ a :: text) rest' := by
          intro x hx
          rw [List.getLast?_append, List.getLast?_cons, Option.some_or, ← List.getLast?_cons] at hx
          exact hapart x hx
        have hnext := ih rest'.length hshorter (before ++ a :: text) rest' hstays rfl
        dsimp only
        rw [Nat.add_sub_cancel, List.take_left, hplace, lexFrom_skip]
        cases htail : lexFrom 0 (placeAfter (before ++ a :: text)) rest' with
        | error e => exact (htail ▸ hnext).error_behind hfits
        | ok tail =>
          have hwhole := (htail ▸ hnext).behind hfits hlater
          cases l? <;> exact hwhole

theorem outcome_lex (src : Bytes) : Outcome [] src (lex src) :=
  outcome_lexFrom [] src fun a ha => by cases ha

/-- Lexemes stand at later and later places. -/
theorem ascending_of_lex {l : Lexed} (h : lex src = .ok l) :
    l.lexemes.Pairwise fun s t => s.pos.Before t.pos := by
  have hout := outcome_lex src
  rw [h] at hout
  exact hout.2.2.1

theorem Cuts.longest {tail before : Bytes} {ls : List Located} (h : Cuts tail before src ls) :
    ∀ t ∈ ls, ∃ before rest, t.lexeme.Longest before rest := by
  induction h with
  | done => exact fun t ht => by cases ht
  | skipped _ _ ih => exact ih
  | lexeme hl _ ih => exact List.forall_mem_cons.mpr ⟨⟨_, _, hl⟩, ih⟩

/-- The words among the lexemes are words as bytes, too. -/
theorem isWord_of_lexFrom {l : Lexed} (h : lexFrom 0 .first src = .ok l) :
    ∀ t ∈ l.lexemes, ∀ w, t.lexeme = .word w → IsWord w := by
  have hout := outcome_lex src
  rw [lex, h] at hout
  intro t ht w hw
  obtain ⟨before, rest, hlong⟩ := hout.1.longest t ht
  rw [hw] at hlong
  obtain ⟨⟨a, ha, hdigit⟩, hword, -⟩ := hlong
  obtain ⟨run, hrun⟩ := List.head?_eq_some_iff.mp ha
  rw [hrun] at hword
  refine ⟨a, run, Text.toBytes_inj ?_, ?_, fun b hb => hword b (List.mem_cons_of_mem a hb)⟩
  · rw [hrun, toBytes_asciiText fun b hb => (classes_of_isWordByte (hword b hb)).1]
  · simpa [isWordByte, hdigit] using hword a List.mem_cons_self

/-- The only error is about a byte of the text. -/
theorem unexpected_of_lex {e : SyntaxError} (h : lex src = .error e) :
    ∃ b ∈ src, e.cause = .unexpected b := by
  have hout := outcome_lex src
  rw [h] at hout
  obtain ⟨passed, b, rest, ls, rfl, -, -, rfl⟩ := hout
  exact ⟨b, by simp, rfl⟩

/--
**Lexing loses nothing and takes the longest lexemes.**  Either the whole text is cut into lexemes
that are as long as can be, with only blanks and comments in between, and each lexeme and the end
have the place that the newlines and code points before them give; or the text is cut in this way up
to the first byte with which no lexeme, blank or comment starts, and that byte is reported at its
place.
-/
theorem lex_cuts_the_text (src : Bytes) :
    (∃ l, lex src = .ok l ∧ Cuts [] [] src l.lexemes ∧ l.stop = placeAfter src) ∨
      ∃ before b rest ls, src = before ++ b :: rest ∧ Cuts (b :: rest) [] before ls ∧
        StartsNothing b rest ∧ lex src = .error ⟨placeAfter before, .unexpected b⟩ := by
  have hout := outcome_lex src
  cases hlex : lex src with
  | ok l =>
    rw [hlex] at hout
    exact .inl ⟨l, rfl, hout.1, hout.2.1⟩
  | error e =>
    rw [hlex] at hout
    obtain ⟨before, b, rest, ls, hsrc, hcuts, hb, rfl⟩ := hout
    exact .inr ⟨before, b, rest, ls, hsrc, hcuts, hb, rfl⟩

end MicroFlow.Source
