import Mathlib.Data.List.Basic
import MicroFlow.Proofs.Files.Selection

/-!
# Rules as they are written

A line of an ignore file writes a rule: `!` in front negates it, a slash at the end restricts it
to directories, and a slash at the start or between its segments anchors it
(`IgnoreRule.Written`).  Blank lines and lines that start with `#` write nothing
(`IgnoreRule.InLines`).
-/

namespace MicroFlow

open MicroFlow.Path (IsName)
open MicroFlow.Text (Bytes)

/-! ## Lines -/

namespace IgnoreRule

/-- A byte that is written or left out. -/
def mark (b : UInt8) (present : Bool) : Bytes := if present then [b] else []

/--
How a rule is written.  A mark that can be read as such is one, so a line writes one rule only.
-/
structure Written (r : IgnoreRule) (rooted : Bool) (line : Bytes) : Prop where
  text : r.text = line
  segments_ne : r.segments ≠ []
  no_slash : ∀ s ∈ r.segments, Path.slash ∉ s
  line_eq : line = mark exclamation r.negated ++
    (mark Path.slash rooted ++ Path.join r.segments ++ mark Path.slash r.directoryOnly)
  anchored : r.anchored = true ↔ rooted = true ∨ 1 < r.segments.length
  negated_of_head : line.head? = some exclamation → r.negated = true
  directoryOnly_of_last : line.getLast? = some Path.slash → r.directoryOnly = true
  rooted_of_head : (Path.join r.segments).head? = some Path.slash → rooted = true

/-- The rest of bytes behind a mark, if they start with it. -/
def dropMark (b : UInt8) (bytes : Bytes) : Bytes :=
  if bytes.head? == some b then bytes.drop 1 else bytes

/-- The rest of bytes before a mark, if they end with it. -/
def dropLastMark (b : UInt8) (bytes : Bytes) : Bytes :=
  if bytes.getLast? == some b then bytes.dropLast else bytes

/-- A mark in front, and what is behind it. -/
theorem mark_append_dropMark (b : UInt8) (bytes : Bytes) :
    mark b (bytes.head? == some b) ++ dropMark b bytes = bytes := by
  cases bytes with
  | nil => rfl
  | cons a rest =>
    by_cases ha : a = b
    · simp [mark, dropMark, ha]
    · simp [mark, dropMark, ha]

theorem dropLastMark_append_mark (b : UInt8) (bytes : Bytes) :
    dropLastMark b bytes ++ mark b (bytes.getLast? == some b) = bytes := by
  by_cases hlast : bytes.getLast? = some b
  · obtain ⟨rest, rfl⟩ := List.getLast?_eq_some_iff.mp hlast
    simp [mark, dropLastMark]
  · simp [mark, dropLastMark, hlast]

variable {b : UInt8} {bytes line base : Bytes}

/-- A mark at the start is recognized. -/
theorem head?_mark {present : Bool}
    (h : (mark b present ++ bytes).head? = some b → present = true) :
    ((mark b present ++ bytes).head? == some b) = present ∧
      dropMark b (mark b present ++ bytes) = bytes := by
  cases present with
  | true => simp [mark, dropMark]
  | false =>
    have hne : bytes.head? ≠ some b := by simpa [mark] using h
    simp [mark, dropMark, hne]

/-- A mark at the end is recognized. -/
theorem getLast?_mark {present : Bool}
    (h : (bytes ++ mark b present).getLast? = some b → present = true) :
    ((bytes ++ mark b present).getLast? == some b) = present ∧
      dropLastMark b (bytes ++ mark b present) = bytes := by
  cases present with
  | true => simp [mark, dropLastMark]
  | false =>
    have hne : bytes.getLast? ≠ some b := by simpa [mark] using h
    simp [mark, dropLastMark, hne]

/-- A line without its marks, except the one at the start of the pattern. -/
def pattern (line : Bytes) : Bytes := dropLastMark Path.slash (dropMark exclamation line)

/-- A rule is read mark by mark. -/
theorem ofLine_eq (line : Bytes) : ofLine line =
    { text := line
      negated := line.head? == some exclamation
      directoryOnly := (dropMark exclamation line).getLast? == some Path.slash
      anchored := (pattern line).head? == some Path.slash ||
        (dropMark Path.slash (pattern line)).contains Path.slash
      segments := Path.split (dropMark Path.slash (pattern line)) } := rfl

/-- Dropping the first byte leaves the last one, unless it is the only one. -/
theorem getLast?_dropMark {a : UInt8} (h : bytes.getLast? = some a) (hne : a ≠ b) :
    (dropMark b bytes).getLast? = some a := by
  have hbytes := mark_append_dropMark b bytes
  rw [← hbytes, List.getLast?_append, Option.or_eq_some_iff] at h
  rcases h with h | ⟨-, h⟩
  · exact h
  · -- nothing is behind the mark, so it is the last byte itself
    unfold mark at h
    split at h
    · exact absurd (Option.some.inj h).symm hne
    · cases h

/-- What a line is read as is what it writes. -/
theorem written_ofLine (line base : Bytes) :
    ({ ofLine line with base := base } : IgnoreRule).Written
    ((pattern line).head? == some Path.slash) line := by
  have hjoin : Path.join (ofLine line).segments = dropMark Path.slash (pattern line) := by
    rw [ofLine_eq, Path.join_split]
  refine ⟨rfl, ?_, ?_, ?_, ?_, ?_, ?_, ?_⟩
  · rw [ofLine_eq]
    exact Path.split_ne_nil _
  · rw [ofLine_eq]
    exact fun s hs => Path.notMem_of_mem_split hs
  · dsimp only
    rw [hjoin, mark_append_dropMark, ofLine_eq]
    dsimp only
    rw [pattern, dropLastMark_append_mark, mark_append_dropMark]
  · rw [ofLine_eq]
    simp [Path.one_lt_length_split_iff]
  · intro h
    simp [ofLine_eq, h]
  · intro h
    simp [ofLine_eq, getLast?_dropMark h (b := exclamation) (by decide)]
  · intro h
    dsimp only at h
    rw [hjoin, dropMark] at h
    by_contra hrooted
    rw [if_neg hrooted] at h
    simp [h] at hrooted

/-- A line writes the rule that it is read as, and no other. -/
theorem written_iff {r : IgnoreRule} :
    (∃ rooted, r.Written rooted line) ↔ r = { ofLine line with base := r.base } := by
  constructor
  · rintro ⟨rooted, h⟩
    -- the marks come off one by one, as they are read
    obtain ⟨hnegated, hdrop⟩ := head?_mark (h.line_eq ▸ h.negated_of_head)
    have hlast : (mark Path.slash rooted ++ Path.join r.segments ++
        mark Path.slash r.directoryOnly).getLast? = some Path.slash → r.directoryOnly = true := by
      intro hlast
      refine h.directoryOnly_of_last ?_
      rw [h.line_eq, List.getLast?_append, hlast, Option.some_or]
    obtain ⟨hdirectory, hdropLast⟩ := getLast?_mark hlast
    have hrooted : (mark Path.slash rooted ++ Path.join r.segments).head? = some Path.slash →
        rooted = true := by
      cases rooted with
      | true => simp
      | false => simpa [mark] using h.rooted_of_head
    obtain ⟨hhead, hpattern⟩ := head?_mark hrooted
    rw [← h.line_eq] at hnegated hdrop
    have hline : pattern line = mark Path.slash rooted ++ Path.join r.segments := by
      rw [pattern, hdrop, hdropLast]
    rw [← hline] at hhead hpattern
    have hanchored : r.anchored = (rooted || (Path.join r.segments).contains Path.slash) := by
      rw [Bool.eq_iff_iff, h.anchored, Bool.or_eq_true, List.contains_iff_mem,
        ← Path.one_lt_length_split_iff, Path.split_join h.segments_ne h.no_slash]
    rw [ofLine_eq, hnegated, hdrop, hdirectory, hhead, hpattern,
      Path.split_join h.segments_ne h.no_slash, ← hanchored, ← h.text]
  · intro h
    rw [h]
    exact ⟨_, written_ofLine line _⟩

/-- The rules that lines write, in their order; blank lines and comments write none. -/
inductive InLines : List Bytes → List IgnoreRule → Prop
  | nil : InLines [] []
  | skip {line : Bytes} {lines : List Bytes} {rules : List IgnoreRule}
      (idle : line = [] ∨ line.head? = some Scan.numberSign) (rest : InLines lines rules) :
      InLines (line :: lines) rules
  | rule {line : Bytes} {lines : List Bytes} {r : IgnoreRule}
      {rules : List IgnoreRule} {rooted : Bool}
      (not_blank : line ≠ []) (not_comment : line.head? ≠ some Scan.numberSign)
      (written : r.Written rooted line) (rest : InLines lines rules) :
      InLines (line :: lines) (r :: rules)

theorem ruleOf?_eq_none (h : line = [] ∨ line.head? = some Scan.numberSign) :
    Scan.ruleOf? base line = none :=
  if_pos (by simpa using h)

theorem ruleOf?_eq_some (hblank : line ≠ []) (hcomment : line.head? ≠ some Scan.numberSign) :
    Scan.ruleOf? base line = some { ofLine line with base := base } :=
  if_neg (by simp [hblank, hcomment])

/-- The rules that lines write are those that are read from them one by one. -/
theorem inLines_iff {lines : List Bytes} {rules : List IgnoreRule} :
    InLines lines rules ∧ (∀ r ∈ rules, r.base = base) ↔
      lines.filterMap (Scan.ruleOf? base) = rules := by
  constructor
  · rintro ⟨h, hbase⟩
    induction h with
    | nil => rfl
    | skip idle _ ih => rw [List.filterMap_cons_none (ruleOf?_eq_none idle), ih hbase]
    | rule not_blank not_comment written _ ih =>
      rw [List.forall_mem_cons] at hbase
      have hrule := written_iff.mp ⟨_, written⟩
      rw [hbase.1] at hrule
      rw [List.filterMap_cons_some (ruleOf?_eq_some not_blank not_comment), ih hbase.2, ← hrule]
  · rintro rfl
    induction lines with
    | nil => exact ⟨.nil, by simp⟩
    | cons line rest ih =>
      by_cases hidle : line = [] ∨ line.head? = some Scan.numberSign
      · rw [List.filterMap_cons_none (ruleOf?_eq_none hidle)]
        exact ⟨.skip hidle ih.1, ih.2⟩
      · rw [not_or] at hidle
        rw [List.filterMap_cons_some (ruleOf?_eq_some hidle.1 hidle.2)]
        exact ⟨.rule hidle.1 hidle.2 (written_ofLine line base) ih.1,
          List.forall_mem_cons.mpr ⟨rfl, ih.2⟩⟩

end IgnoreRule

/-! ## Ignore files -/

/-- The rules in a directory, as its ignore file writes them. -/
inductive Entry.RulesAt (t : Entry) (dir : List Bytes) : List PlacedRule → Prop
  | missing (none_found : t.get? (dir ++ [Text.toBytes ".mcaignore"]) = none) : RulesAt t dir []
  | written {lines : List Bytes} {rules : List PlacedRule} (ne_nil : lines ≠ [])
      (found : t.get? (dir ++ [Text.toBytes ".mcaignore"]) = some (.file ([10].intercalate lines)))
      (each : ∀ l ∈ lines, 10 ∉ l ∧ l.length < 65536)
      (rules_in : IgnoreRule.InLines (lines.map Text.trimBytes) (rules.map Prod.snd))
      (placed : ∀ x ∈ rules, x.1 = dir ∧ x.2.base = Path.join dir) : RulesAt t dir rules

namespace Scan

/-- Lines are cut at line feeds. -/
theorem lines_eq (contents : Bytes) : lines contents = contents.splitOn 10 := by
  induction contents with
  | nil => rfl
  | cons b rest ih =>
    obtain ⟨line, others, hlines⟩ := List.exists_cons_of_ne_nil (List.splitOn_ne_nil 10 rest)
    have hcons : lines (b :: rest) = addByte b (lines rest) := rfl
    rw [hcons, ih, List.splitOn_cons_eq_if_modifyHead, hlines]
    rfl

/-- Lines are what newlines stand between. -/
theorem lines_eq_iff {contents : Bytes} {ls : List Bytes} :
    lines contents = ls ↔ ls ≠ [] ∧ (∀ l ∈ ls, 10 ∉ l) ∧ contents = [10].intercalate ls := by
  rw [lines_eq]
  constructor
  · rintro rfl
    exact ⟨List.splitOn_ne_nil _ _, fun l hl => Path.notMem_of_mem_splitOn hl,
      (List.intercalate_splitOn 10).symm⟩
  · rintro ⟨hne, heach, rfl⟩
    exact List.splitOn_intercalate 10 heach hne

/-- An ignore file is read line by line, and no line may be too long. -/
theorem rulesOf_eq_ok_iff {contents : Bytes} {dir : List Bytes} (hdir : ∀ n ∈ dir, IsName n)
    {rules : List IgnoreRule} : rulesOf contents (dirText dir) = .ok rules ↔
      (∀ l ∈ lines contents, l.length < 65536) ∧
        ((lines contents).map Text.trimBytes).filterMap (ruleOf? (Path.join dir)) = rules := by
  rw [rulesOf, base_dirText hdir, List.filterMap_map, Function.comp_def]
  by_cases hlong : ∀ l ∈ lines contents, l.length < 65536
  · have hany : (lines contents).any (lineLimit ≤ ·.length) = false := by
      rw [List.any_eq_false]
      exact fun l hl h => absurd (hlong l hl) (Nat.not_lt.mpr (of_decide_eq_true h))
    rw [hany, if_neg (by simp), Except.ok.injEq, and_iff_right hlong]
  · have hany : (lines contents).any (lineLimit ≤ ·.length) = true := by
      obtain ⟨l, hl, hlength⟩ : ∃ l ∈ lines contents, 65536 ≤ l.length := by simpa using hlong
      exact List.any_eq_true.mpr ⟨l, hl, decide_eq_true hlength⟩
    rw [hany, if_pos rfl]
    exact iff_of_false (by simp) fun h => hlong h.1

/-- The rules in a directory are those that the lines of its ignore file write. -/
theorem rulesIn?_eq_some_iff {t : Entry} {dir : List Bytes} (hdir : ∀ n ∈ dir, IsName n)
    {rules : List PlacedRule} : t.rulesIn? dir = some rules ↔ t.RulesAt dir rules := by
  rw [Entry.rulesIn?]
  constructor
  · intro h
    cases hfound : t.get? (dir ++ [({} : ScanOptions).ignoreFile]) with
    | none =>
      rw [hfound] at h
      cases h
      exact .missing hfound
    | some e =>
      rw [hfound] at h
      cases e with
      | file contents =>
        obtain ⟨own, hown, rfl⟩ := rulesFrom_file.mp h
        rw [rulesOf_eq_ok_iff hdir, ← IgnoreRule.inLines_iff] at hown
        obtain ⟨hshort, hin, hbase⟩ := hown
        -- the file has its lines, and so the rules that they write
        obtain ⟨hne, hfeed, hcontents⟩ := lines_eq_iff.mp (Eq.refl (lines contents))
        refine .written hne (hcontents ▸ hfound) (fun l hl => ⟨hfeed l hl, hshort l hl⟩) ?_
          fun x hx => ?_
        · simpa [Function.comp_def] using hin
        · obtain ⟨r, hr, rfl⟩ := List.mem_map.mp hx
          exact ⟨rfl, hbase r hr⟩
      | directory => cases h
      | link => cases h
  · intro h
    cases h with
    | missing none_found =>
      rw [none_found]
      rfl
    | @written ls _ ne_nil found each rules_in placed =>
      have hlines : lines ([10].intercalate ls) = ls :=
        lines_eq_iff.mpr ⟨ne_nil, fun l hl => (each l hl).1, rfl⟩
      rw [found, rulesFrom_file]
      refine ⟨rules.map Prod.snd, ?_, ?_⟩
      · rw [rulesOf_eq_ok_iff hdir, hlines, ← IgnoreRule.inLines_iff]
        refine ⟨fun l hl => (each l hl).2, rules_in, fun r hr => ?_⟩
        obtain ⟨x, hx, rfl⟩ := List.mem_map.mp hr
        exact (placed x hx).2
      · rw [List.map_map]
        calc rules.map ((dir, ·) ∘ Prod.snd)
            = rules.map id := List.map_congr_left fun x hx => Prod.ext (placed x hx).1.symm rfl
          _ = rules := List.map_id _

end Scan

end MicroFlow
