import Mathlib.Data.List.Infix
import MicroFlow.Files.Ignore
import MicroFlow.Proofs.Files.Path

/-!
# What rules ignore

A rule says which entries it covers, among those below the directory of the file in which it stands
(`IgnoreRule.Covers`).  Of rules with their directories, the last that covers an entry decides
(`IgnoredBy`).
-/

namespace MicroFlow

open MicroFlow.Path (IsName)
open MicroFlow.Text (Bytes)

namespace IgnoreRule

/-! ## One rule -/

/-- Segments stand for names, one for one, but `**` for any number of them. -/
inductive Spans : List Bytes → List Bytes → Prop
  | nil : Spans [] []
  | across {segments names : List Bytes} (skipped : List Bytes) (rest : Spans segments names) :
      Spans (anyNames :: segments) (skipped ++ names)
  | name {segment name : Bytes} {segments names : List Bytes} (plain : segment ≠ anyNames)
      (here : Glob.isMatch segment name = true) (rest : Spans segments names) :
      Spans (segment :: segments) (name :: names)

variable {names : List Bytes}

/-- Segments are matched as they span names. -/
theorem matchNames_iff {segments : List Bytes} :
    matchNames segments names = true ↔ Spans segments names := by
  induction segments generalizing names with
  | nil =>
    rw [matchNames, List.isEmpty_iff]
    refine ⟨?_, fun h => ?_⟩
    · rintro rfl
      exact .nil
    · cases h
      rfl
  | cons segment segments ih =>
    unfold matchNames
    by_cases hany : segment = anyNames
    · rw [if_pos (by simpa using hany), List.any_eq_true]
      constructor
      · rintro ⟨i, -, h⟩
        rw [hany, ← List.take_append_drop i names]
        -- the segment stands for the first `i` names
        exact .across _ (ih.mp h)
      · intro h
        cases h with
        | @across _ behind skipped rest =>
          have hlt : skipped.length < (skipped ++ behind).length + 1 := by
            rw [List.length_append]
            omega
          refine ⟨skipped.length, List.mem_range.mpr hlt, ih.mpr ?_⟩
          rwa [List.drop_left]
        | name plain => exact absurd hany plain
    · rw [if_neg (by simpa using hany)]
      cases names with
      | nil =>
        refine iff_of_false (by simp) fun h => ?_
        generalize hnames : ([] : List Bytes) = names at h
        cases h with
        | across => exact hany rfl
        | name => cases hnames
      | cons name rest =>
        rw [Bool.and_eq_true, ih]
        constructor
        · rintro ⟨hhere, hrest⟩
          exact .name hany hhere hrest
        · intro h
          generalize hnames : name :: rest = names at h
          cases h with
          | across => exact absurd rfl hany
          | name _ hhere hrest =>
            cases hnames
            exact ⟨hhere, hrest⟩

/--
A rule covers an entry, given by its names below the directory of the rule: the whole of them if the
rule is anchored, otherwise the last one.
-/
def Covers (r : IgnoreRule) (names : List Bytes) (directory : Bool) : Prop :=
  (r.directoryOnly = true → directory = true) ∧
    if r.anchored then Spans r.segments names
    else ∃ name, names.getLast? = some name ∧ Spans r.segments [name]

variable {dir path : List Bytes}

/-- What is below a directory is the path of the names behind those of the directory. -/
theorem below?_join (hdir : ∀ n ∈ dir, IsName n) (hpath : ∀ n ∈ path, IsName n) (hne : path ≠ [])
    {rest : Bytes} : below? (Path.join dir) (Path.join path) = some rest ↔
      ∃ names, names ≠ [] ∧ path = dir ++ names ∧ rest = Path.join names := by
  unfold below?
  by_cases hnil : dir = []
  · subst hnil
    simp only [Path.join_nil, BEq.rfl, if_true, Option.some.injEq, List.nil_append]
    constructor
    · rintro rfl
      exact ⟨path, hne, rfl, rfl⟩
    · rintro ⟨names, -, rfl, rfl⟩
      rfl
  · have hbase : (Path.join dir == []) = false := by
      simpa using Path.join_ne_empty hnil hdir
    simp only [hbase, Bool.false_eq_true, if_false, List.isPrefixOf_iff_prefix]
    constructor
    · intro h
      split at h
      · rename_i hprefix
        obtain ⟨tail, htail⟩ := hprefix
        have htext : Path.join path = Path.join dir ++ Path.slash :: tail := by
          simp [← htail]
        have hrest : rest = tail := by simpa [← htail] using h.symm
        have hnames := Path.split_ne_nil tail
        -- the path has the names of its two parts
        have hsplit : path = dir ++ Path.split tail := by
          rw [← Path.split_join hne fun n hn => (hpath n hn).no_slash, htext, Path.split_append,
            Path.split_join hnil fun n hn => (hdir n hn).no_slash]
        exact ⟨_, hnames, hsplit, by rw [hrest, Path.join_split]⟩
      · cases h
    · rintro ⟨names, hnames, rfl, rfl⟩
      rw [Path.join_append hnil hnames]
      simp

theorem drop_length_sub_one {name : Bytes} (h : names.getLast? = some name) :
    names.drop (names.length - 1) = [name] := by
  obtain ⟨before, rfl⟩ := List.getLast?_eq_some_iff.mp h
  simp

/-- A rule matches a path when it covers the names of the path below the directory of the rule. -/
theorem isMatch_iff {r : IgnoreRule} (hbase : r.base = Path.join dir) (hdir : ∀ n ∈ dir, IsName n)
    (hpath : ∀ n ∈ path, IsName n) (hne : path ≠ []) {directory : Bool} :
    r.isMatch (Path.join path) directory = true ↔
      ∃ names, names ≠ [] ∧ path = dir ++ names ∧ r.Covers names directory := by
  have hcovers : ∀ {names : List Bytes}, names ≠ [] → path = dir ++ names →
      (r.isMatch (Path.join path) directory = true ↔ r.Covers names directory) := by
    intro names hnames hsplit
    have hbelow := (below?_join hdir hpath hne).mpr ⟨names, hnames, hsplit, rfl⟩
    have hslash : ∀ n ∈ names, Path.slash ∉ n := fun n hn =>
      (hpath n (hsplit ▸ List.mem_append_right _ hn)).no_slash
    -- a rule that is not anchored is held against the last name only
    obtain ⟨name, hname⟩ : ∃ name, names.getLast? = some name :=
      ⟨_, List.getLast?_eq_some_getLast hnames⟩
    simp only [isMatch, hbase, hbelow, Path.split_join hnames hslash, Covers, hname,
      drop_length_sub_one hname, Option.some.injEq, exists_eq_left', ← matchNames_iff]
    by_cases hkind : r.directoryOnly = true ∧ directory = false
    · simp [hkind]
    · have hkind' : r.directoryOnly = true → directory = true := by simpa using hkind
      have hguard : (r.directoryOnly && !directory) = false := by simpa using hkind
      rw [hguard, if_neg (by simp)]
      split
      · exact (and_iff_right hkind').symm
      · exact (and_iff_right hkind').symm
  constructor
  · intro h
    have hbelow : ∃ rest, below? (Path.join dir) (Path.join path) = some rest := by
      cases hbelow : below? (Path.join dir) (Path.join path) with
      | none => simp [isMatch, hbase, hbelow] at h
      | some rest => exact ⟨rest, rfl⟩
    obtain ⟨rest, hrest⟩ := hbelow
    obtain ⟨names, hnames, hsplit, -⟩ := (below?_join hdir hpath hne).mp hrest
    exact ⟨names, hnames, hsplit, (hcovers hnames hsplit).mp h⟩
  · rintro ⟨names, hnames, hsplit, h⟩
    exact (hcovers hnames hsplit).mpr h

end IgnoreRule

/-! ## Many rules -/

/-- A rule and the directory of the file in which it stands, by its names below the root. -/
abbrev PlacedRule := List Bytes × IgnoreRule

namespace PlacedRule

/-- The rule covers an entry, which is below its directory. -/
def Covers (x : PlacedRule) (path : List Bytes) (directory : Bool) : Prop :=
  ∃ names, names ≠ [] ∧ path = x.1 ++ names ∧ x.2.Covers names directory

/-- The rule knows its directory. -/
structure Based (x : PlacedRule) : Prop where
  base : x.2.base = Path.join x.1
  names : ∀ n ∈ x.1, IsName n

end PlacedRule

/-- Of the rules that cover the entry, the last one is not a negated one. -/
def IgnoredBy (rules : List PlacedRule) (path : List Bytes) (directory : Bool) : Prop :=
  ∃ earlier x later, rules = earlier ++ x :: later ∧ x.Covers path directory ∧ x.2.negated = false ∧
    ∀ y ∈ later, ¬ y.Covers path directory

/-- Where each member of a list can overrule those before it, the last one that does decides. -/
theorem foldl_overrule {α : Type} {p q : α → Bool} {xs : List α} {b : Bool} :
    xs.foldl (fun b x => if p x then q x else b) b = true ↔
      (∃ earlier x later, xs = earlier ++ x :: later ∧ p x = true ∧ q x = true ∧
        ∀ y ∈ later, p y = false) ∨ b = true ∧ ∀ y ∈ xs, p y = false := by
  induction xs generalizing b with
  | nil => simp
  | cons x xs ih =>
    rw [List.foldl_cons, ih]
    constructor
    · rintro (⟨earlier, y, later, rfl, hy⟩ | ⟨hb, hxs⟩)
      · exact .inl ⟨x :: earlier, y, later, rfl, hy⟩
      · cases hx : p x with
        | true =>
          rw [hx, if_pos rfl] at hb
          exact .inl ⟨[], x, xs, rfl, hx, hb, hxs⟩
        | false =>
          rw [hx, if_neg (by simp)] at hb
          exact .inr ⟨hb, List.forall_mem_cons.mpr ⟨hx, hxs⟩⟩
    · rintro (⟨earlier, y, later, heq, hy⟩ | ⟨hb, hxs⟩)
      · rcases List.cons_eq_append_iff.mp heq with ⟨rfl, hcons⟩ | ⟨earlier, rfl, rfl⟩
        · cases hcons
          exact .inr ⟨by rw [if_pos hy.1, hy.2.1], hy.2.2⟩
        · exact .inl ⟨earlier, y, later, rfl, hy⟩
      · obtain ⟨hx, hxs⟩ := List.forall_mem_cons.mp hxs
        exact .inr ⟨by rw [hx, if_neg (by simp), hb], hxs⟩

variable {rules : List PlacedRule} {path : List Bytes} {directory : Bool}

/-- Rules ignore a path when the last one that covers it says so. -/
theorem ignores_iff (hrules : ∀ x ∈ rules, x.Based) (hpath : ∀ n ∈ path, IsName n)
    (hne : path ≠ []) :
    IgnoreRule.ignores (rules.map Prod.snd) (Path.join path) directory = true ↔
      IgnoredBy rules path directory := by
  have hmatch : ∀ x ∈ rules, (x.2.isMatch (Path.join path) directory = true ↔
    x.Covers path directory) :=
    fun x hx => IgnoreRule.isMatch_iff (hrules x hx).base (hrules x hx).names hpath hne
  rw [IgnoreRule.ignores, List.foldl_map, foldl_overrule]
  simp only [Bool.false_eq_true, false_and, or_false]
  constructor
  · rintro ⟨earlier, x, later, rfl, hx, hn, hlater⟩
    refine ⟨earlier, x, later, rfl, (hmatch x (by simp)).mp hx, by
      simpa using hn, fun y hy hcovers => ?_⟩
    have := (hmatch y (by simp [hy])).mpr hcovers
    simp [hlater y hy] at this
  · rintro ⟨earlier, x, later, rfl, hx, hn, hlater⟩
    refine ⟨earlier, x, later, rfl, (hmatch x (by simp)).mpr hx, by simpa using hn, fun y hy => ?_⟩
    rw [← Bool.not_eq_true, hmatch y (by simp [hy])]
    exact hlater y hy

/-- Rules of directories that the path is not below do not matter. -/
theorem ignores_filter (hrules : ∀ x ∈ rules, x.Based) (hpath : ∀ n ∈ path, IsName n)
    (hne : path ≠ []) :
    IgnoreRule.ignores (rules.map Prod.snd) (Path.join path) directory =
      IgnoreRule.ignores ((rules.filter (·.1.isPrefixOf path)).map Prod.snd) (Path.join path)
        directory := by
  unfold IgnoreRule.ignores
  -- a rule that stands elsewhere leaves the verdict as it is, whatever it is so far
  generalize false = ignored
  induction rules generalizing ignored with
  | nil => rfl
  | cons x rules ih =>
    obtain ⟨hx, hrest⟩ := List.forall_mem_cons.mp hrules
    rw [List.map_cons, List.foldl_cons, ih hrest, List.filter_cons]
    cases hprefix : x.1.isPrefixOf path with
    | true => rfl
    | false =>
      have hno : x.2.isMatch (Path.join path) directory = false := by
        rw [← Bool.not_eq_true, IgnoreRule.isMatch_iff hx.base hx.names hpath hne]
        rintro ⟨names, -, rfl, -⟩
        rw [List.isPrefixOf_iff_prefix.mpr (List.prefix_append _ _)] at hprefix
        cases hprefix
      rw [hno]
      rfl

end MicroFlow
