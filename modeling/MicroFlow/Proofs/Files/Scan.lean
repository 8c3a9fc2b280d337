import Mathlib
import MicroFlow.Proofs.Files.Rules

/-!
# A scan lists what is selected

A scan keeps one list of rules, to which every directory that it enters adds those of its ignore
file.  It makes no difference that rules of other directories stand in between: they cover nothing
that is visited later.
-/

namespace MicroFlow

open MicroFlow.Path (IsName)
open MicroFlow.Text (Bytes)

namespace Scan

/-! ## Stages -/

/--
The rules at hand before an entry at a path is visited: of those that bear on the path, none stands
elsewhere than above it.
-/
structure Stage (rules above : List PlacedRule) (path : List Bytes) : Prop where
  based : ∀ x ∈ rules, x.Based
  bearing : rules.filter (·.1.isPrefixOf path) = above
  /-- Nothing below the path has been visited. -/
  fresh : ∀ x ∈ rules, ¬ path <+: x.1

variable {dir : List Bytes} {files : List SourceFile}

namespace Stage

variable {rules above : List PlacedRule} {path : List Bytes}

/-- The rules at hand ignore what the rules above ignore. -/
theorem ignores (h : Stage rules above path) (hpath : ∀ n ∈ path, IsName n) (hne : path ≠ [])
    (directory : Bool) : IgnoreRule.ignores (rules.map Prod.snd) (Path.join path) directory =
      IgnoreRule.ignores (above.map Prod.snd) (Path.join path) directory := by
  rw [ignores_filter h.based hpath hne, h.bearing]

/-- A directory that is entered adds its rules to both. -/
theorem enter (h : Stage rules above path) {own : List PlacedRule}
    (hown : ∀ x ∈ own, x.1 = path ∧ x.Based) (name : Bytes) :
    Stage (rules ++ own) (above ++ own) (path ++ [name]) := by
  refine ⟨fun x hx => ?_, ?_, fun x hx hprefix => ?_⟩
  · exact (List.mem_append.mp hx).elim (h.based x) fun hx => (hown x hx).2
  · rw [List.filter_append]
    congr 1
    · rw [← h.bearing]
      refine List.filter_congr fun x hx => ?_
      rw [Bool.eq_iff_iff, List.isPrefixOf_iff_prefix, List.isPrefixOf_iff_prefix,
        List.prefix_concat_iff]
      -- a rule that bears on the entry but not on its directory would stand in it already
      refine or_iff_right fun heq => h.fresh x hx ?_
      rw [heq]
      exact List.prefix_append _ _
    · rw [List.filter_eq_self]
      intro x hx
      rw [(hown x hx).1, List.isPrefixOf_iff_prefix]
      exact List.prefix_append _ _
  · rcases List.mem_append.mp hx with hx | hx
    · exact h.fresh x hx ((List.prefix_append _ _).trans hprefix)
    · have := hprefix.length_le
      rw [(hown x hx).1, List.length_append, List.length_singleton] at this
      omega

/-- Rules from below another entry do not bear on this one. -/
theorem after {name other : Bytes} (h : Stage rules above (dir ++ [name]))
    (hne : other ≠ name) {new : List PlacedRule}
    (hnew : ∀ x ∈ new, x.Based ∧ dir ++ [other] <+: x.1) :
    Stage (rules ++ new) above (dir ++ [name]) := by
  -- paths through two entries of one directory do not meet
  have hapart : ∀ {p : List Bytes}, dir ++ [other] <+: p → ¬ dir ++ [name] <+: p := by
    rintro p ⟨q, rfl⟩ ⟨r, heq⟩
    simp only [List.append_assoc, List.append_cancel_left_eq, List.singleton_append,
      List.cons.injEq] at heq
    exact hne heq.1.symm
  refine ⟨fun x hx => ?_, ?_, fun x hx => ?_⟩
  · exact (List.mem_append.mp hx).elim (h.based x) fun hx => (hnew x hx).1
  · rw [List.filter_append, h.bearing, List.append_right_eq_self, List.filter_eq_nil_iff]
    intro x hx hprefix
    rw [List.isPrefixOf_iff_prefix] at hprefix
    exact hapart ((hnew x hx).2.trans hprefix) (List.prefix_refl _)
  · rcases List.mem_append.mp hx with hx | hx
    · exact h.fresh x hx
    · exact hapart (hnew x hx).2

end Stage

/-! ## Visits -/

/-- The entry of a list of source files for a file with its contents. -/
def sourceFile (base : Bytes) (x : List Bytes × Bytes) : SourceFile :=
  ⟨Path.join x.1, base ++ Path.slash :: Path.join x.1, x.2.length⟩

/-- The path of an entry, from the root or below. -/
theorem pathBelow_dirText (hdir : ∀ n ∈ dir, IsName n) (name : Bytes) :
    pathBelow (dirText dir) name = Path.join (dir ++ [name]) := by
  by_cases hnil : dir = []
  · subst hnil
    simp [dirText, pathBelow]
  · have hhere : (Path.join dir == Path.here) = false := by
      rw [beq_eq_false_iff_ne]
      exact Path.join_ne_here hdir
    rw [dirText, if_neg hnil, pathBelow, hhere, if_neg (by simp), Path.join_append hnil (by simp),
      Path.join_singleton]

theorem dirText_append (dir : List Bytes) (name : Bytes) :
    dirText (dir ++ [name]) = Path.join (dir ++ [name]) := by
  simp [dirText]

/-- The rules that are loaded in a directory are those in its ignore file. -/
structure Loads (fs : Files) (fullPath : Bytes) (dir : List Bytes) (e? : Option Entry) : Prop where
  ok : ∀ own, rulesFrom dir e? = some own →
    loadRules {} fs fullPath (dirText dir) = .ok (own.map Prod.snd)
  error : rulesFrom dir e? = none → ∃ e, loadRules {} fs fullPath (dirText dir) = .error e

/--
What a visit makes of the rules and files that it starts with: it adds rules from below a path and
the files that are gathered.
-/
structure Collects (rules : List PlacedRule) (before : List SourceFile) (base : Bytes)
    (path : List Bytes) (gathered : Option (List (List Bytes × Bytes)))
    (result : Except ScanError Found) : Prop where
  ok : ∀ files, gathered = some files → ∃ new : List PlacedRule,
    (∀ x ∈ new, x.Based ∧ path <+: x.1) ∧
    result = .ok ⟨(rules ++ new).map Prod.snd, before ++ files.map (sourceFile base)⟩
  error : gathered = none → ∃ e, result = .error e

section Visit

variable {t : Entry} {fs : Files} {base : Bytes}

/-- A file is added unless it is passed over. -/
theorem add_eq {name : Bytes} (hdir : ∀ n ∈ dir, IsName n) {rules : List IgnoreRule}
    {above : List PlacedRule} (hignores :
      IgnoreRule.ignores rules (Path.join (dir ++ [name])) false =
      IgnoreRule.ignores (above.map Prod.snd) (Path.join (dir ++ [name])) false)
    (before : List SourceFile) (contents : Bytes) :
    Found.add ⟨rules, before⟩ {} base (dirText dir) name (some contents) =
      ⟨rules, before ++ (if drops above dir name then [] else [(dir ++ [name], contents)]).map
        (sourceFile base)⟩ := by
  have hdrops : ((({} : ScanOptions).skipHidden && isHidden name) || !isSource {} name ||
      IgnoreRule.ignores rules (Path.join (dir ++ [name])) false) = drops above dir name := by
    rw [hignores, drops, Bool.true_and]
  rw [Found.add]
  dsimp only
  rw [pathBelow_dirText hdir, hdrops]
  split
  · rw [List.map_nil, List.append_nil]
  · rfl

/-- The rules that are loaded in each directory of a tree, below its root, are those in its ignore
file. -/
def LoadsBelow (t : Entry) (fs : Files) (base : Bytes) : Prop :=
  ∀ dir name entries, t.get? (dir ++ [name]) = some (.directory entries) →
    Loads fs (base ++ Path.slash :: Path.join (dir ++ [name])) (dir ++ [name])
      (entries.lookup ({} : ScanOptions).ignoreFile)

mutual

/-- A visit collects what is gathered with the rules above the entry. -/
theorem visit_of_gather (hload : LoadsBelow t fs base) {rules above : List PlacedRule}
    {before : List SourceFile} {dir : List Bytes} :
    ∀ {e : Entry} {name : Bytes}, Has t dir name e → Stage rules above (dir ++ [name]) →
      Collects rules before base (dir ++ [name]) (gather above dir name e)
        (visit {} fs base (dirText dir) name ⟨rules.map Prod.snd, before⟩ e)
  | .file contents, name, h, hstage => by
    refine ⟨fun files hfiles => ⟨[], by simp, ?_⟩, fun hnone => by simp [gather] at hnone⟩
    rw [gather] at hfiles
    rw [visit, add_eq h.names (hstage.ignores h.isNames (by simp) false), ← Option.some.inj hfiles,
      List.append_nil]
  | .directory entries, name, h, hstage => by
    have hblocks : (isExcluded {} name || IgnoreRule.ignores (rules.map Prod.snd)
        (Path.join (dir ++ [name])) true) = blocks above dir name := by
      rw [hstage.ignores h.isNames (by simp), blocks]
    have hloads := hload dir name entries h.found
    -- both pass over the directory, or both enter it with its rules added
    rw [gather, visit]
    dsimp only
    rw [pathBelow_dirText h.names, hblocks]
    split
    · refine ⟨fun files hfiles => ⟨[], by simp, ?_⟩, fun hnone => by cases hnone⟩
      cases hfiles
      simp
    · cases hown : rulesFrom (dir ++ [name]) (entries.lookup ({} : ScanOptions).ignoreFile) with
      | none =>
        obtain ⟨e, he⟩ := hloads.error hown
        rw [dirText_append] at he
        rw [he]
        exact ⟨fun files hfiles => (by cases hfiles), fun _ => ⟨e, rfl⟩⟩
      | some own =>
        have hbased := based_of_rulesFrom h.isNames hown
        have hok := hloads.ok own hown
        rw [dirText_append] at hok
        have hinner : Collects (rules ++ own) before base (dir ++ [name])
            (gatherAll (above ++ own) (dir ++ [name]) entries)
            (visitAll {} fs base (dirText (dir ++ [name]))
              ⟨(rules ++ own).map Prod.snd, before⟩ entries) :=
          visitAll_of_gather hload h.enter fun n _ => hstage.enter hbased n
        rw [dirText_append, List.map_append] at hinner
        rw [hok]
        -- the rules of the directory and those from below it are added
        refine ⟨fun files hfiles => ?_, hinner.error⟩
        obtain ⟨new, hnew, hresult⟩ := hinner.ok files hfiles
        refine ⟨own ++ new, fun x hx => ?_, ?_⟩
        · rcases List.mem_append.mp hx with hx | hx
          · exact ⟨(hbased x hx).2, by rw [(hbased x hx).1]⟩
          · exact hnew x hx
        · rw [← List.append_assoc]
          exact hresult
  | .link _, _, h, _ => by cases h.regular

/-- A visit of the entries of a directory collects what is gathered with the rules above them. -/
theorem visitAll_of_gather (hload : LoadsBelow t fs base) {rules above : List PlacedRule}
    {before : List SourceFile} {dir : List Bytes} :
    ∀ {entries : List (Bytes × Entry)}, HasAll t dir entries →
      (∀ n ∈ entries.map Prod.fst, Stage rules above (dir ++ [n])) →
        Collects rules before base dir (gatherAll above dir entries)
          (visitAll {} fs base (dirText dir) ⟨rules.map Prod.snd, before⟩ entries)
  | [], _, _ => by
    refine ⟨fun files hfiles => ⟨[], by simp, ?_⟩, fun hnone => by cases hnone⟩
    cases hfiles
    simp [visitAll]
  | (n, e) :: rest, h, hstage => by
    have hfirst : Collects rules before base (dir ++ [n]) (gather above dir n e)
        (visit {} fs base (dirText dir) n ⟨rules.map Prod.snd, before⟩ e) :=
      visit_of_gather hload h.first (hstage n (List.mem_cons_self ..))
    rw [gatherAll, visitAll]
    cases hfound : gather above dir n e with
    | none =>
      obtain ⟨err, herr⟩ := hfirst.error hfound
      rw [herr]
      exact ⟨fun files hfiles => (by cases hfiles), fun _ => ⟨err, rfl⟩⟩
    | some found =>
      obtain ⟨new, hnew, hresult⟩ := hfirst.ok found hfound
      -- what the first entry has added stands below it, so it does not bear on the others
      have hothers : Collects (rules ++ new) (before ++ found.map (sourceFile base)) base dir
          (gatherAll above dir rest) (visitAll {} fs base (dirText dir)
            ⟨(rules ++ new).map Prod.snd, before ++ found.map (sourceFile base)⟩ rest) :=
        visitAll_of_gather hload h.rest fun m hm =>
          (hstage m (List.mem_cons_of_mem _ hm)).after (h.fst_ne hm) hnew
      rw [hresult]
      cases hmore : gatherAll above dir rest with
      | none =>
        obtain ⟨err, herr⟩ := hothers.error hmore
        exact ⟨fun files hfiles => (by cases hfiles), fun _ => ⟨err, herr⟩⟩
      | some more =>
        obtain ⟨new', hnew', hresult'⟩ := hothers.ok more hmore
        refine ⟨fun files hfiles => ⟨new ++ new', fun x hx => ?_, ?_⟩, fun hnone => by cases hnone⟩
        · rcases List.mem_append.mp hx with hx | hx
          · exact ⟨(hnew x hx).1, (List.prefix_append _ _).trans (hnew x hx).2⟩
          · exact hnew' x hx
        · cases hfiles
          have hmap : (found ++ more).map (sourceFile base) =
              found.map (sourceFile base) ++ more.map (sourceFile base) := List.map_append
          rw [← List.append_assoc rules, hmap, ← List.append_assoc before]
          exact hresult'

end

end Visit

/-! ## Whole scans -/

/-- An absolute path has names only. -/
theorem exists_names_of_absolute (fs : Files) (root : Bytes) :
    ∃ above, (∀ n ∈ above, IsName n) ∧ fs.absolute root = Path.slash :: Path.join above := by
  rw [Files.absolute]
  split
  · exact Path.exists_names_of_clean ‹_›
  · rw [Path.append_absolute]
    exact Path.exists_names_of_clean (Path.isAbsolute_slash _)

/-- What a scan puts in front of the path of a file, when the root stands at names. -/
def baseOf (above : List Bytes) : Bytes :=
  if Path.slash :: Path.join above == [Path.slash] then [] else Path.slash :: Path.join above

/-- Paths below the root of a scan. -/
theorem baseOf_append {above path : List Bytes} (habove : ∀ n ∈ above, IsName n) (hne : path ≠ []) :
    baseOf above ++ Path.slash :: Path.join path = Path.slash :: Path.join (above ++ path) := by
  by_cases hnil : above = []
  · subst hnil
    rfl
  · have hroot : (Path.slash :: Path.join above == [Path.slash]) = false := by
      simpa using Path.join_ne_empty hnil habove
    rw [baseOf, hroot, if_neg (by simp), Path.join_append hnil hne, List.cons_append]

/-- Loading the rules of a directory reads its ignore file, if there is one. -/
theorem loads_of_entryAt {fs : Files} {fullPath : Bytes} {e? : Option Entry}
    (hentry : fs.entryAt true (Path.append fullPath ({} : ScanOptions).ignoreFile) =
      e?.elim (.error .missing) .ok) : Loads fs fullPath dir e? := by
  have hfail : ∀ failure,
      fs.read (Path.append fullPath ({} : ScanOptions).ignoreFile) = .error failure →
      loadRules {} fs fullPath (dirText dir) =
        if failure.fault == .missing then .ok [] else .error (.ignoreFile failure) := by
    intro failure hread
    rw [loadRules, if_neg (by decide +kernel), hread]
  cases e? with
  | none =>
    refine ⟨fun own hown => ?_, fun hnone => by cases hnone⟩
    cases hown
    rw [hfail _ (by rw [Files.read, hentry, Option.elim_none])]
    rfl
  | some e =>
    cases e with
    | file contents =>
      have hrules : loadRules {} fs fullPath (dirText dir) = rulesOf contents (dirText dir) := by
        rw [loadRules, if_neg (by decide +kernel), Files.read, hentry, Option.elim_some]
      refine ⟨fun own hown => ?_, fun hnone => ?_⟩
      · obtain ⟨rules, hok, rfl⟩ := rulesFrom_file.mp hown
        rw [hrules, hok]
        simp [Function.comp_def]
      · cases hok : rulesOf contents (dirText dir) with
        | error e => exact ⟨e, by rw [hrules, hok]⟩
        | ok rules =>
          rw [rulesFrom_file.mpr ⟨rules, hok, rfl⟩] at hnone
          cases hnone
    | _ =>
      -- a directory or a link in its place cannot be read
      have hread : fs.read (Path.append fullPath ({} : ScanOptions).ignoreFile) =
          .error ⟨"read", Path.append fullPath ({} : ScanOptions).ignoreFile, .isDirectory⟩ := by
        rw [Files.read, hentry, Option.elim_some]
      exact ⟨fun own hown => (by cases hown), fun _ =>
        ⟨_, (hfail _ hread).trans (if_neg (by simp))⟩⟩

section Root

variable {fs : Files} {root : Bytes} {above : List Bytes} {entries : List (Bytes × Entry)}
  (habove : ∀ n ∈ above, IsName n) (hfull : fs.absolute root = Path.slash :: Path.join above)
  (hroot : fs.entryAt false (fs.absolute root) = .ok (.directory entries))
  (hregular : (Entry.directory entries).Regular)

include habove hfull hroot hregular

/-- So it does in every directory of the tree. -/
theorem loads_of_get? {inner : List (Bytes × Entry)}
    (hdir : (Entry.directory entries).get? dir = some (.directory inner)) :
    Loads fs (Path.slash :: Path.join (above ++ dir)) dir
    (inner.lookup ({} : ScanOptions).ignoreFile) := by
  have hname : IsName ({} : ScanOptions).ignoreFile := by decide +kernel
  have hnames : ∀ n ∈ above ++ dir, IsName n :=
    List.forall_mem_append.mpr ⟨habove, (hregular.get? hdir).1⟩
  have hpath : Path.append (Path.slash :: Path.join (above ++ dir)) ({} : ScanOptions).ignoreFile =
      Path.slash :: Path.join (above ++ (dir ++ [({} : ScanOptions).ignoreFile])) := by
    rw [← List.append_assoc, ← Path.append_join hnames (by simpa using hname) (by simp),
      Path.join_singleton]
  refine loads_of_entryAt ?_
  rw [hpath]
  exact Files.entryAt_below habove (hfull ▸ hroot) hregular hdir hname

omit hregular in
/-- A scan of a directory loads its rules, visits its entries, and sorts the files. -/
theorem scan_eq : scan {} fs root = do
    let rules ← loadRules {} fs (Path.slash :: Path.join above) (dirText [])
    let found ← visitAll {} fs (baseOf above) (dirText []) ⟨rules, []⟩ entries
    return found.files.mergeSort fun a b => a.path ≤ b.path := by
  rw [hfull] at hroot
  rw [scan, hfull, Files.stat, Files.entryAt_of_directory habove hroot, hroot]
  rfl

theorem loadsBelow_root : LoadsBelow (.directory entries) fs (baseOf above) := by
  intro dir name inner hdir
  rw [baseOf_append habove (by simp)]
  exact loads_of_get? habove hfull hroot hregular hdir

theorem loads_root : Loads fs (Path.slash :: Path.join above) []
    (entries.lookup ({} : ScanOptions).ignoreFile) := by
  have hself : (Entry.directory entries).get? [] = some (.directory entries) := rfl
  have hloads := loads_of_get? habove hfull hroot hregular hself
  rwa [List.append_nil] at hloads

/-- With the rules of the root a visit of its entries collects what is gathered. -/
theorem collects_root {own : List PlacedRule}
    (hown : rulesFrom [] (entries.lookup ({} : ScanOptions).ignoreFile) = some own) :
    Collects own [] (baseOf above) [] (gatherAll own [] entries)
      (visitAll {} fs (baseOf above) (dirText []) ⟨own.map Prod.snd, []⟩ entries) := by
  -- before the root is entered there are no rules
  have hstart : Stage [] [] [] := ⟨by simp, rfl, by simp⟩
  exact visitAll_of_gather (loadsBelow_root habove hfull hroot hregular) (hasAll_root hregular)
    fun n _ => hstart.enter (based_of_rulesFrom (by simp) hown) n

/-- A scan succeeds when what is selected can be gathered, and sorts it by path. -/
theorem scan_eq_ok {gathered : List (List Bytes × Bytes)} (h : gatherRoot entries = some gathered) :
    scan {} fs root =
      .ok ((gathered.map (sourceFile (baseOf above))).mergeSort fun a b => a.path ≤ b.path) := by
  rw [gatherRoot, Option.bind_eq_bind, Option.bind_eq_some_iff] at h
  obtain ⟨own, hown, hgathered⟩ := h
  obtain ⟨new, -, hresult⟩ := (collects_root habove hfull hroot hregular hown).ok gathered hgathered
  rw [scan_eq habove hfull hroot, (loads_root habove hfull hroot hregular).ok own hown]
  change (visitAll {} fs (baseOf above) (dirText []) ⟨own.map Prod.snd, []⟩ entries >>= _) = _
  rw [hresult]
  rfl

/-- And it fails otherwise. -/
theorem scan_eq_error (h : gatherRoot entries = none) : ∃ e, scan {} fs root = .error e := by
  rw [scan_eq habove hfull hroot]
  cases hown : rulesFrom [] (entries.lookup ({} : ScanOptions).ignoreFile) with
  | none =>
    obtain ⟨e, he⟩ := (loads_root habove hfull hroot hregular).error hown
    exact ⟨e, by rw [he]; rfl⟩
  | some own =>
    rw [gatherRoot, hown] at h
    obtain ⟨e, he⟩ := (collects_root habove hfull hroot hregular hown).error h
    refine ⟨e, ?_⟩
    rw [(loads_root habove hfull hroot hregular).ok own hown]
    change (visitAll {} fs (baseOf above) (dirText []) ⟨own.map Prod.snd, []⟩ entries >>= _) = _
    rw [he]
    rfl

end Root

/-- Files have paths of their own. -/
theorem nodup_paths {entries : List (Bytes × Entry)} (hregular : (Entry.directory entries).Regular)
    {gathered : List (List Bytes × Bytes)} (h : gatherRoot entries = some gathered) (base : Bytes) :
    (gathered.map (sourceFile base)).Pairwise (·.path ≠ ·.path) := by
  rw [List.pairwise_map]
  refine (nodup_gatherRoot hregular h).imp_of_mem fun {x y} hx hy hne heq => hne ?_
  obtain ⟨dir, name, hget, -, hpath⟩ := (mem_gatherRoot hregular h).mp hx
  obtain ⟨dir', name', hget', -, hpath'⟩ := (mem_gatherRoot hregular h).mp hy
  rw [← hpath] at hget
  rw [← hpath'] at hget'
  have hsame : x.1 = y.1 := Path.join_inj (hregular.get? hget).1 (hregular.get? hget').1 heq
  rw [hsame, hget', Option.some.injEq, Entry.file.injEq] at hget
  exact Prod.ext hsame hget.symm

/-- Sorted by path, each file comes after all with smaller paths. -/
theorem ascending_of_ne (h : files.Pairwise (·.path ≠ ·.path)) :
    (files.mergeSort fun a b => a.path ≤ b.path).Pairwise (·.path < ·.path) := by
  have hsorted : (files.mergeSort fun a b => a.path ≤ b.path).Pairwise
      fun a b => decide (a.path ≤ b.path) = true := by
    refine List.pairwise_mergeSort (fun a b c hab hbc => ?_) (fun a b => ?_) files
    · exact decide_eq_true (List.le_trans (of_decide_eq_true hab) (of_decide_eq_true hbc))
    · simpa using List.le_total a.path b.path
  have hne : (files.mergeSort fun a b => a.path ≤ b.path).Pairwise (·.path ≠ ·.path) :=
    h.perm (List.mergeSort_perm files _).symm fun hab => hab.symm
  exact (hsorted.and hne).imp fun ⟨hle, hne⟩ => Std.lt_of_le_of_ne (of_decide_eq_true hle) hne

/-- The order leaves no choice. -/
theorem eq_of_ascending {files' : List SourceFile} (h : files.Pairwise (·.path < ·.path))
    (h' : files'.Pairwise (·.path < ·.path)) (hmem : ∀ f, f ∈ files ↔ f ∈ files') :
    files = files' := by
  have hnodup : ∀ {l : List SourceFile}, l.Pairwise (·.path < ·.path) → l.Nodup := by
    intro l hl
    refine hl.imp fun hlt heq => ?_
    rw [heq] at hlt
    exact List.lt_irrefl _ hlt
  refine List.Perm.eq_of_pairwise (fun a b _ _ hab hba => absurd hab (List.lt_asymm hba)) h h' ?_
  exact (List.perm_ext_iff_of_nodup (hnodup h) (hnodup h')).mpr hmem

section Result

variable {fs : Files} {root : Bytes} {entries : List (Bytes × Entry)}
  (hroot : fs.entryAt false (fs.absolute root) = .ok (.directory entries))
  (hregular : (Entry.directory entries).Regular)

include hroot hregular

/-- A scan succeeds if the rules of every directory that is entered can be read. -/
theorem exists_scan_iff : (∃ files, scan {} fs root = .ok files) ↔ ∀ dir es,
    (Entry.directory entries).get? dir = some (.directory es) →
    (Entry.directory entries).Open [] dir →
      ((Entry.directory entries).rulesIn? dir).isSome = true := by
  obtain ⟨above, habove, hfull⟩ := exists_names_of_absolute fs root
  rw [← gatherRoot_isSome_iff hregular]
  cases hgathered : gatherRoot entries with
  | none =>
    obtain ⟨e, he⟩ := scan_eq_error habove hfull hroot hregular hgathered
    simp [he]
  | some gathered => simp [scan_eq_ok habove hfull hroot hregular hgathered]

/-- What is listed comes from what is gathered. -/
theorem exists_gathered (h : scan {} fs root = .ok files) :
    ∃ above gathered, (∀ n ∈ above, IsName n) ∧ fs.absolute root = Path.slash :: Path.join above ∧
      gatherRoot entries = some gathered ∧
        files = (gathered.map (sourceFile (baseOf above))).mergeSort fun a b =>
        a.path ≤ b.path := by
  obtain ⟨above, habove, hfull⟩ := exists_names_of_absolute fs root
  cases hgathered : gatherRoot entries with
  | none =>
    obtain ⟨e, he⟩ := scan_eq_error habove hfull hroot hregular hgathered
    rw [he] at h
    cases h
  | some gathered =>
    rw [scan_eq_ok habove hfull hroot hregular hgathered] at h
    exact ⟨above, gathered, habove, hfull, rfl, (Except.ok.inj h).symm⟩

theorem ascending_scan (h : scan {} fs root = .ok files) : files.Pairwise (·.path < ·.path) := by
  obtain ⟨above, gathered, -, -, hgathered, rfl⟩ := exists_gathered hroot hregular h
  exact ascending_of_ne (nodup_paths hregular hgathered _)

/-- The files of a scan are the selected ones. -/
theorem mem_scan (h : scan {} fs root = .ok files) (f : SourceFile) :
    f ∈ files ↔ ∃ dir name contents,
      (Entry.directory entries).get? (dir ++ [name]) = some (.file contents) ∧
        (Entry.directory entries).Selected dir name ∧
          f = ⟨Path.join (dir ++ [name]),
            Path.append (fs.absolute root) (Path.join (dir ++ [name])), contents.length⟩ := by
  obtain ⟨above, gathered, habove, hfull, hgathered, rfl⟩ := exists_gathered hroot hregular h
  have hsource : ∀ {path : List Bytes} {contents : Bytes}, path ≠ [] →
      (Entry.directory entries).get? path = some (.file contents) →
        sourceFile (baseOf above) (path, contents) =
          ⟨Path.join path, Path.append (fs.absolute root) (Path.join path), contents.length⟩ := by
    intro path contents hne hget
    rw [sourceFile, baseOf_append habove hne, hfull,
      Path.append_join habove (hregular.get? hget).1 hne]
  rw [List.mem_mergeSort, List.mem_map]
  constructor
  · rintro ⟨⟨path, contents⟩, hx, rfl⟩
    obtain ⟨dir, name, hget, hselected, rfl⟩ := (mem_gatherRoot hregular hgathered).mp hx
    exact ⟨dir, name, contents, hget, hselected, hsource (by simp) hget⟩
  · rintro ⟨dir, name, contents, hget, hselected, rfl⟩
    refine ⟨(dir ++ [name], contents), ?_, hsource (by simp) hget⟩
    exact (mem_gatherRoot hregular hgathered).mpr ⟨dir, name, hget, hselected, rfl⟩

/-- Trees with the same files are listed alike. -/
theorem scan_of_same (h : scan {} fs root = .ok files) {fs' : Files}
    {entries' : List (Bytes × Entry)} (hfull : fs'.absolute root = fs.absolute root)
    (hroot' : fs'.entryAt false (fs'.absolute root) = .ok (.directory entries'))
    (hregular' : (Entry.directory entries').Regular)
    (hsame : (Entry.directory entries).Same (.directory entries')) :
    scan {} fs' root = .ok files := by
  -- the other tree has the same ignore files in the same open directories
  have hreadable : ∃ files', scan {} fs' root = .ok files' := by
    rw [exists_scan_iff hroot' hregular']
    intro dir es' hget' hopen'
    obtain ⟨es, hget⟩ := hsame.symm.directory hregular hget'
    rw [← hsame.rulesIn?]
    exact (exists_scan_iff hroot hregular).mp ⟨files, h⟩ dir es hget
      (hsame.symm.open_of_open hopen')
  obtain ⟨files', h'⟩ := hreadable
  rw [h']
  refine congrArg _ (eq_of_ascending (ascending_scan hroot' hregular' h')
    (ascending_scan hroot hregular h)
    fun f => ?_)
  rw [mem_scan hroot' hregular' h', mem_scan hroot hregular h, hfull]
  constructor
  · rintro ⟨dir, name, contents, hget, hselected, hf⟩
    exact ⟨dir, name, contents, hsame.symm.file hget, hsame.symm.selected_of_selected hselected, hf⟩
  · rintro ⟨dir, name, contents, hget, hselected, hf⟩
    exact ⟨dir, name, contents, hsame.file hget, hsame.selected_of_selected hselected, hf⟩

end Result

end Scan

/--
A scan lists what is selected.  Below a root with a regular tree, it succeeds when the ignore file
of every directory on an open way can be read.  Its files then ascend strictly by their paths, and
they are the files of the tree that are selected, each with its full path and its size.  The order
in which the entries of directories come makes no difference.  The rules by which files are selected
are those that the lines of the ignore files write.
-/
theorem scan_lists_selected {fs : Files} {root : Bytes} {t : Entry}
    (hroot : fs.entryAt false (fs.absolute root) = .ok t) (hdirectory : t.isDirectory = true)
    (hregular : t.Regular) :
    (∀ dir es, t.get? dir = some (.directory es) → ∀ rules,
      t.rulesIn? dir = some rules ↔ t.RulesAt dir rules) ∧
    ((∃ files, scan {} fs root = .ok files) ↔
      ∀ dir es, t.get? dir = some (.directory es) → t.Open [] dir → ∃ rules, t.RulesAt dir rules) ∧
    ∀ files, scan {} fs root = .ok files →
      files.Pairwise (·.path < ·.path) ∧
      (∀ f, f ∈ files ↔ ∃ dir name contents, t.get? (dir ++ [name]) = some (.file contents) ∧
        t.Selected dir name ∧
        f = ⟨Path.join (dir ++ [name]), Path.append (fs.absolute root) (Path.join (dir ++ [name])),
          contents.length⟩) ∧
      ∀ fs' t', fs'.absolute root = fs.absolute root →
        fs'.entryAt false (fs'.absolute root) = .ok t' →
        t'.Regular → t.Same t' → scan {} fs' root = .ok files := by
  cases t with
  | file => cases hdirectory
  | link => cases hdirectory
  | directory entries =>
    have hrules : ∀ dir es, (Entry.directory entries).get? dir = some (.directory es) → ∀ rules,
        (Entry.directory entries).rulesIn? dir = some rules ↔
          (Entry.directory entries).RulesAt dir rules :=
      fun dir es hget rules => Scan.rulesIn?_eq_some_iff (hregular.get? hget).1
    refine ⟨hrules, ?_, fun files h => ⟨Scan.ascending_scan hroot hregular h,
      Scan.mem_scan hroot hregular h, fun fs' t' hfull hroot' hregular' hsame => ?_⟩⟩
    · rw [Scan.exists_scan_iff hroot hregular]
      refine forall₂_congr fun dir es => forall₂_congr fun hget _ => ?_
      rw [Option.isSome_iff_exists]
      exact exists_congr fun rules => hrules dir es hget rules
    · obtain ⟨entries', hself⟩ := hsame.directory hregular'
        (show (Entry.directory entries).get? [] = _ from rfl)
      cases hself
      exact Scan.scan_of_same hroot hregular h hfull hroot' hregular' hsame

/--
A directory with rules for all below it, a directory in it that makes an exception, and two names
that differ only in a malformed byte: one of the rules is for the name with that byte.
-/
def exceptionEntries : List (Bytes × Entry) :=
  [(".mcaignore", .file (Text.toBytes "*.tmp.mc\n" ++ 0xff :: Text.toBytes ".mc")),
   ("Vendor", .directory [("v.mc", .file [])]),
   ("a.MC", .file [10]),
   ("src", .directory
     [(".mcaignore", .file (Text.toBytes "# kept\n!keep.*\n")),
      ("keep.tmp.mc", .file [10, 10]),
      ("lost.tmp.mc", .file [])]),
   ("�.mc", .file []),
   (0xff :: Text.toBytes ".mc", .file [])]

def singleDirectory (entries : List (Bytes × Entry)) : Files :=
  ⟨.directory [("p", .directory entries)], []⟩

theorem entryAt_singleDirectory (entries : List (Bytes × Entry)) :
    (singleDirectory entries).absolute "/p" = Text.toBytes "/p" ∧
      (singleDirectory entries).entryAt false "/p" = .ok (.directory entries) := by
  have hname : Text.toBytes "p" = [112] := by decide +kernel
  have hpath : Text.toBytes "/p" = [Path.slash, 112] := by decide +kernel
  rw [singleDirectory, hname, hpath]
  exact ⟨rfl, rfl⟩

open Scan in
theorem gatherRoot_exceptionEntries : gatherRoot exceptionEntries =
    some [([Text.toBytes "a.MC"], [10]),
      ([Text.toBytes "src", Text.toBytes "keep.tmp.mc"], [10, 10]),
      ([Text.toBytes "�.mc"], [])] := by
  decide +kernel

theorem regular_exceptionEntries : (Entry.directory exceptionEntries).Regular := by
  simp only [exceptionEntries, Entry.Regular, Entry.AllRegular]
  decide +kernel

/-- What a scan of the directory lists. -/
def exceptionFiles : List SourceFile :=
  [⟨"a.MC", "/p/a.MC", 1⟩, ⟨"src/keep.tmp.mc", "/p/src/keep.tmp.mc", 2⟩, ⟨"�.mc", "/p/�.mc", 0⟩]

theorem scan_exceptionEntries :
    scan {} (singleDirectory exceptionEntries) "/p" = .ok exceptionFiles := by
  obtain ⟨hfull, hroot⟩ := entryAt_singleDirectory exceptionEntries
  have hnames : ∀ n ∈ [Text.toBytes "p"], IsName n := by decide +kernel
  have hpath : Text.toBytes "/p" = Path.slash :: Path.join [Text.toBytes "p"] := by decide +kernel
  rw [Scan.scan_eq_ok hnames (hfull.trans hpath) (hfull.symm ▸ hroot) regular_exceptionEntries
    gatherRoot_exceptionEntries, List.mergeSort_of_pairwise (by decide +kernel)]
  decide +kernel

/--
The exception is selected, another file and the name of the rule are not, and the entries may come
in another order.
-/
theorem scan_lists_selected_exception : (Entry.directory exceptionEntries).Regular ∧
    (Entry.directory exceptionEntries).Selected ["src"] "keep.tmp.mc" ∧
    ¬ (Entry.directory exceptionEntries).Selected ["src"] "lost.tmp.mc" ∧
    ¬ (Entry.directory exceptionEntries).Selected [] (0xff :: Text.toBytes ".mc") ∧
    scan {} (singleDirectory exceptionEntries.reverse) "/p" = .ok exceptionFiles := by
  obtain ⟨hfull, hroot⟩ := entryAt_singleDirectory exceptionEntries
  obtain ⟨hfull', hroot'⟩ := entryAt_singleDirectory exceptionEntries.reverse
  have hreverse : (Entry.directory exceptionEntries.reverse).Regular := by
    simp only [exceptionEntries, List.reverse, List.reverseAux, Entry.Regular, Entry.AllRegular]
    decide +kernel
  have hsame : (Entry.directory exceptionEntries).Same (.directory exceptionEntries.reverse) :=
    Entry.same_of_perm (List.reverse_perm _).symm (by decide +kernel)
  obtain ⟨-, -, hresult⟩ := scan_lists_selected (hfull.symm ▸ hroot) rfl regular_exceptionEntries
  obtain ⟨-, hmem, horder⟩ := hresult _ scan_exceptionEntries
  -- a file of the tree that is selected is listed
  have hlisted : ∀ {dir name}, (Entry.directory exceptionEntries).Selected dir name →
      ((Entry.directory exceptionEntries).get? (dir ++ [name])).bind Entry.contents? = some [] →
        Path.join (dir ++ [name]) ∈ exceptionFiles.map SourceFile.path := by
    intro dir name hselected hfile
    obtain ⟨e, hget, hcontents⟩ := Option.bind_eq_some_iff.mp hfile
    cases e with
    | file contents => exact List.mem_map.mpr ⟨_, (hmem _).mpr ⟨_, _, _, hget, hselected, rfl⟩, rfl⟩
    | directory => cases hcontents
    | link => cases hcontents
  refine ⟨regular_exceptionEntries, ?_, fun h => ?_, fun h => ?_, ?_⟩
  · obtain ⟨dir, name, contents, hget, hselected, hf⟩ :=
      (hmem ⟨"src/keep.tmp.mc", "/p/src/keep.tmp.mc", 2⟩).mp (by simp [exceptionFiles])
    have hpath : Path.join (["src"] ++ ["keep.tmp.mc"]) = Path.join (dir ++ [name]) :=
      (show _ = Text.toBytes "src/keep.tmp.mc" by decide +kernel).trans
        (congrArg SourceFile.path hf)
    have hnames := Path.join_inj (by decide +kernel) (regular_exceptionEntries.get? hget).1 hpath
    obtain ⟨rfl, hname⟩ := List.append_inj' hnames rfl
    cases hname
    exact hselected
  · exact absurd (hlisted h (by decide +kernel)) (by decide +kernel)
  · exact absurd (hlisted h (by decide +kernel)) (by decide +kernel)
  · exact horder _ _ (hfull'.trans hfull.symm) (hfull'.symm ▸ hroot') hreverse hsame

end MicroFlow
