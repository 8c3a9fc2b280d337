import Mathlib.Data.List.Infix
import Mathlib.Data.List.Nodup
import MicroFlow.Proofs.Files.Ignore
import MicroFlow.Proofs.Files.Tree

/-!
# What a scan is meant to find

`Entry.Selected` says which files of a tree a scan is meant to list, from what stands in the tree
alone: by their names, by the names of the directories above them, and by the rules of the ignore
files in these directories, taken from the root downwards.  Nothing is said about the order in which
a scan goes through the tree, nor about rules that stand elsewhere.

`gather` collects files in the order of a scan, but with the rules that stand above them and no
others. It finds the files that are selected (`mem_gatherAll`), each once (`nodup_gatherAll`), and
it fails only at an ignore file that cannot be read (`gatherAll_isSome_iff`).
-/

namespace MicroFlow

open MicroFlow.Path (IsName)
open MicroFlow.Text (Bytes)

/-! ## Selected files -/

/-- How a scan writes the path of a directory below its root. -/
def Scan.dirText (dir : List Bytes) : Bytes := if dir = [] then Path.here else Path.join dir

/-- The rules in the ignore file of a directory; nothing if there is one that cannot be read. -/
def Scan.rulesFrom (dir : List Bytes) : Option Entry → Option (List PlacedRule)
  | none => some []
  | some (.file contents) =>
    (Scan.rulesOf contents (Scan.dirText dir)).toOption.map fun rules => rules.map (dir, ·)
  | some _ => none

variable {path : List Bytes}

namespace Entry

/-- The rules in a directory of a tree. -/
def rulesIn? (t : Entry) (dir : List Bytes) : Option (List PlacedRule) :=
  Scan.rulesFrom dir (t.get? (dir ++ [Text.toBytes ".mcaignore"]))

/-- The rules in a directory of a tree and in those above it, from the root downwards. -/
def rulesTo (t : Entry) (dir : List Bytes) : List PlacedRule :=
  dir.inits.flatMap fun d => (t.rulesIn? d).getD []

/-- The rules above an entry ignore it. -/
def Ignored (t : Entry) (dir : List Bytes) (name : Bytes) (directory : Bool) : Prop :=
  IgnoredBy (t.rulesTo dir) (dir ++ [name]) directory

/-- A directory that is neither hidden nor excluded nor ignored. -/
structure Passable (t : Entry) (dir : List Bytes) (name : Bytes) : Prop where
  visible : name.head? ≠ some Path.point
  kept : ∀ x ∈ [".git", ".hg", ".svn", ".mca", "node_modules", "vendor", "build", "dist"],
    Text.equalFold (Text.ofBytes name) x = false
  not_ignored : ¬ t.Ignored dir name true

/-- A source file that is neither hidden nor ignored. -/
structure Eligible (t : Entry) (dir : List Bytes) (name : Bytes) : Prop where
  visible : name.head? ≠ some Path.point
  source : Text.toLower (Text.ofBytes (Path.extension name)) ∈ [".mc", ".microc"]
  not_ignored : ¬ t.Ignored dir name false

/-- The directories on the way from one directory to another, which is included, are passable. -/
def Open (t : Entry) (dir way : List Bytes) : Prop :=
  ∀ before name after, way = before ++ name :: after → t.Passable (dir ++ before) name

/-- The file is eligible, and so are the directories above it. -/
def Selected (t : Entry) (dir : List Bytes) (name : Bytes) : Prop :=
  t.Open [] dir ∧ t.Eligible dir name

theorem open_nil {t : Entry} {dir : List Bytes} : t.Open dir [] := by
  intro before name after h
  simp at h

/-- A way is open when its first directory can be passed and the rest is open. -/
theorem open_cons {t : Entry} {dir way : List Bytes} {name : Bytes} :
    t.Open dir (name :: way) ↔ t.Passable dir name ∧ t.Open (dir ++ [name]) way := by
  constructor
  · intro h
    refine ⟨by simpa using h [] name way rfl, fun before n after heq => ?_⟩
    simpa using h (name :: before) n after (by rw [heq]; rfl)
  · rintro ⟨hname, hway⟩ before n after heq
    rcases List.cons_eq_append_iff.mp heq with ⟨rfl, hcons⟩ | ⟨before, rfl, rfl⟩
    · cases hcons
      simpa using hname
    · simpa using hway before n after rfl

/-- A path is kept when the file at its end is eligible and the way to it is open. -/
def Kept (t : Entry) (dir path : List Bytes) : Prop :=
  ∃ way name, path = way ++ [name] ∧ t.Open dir way ∧ t.Eligible (dir ++ way) name

/-- A file in the directory itself is kept if it is eligible. -/
theorem kept_singleton {t : Entry} {dir : List Bytes} {name : Bytes} :
    t.Kept dir [name] ↔ t.Eligible dir name := by
  constructor
  · rintro ⟨way, n, heq, -, h⟩
    obtain ⟨rfl, rfl⟩ : way = [] ∧ n = name := by
      simpa [List.singleton_eq_append_iff] using heq
    simpa using h
  · intro h
    exact ⟨[], name, rfl, open_nil, by simpa using h⟩

/-- A file below a directory is kept when the directory can be passed and the file is kept there. -/
theorem kept_cons {t : Entry} {dir : List Bytes} {name : Bytes} (hne : path ≠ []) :
    t.Kept dir (name :: path) ↔ t.Passable dir name ∧ t.Kept (dir ++ [name]) path := by
  constructor
  · rintro ⟨way, n, heq, hopen, h⟩
    rcases List.cons_eq_append_iff.mp heq with ⟨rfl, hcons⟩ | ⟨way, rfl, rfl⟩
    · cases hcons
      exact absurd rfl hne
    · rw [open_cons] at hopen
      exact ⟨hopen.1, way, n, rfl, hopen.2, by simpa using h⟩
  · rintro ⟨hname, way, n, rfl, hopen, h⟩
    exact ⟨name :: way, n, rfl, open_cons.mpr ⟨hname, hopen⟩, by simpa using h⟩

end Entry

/-! ## Gathering -/

namespace Scan

/-- A directory is passed over. -/
def blocks (above : List PlacedRule) (dir : List Bytes) (name : Bytes) : Bool :=
  isExcluded {} name || IgnoreRule.ignores (above.map Prod.snd) (Path.join (dir ++ [name])) true

/-- A file is passed over. -/
def drops (above : List PlacedRule) (dir : List Bytes) (name : Bytes) : Bool :=
  isHidden name || !isSource {} name ||
    IgnoreRule.ignores (above.map Prod.snd) (Path.join (dir ++ [name])) false

mutual

/--
The files in an entry of a directory, with their contents, when the rules in the directory and above
it are given.
-/
def gather (above : List PlacedRule) (dir : List Bytes) (name : Bytes) :
    Entry → Option (List (List Bytes × Bytes))
  | .file contents => some (if drops above dir name then [] else [(dir ++ [name], contents)])
  | .directory entries =>
    if blocks above dir name then some []
    else do
      let own ← rulesFrom (dir ++ [name]) (entries.lookup ({} : ScanOptions).ignoreFile)
      gatherAll (above ++ own) (dir ++ [name]) entries
  | .link _ => some []

/-- The files in the entries of a directory. -/
def gatherAll (above : List PlacedRule) (dir : List Bytes) :
    List (Bytes × Entry) → Option (List (List Bytes × Bytes))
  | [] => some []
  | (name, e) :: rest => do
    let found ← gather above dir name e
    let more ← gatherAll above dir rest
    return found ++ more

end

/-- The files below a root with these entries. -/
def gatherRoot (entries : List (Bytes × Entry)) : Option (List (List Bytes × Bytes)) := do
  let own ← rulesFrom [] (entries.lookup ({} : ScanOptions).ignoreFile)
  gatherAll own [] entries

theorem base_dirText {dir : List Bytes} (hdir : ∀ n ∈ dir, IsName n) :
    (if dirText dir == Path.here then [] else dirText dir) = Path.join dir := by
  by_cases hnil : dir = []
  · simp [dirText, hnil]
  · simp [dirText, hnil, Path.join_ne_here hdir]

/-- The rules of an ignore file know its directory. -/
theorem base_of_rulesOf {contents dir : Bytes} {rules : List IgnoreRule}
    (h : rulesOf contents dir = .ok rules) :
    ∀ r ∈ rules, r.base = if dir == Path.here then [] else dir := by
  rw [rulesOf] at h
  split at h
  · cases h
  · cases h
    intro r hr
    obtain ⟨bytes, -, hbytes⟩ := List.mem_filterMap.mp hr
    unfold ruleOf? at hbytes
    split at hbytes
    · cases hbytes
    · cases hbytes
      rfl

/-- The rules of a directory are read from its file. -/
theorem rulesFrom_file {dir : List Bytes} {contents : Bytes} {rules : List PlacedRule} :
    rulesFrom dir (some (.file contents)) = some rules ↔
      ∃ own, rulesOf contents (dirText dir) = .ok own ∧ own.map (dir, ·) = rules := by
  rw [rulesFrom]
  cases rulesOf contents (dirText dir) with
  | error => simp [Except.toOption]
  | ok own => simp [Except.toOption]

/-- Rules belong to the directory of their ignore file. -/
theorem based_of_rulesFrom {dir : List Bytes} (hdir : ∀ n ∈ dir, IsName n) {e? : Option Entry}
    {rules : List PlacedRule} (h : rulesFrom dir e? = some rules) :
    ∀ x ∈ rules, x.1 = dir ∧ x.Based := by
  unfold rulesFrom at h
  split at h
  · cases h
    simp
  · obtain ⟨own, hown, rfl⟩ := rulesFrom_file.mp h
    intro x hx
    obtain ⟨r, hr, rfl⟩ := List.mem_map.mp hx
    refine ⟨rfl, ?_, hdir⟩
    rw [base_of_rulesOf hown r hr, base_dirText hdir]
  · cases h

variable {t : Entry} {dir : List Bytes} {name : Bytes}

theorem rulesTo_append (t : Entry) (dir : List Bytes) (name : Bytes) :
    t.rulesTo (dir ++ [name]) = t.rulesTo dir ++ (t.rulesIn? (dir ++ [name])).getD [] := by
  simp [Entry.rulesTo, List.inits_append]

/-- All rules on the way to a directory are based on it. -/
theorem based_of_rulesTo (hdir : ∀ n ∈ dir, IsName n) : ∀ x ∈ t.rulesTo dir, x.Based := by
  intro x hx
  obtain ⟨d, hd, hx⟩ := List.mem_flatMap.mp hx
  rw [List.mem_inits] at hd
  cases hrules : t.rulesIn? d with
  | none => simp [hrules] at hx
  | some rules =>
    rw [hrules] at hx
    exact (based_of_rulesFrom (fun n hn => hdir n (hd.subset hn)) hrules x hx).2

theorem ignores_rulesTo (hdir : ∀ n ∈ dir, IsName n) (hname : IsName name) {directory : Bool} :
    IgnoreRule.ignores ((t.rulesTo dir).map Prod.snd) (Path.join (dir ++ [name])) directory = true ↔
      t.Ignored dir name directory :=
  ignores_iff (based_of_rulesTo hdir) (Path.isName_concat hdir hname) (by simp)

/-- A directory is entered when it can be passed. -/
theorem blocks_eq_false_iff (hdir : ∀ n ∈ dir, IsName n) (hname : IsName name) :
    blocks (t.rulesTo dir) dir name = false ↔ t.Passable dir name := by
  rw [blocks, isExcluded, Bool.or_eq_false_iff, Bool.or_eq_false_iff,
    ← Bool.not_eq_true (IgnoreRule.ignores ..), ignores_rulesTo hdir hname, List.any_eq_false]
  constructor
  · rintro ⟨⟨hvisible, hkept⟩, hrules⟩
    exact ⟨by simpa [isHidden] using hvisible, by simpa using hkept, hrules⟩
  · rintro ⟨hvisible, hkept, hrules⟩
    exact ⟨⟨by simpa [isHidden] using hvisible, by simpa using hkept⟩, hrules⟩

/-- A file is listed when it is eligible. -/
theorem drops_eq_false_iff (hdir : ∀ n ∈ dir, IsName n) (hname : IsName name) :
    drops (t.rulesTo dir) dir name = false ↔ t.Eligible dir name := by
  rw [drops, Bool.or_eq_false_iff, Bool.or_eq_false_iff, ← Bool.not_eq_true (IgnoreRule.ignores ..),
    ignores_rulesTo hdir hname, Bool.not_eq_false', isSource, List.contains_iff_mem]
  constructor
  · rintro ⟨⟨hvisible, hsource⟩, hrules⟩
    exact ⟨by simpa [isHidden] using hvisible, hsource, hrules⟩
  · rintro ⟨hvisible, hsource, hrules⟩
    exact ⟨⟨by simpa [isHidden] using hvisible, hsource⟩, hrules⟩

/-! ## What is gathered -/

/-- An entry is found under its own name. -/
theorem get?_cons_directory (n : Bytes) (e : Entry) (rest : List (Bytes × Entry)) (name : Bytes)
    (path : List Bytes) : (Entry.directory ((n, e) :: rest)).get? (name :: path) =
      if name = n then e.get? path else (Entry.directory rest).get? (name :: path) := by
  rw [Entry.get?, Entry.get?, Entry.child?, Entry.child?, List.lookup_cons]
  by_cases hn : name = n
  · simp [hn]
  · have hn' : (name == n) = false := beq_eq_false_iff_ne.mpr hn
    simp [hn, hn']

/-- What is found starts with the name of an entry. -/
theorem mem_of_get?_cons {entries : List (Bytes × Entry)} {name : Bytes}
    {e : Entry} (h : (Entry.directory entries).get? (name :: path) = some e) :
    name ∈ entries.map Prod.fst := by
  rw [Entry.get?, Option.bind_eq_some_iff] at h
  obtain ⟨child, hchild, -⟩ := h
  exact List.mem_map.mpr ⟨_, Entry.mem_of_lookup hchild, rfl⟩

/-- An entry that a tree has under a name in a directory. -/
structure Has (t : Entry) (dir : List Bytes) (name : Bytes) (e : Entry) : Prop where
  names : ∀ n ∈ dir, IsName n
  isName : IsName name
  regular : e.Regular
  found : t.get? (dir ++ [name]) = some e

theorem Has.isNames {e : Entry} (h : Has t dir name e) : ∀ n ∈ dir ++ [name], IsName n :=
  Path.isName_concat h.names h.isName

/-- Entries that a tree has in a directory. -/
structure HasAll (t : Entry) (dir : List Bytes) (entries : List (Bytes × Entry)) : Prop where
  nodup : (entries.map Prod.fst).Nodup
  each : ∀ n e, (n, e) ∈ entries → Has t dir n e

namespace HasAll

variable {n : Bytes} {e : Entry} {others : List (Bytes × Entry)}
  (h : HasAll t dir ((n, e) :: others))

include h

theorem first : Has t dir n e := h.each n e (List.mem_cons_self ..)

theorem rest : HasAll t dir others :=
  ⟨(List.nodup_cons.mp h.nodup).2, fun n' e' hmem => h.each n' e' (List.mem_cons_of_mem _ hmem)⟩

theorem fst_ne {m : Bytes} (hm : m ∈ others.map Prod.fst) : n ≠ m :=
  (ne_of_mem_of_not_mem hm (List.nodup_cons.mp h.nodup).1).symm

theorem ne {m : Bytes} {e' : Entry}
    (hget : (Entry.directory others).get? (m :: path) = some e') : m ≠ n :=
  (h.fst_ne (mem_of_get?_cons hget)).symm

end HasAll

/-- The entries of a directory of a regular tree. -/
theorem hasAll_of_get? {entries : List (Bytes × Entry)} (hdir : ∀ n ∈ dir, IsName n)
    (hget : t.get? dir = some (.directory entries)) (hregular : (Entry.directory entries).Regular) :
    HasAll t dir entries := by
  rw [Entry.Regular] at hregular
  refine ⟨hregular.1, fun n e hmem => ?_⟩
  obtain ⟨hn, he⟩ := hregular.2.mem hmem
  refine ⟨hdir, hn, he, ?_⟩
  rw [Entry.get?_append_singleton hget, Entry.lookup_of_mem hregular.1 hmem]

namespace Has

variable {entries : List (Bytes × Entry)} (h : Has t dir name (.directory entries))

include h

theorem enter : HasAll t (dir ++ [name]) entries := hasAll_of_get? h.isNames h.found h.regular

theorem rulesIn? : t.rulesIn? (dir ++ [name]) =
    rulesFrom (dir ++ [name]) (entries.lookup ({} : ScanOptions).ignoreFile) := by
  rw [Entry.rulesIn?, Entry.get?_append_singleton h.found]

theorem rulesTo {own : List PlacedRule}
    (hown : rulesFrom (dir ++ [name]) (entries.lookup ({} : ScanOptions).ignoreFile) = some own) :
    t.rulesTo (dir ++ [name]) = t.rulesTo dir ++ own := by
  rw [rulesTo_append, h.rulesIn?, hown, Option.getD_some]

end Has

mutual

/-- What is gathered from an entry are its files that are kept. -/
theorem mem_gather {dir : List Bytes} : ∀ {e : Entry} {name : Bytes}, Has t dir name e →
    ∀ {files}, gather (t.rulesTo dir) dir name e = some files → ∀ {x},
      x ∈ files ↔ ∃ path, e.get? path = some (.file x.2) ∧ x.1 = dir ++ name :: path ∧
        t.Kept dir (name :: path)
  | .file contents, name, h, files, hfiles, x => by
    rw [gather] at hfiles
    cases hfiles
    have hdrops := drops_eq_false_iff (t := t) h.names h.isName
    constructor
    · intro hx
      split at hx
      · cases hx
      · rename_i hkeep
        rw [List.mem_singleton.mp hx]
        exact ⟨[], rfl, rfl, Entry.kept_singleton.mpr (hdrops.mp (Bool.eq_false_iff.mpr hkeep))⟩
    · rintro ⟨path, hpath, hx, hkept⟩
      cases path with
      | nil =>
        cases hpath
        rw [Entry.kept_singleton, ← hdrops] at hkept
        rw [if_neg (by simp [hkept]), List.mem_singleton]
        exact Prod.ext hx rfl
      | cons => cases hpath
  | .directory entries, name, h, files, hfiles, x => by
    have hblocks := blocks_eq_false_iff (t := t) h.names h.isName
    have hne : ∀ {path}, (Entry.directory entries).get? path = some (.file x.2) → path ≠ [] := by
      rintro _ hpath rfl
      cases hpath
    rw [gather] at hfiles
    split at hfiles
    · rename_i hblocked
      cases hfiles
      refine iff_of_false (by simp) ?_
      rintro ⟨path, hpath, -, hkept⟩
      rw [Entry.kept_cons (hne hpath), ← hblocks, hblocked] at hkept
      cases hkept.1
    · rename_i hpass
      have hpassable : t.Passable dir name := hblocks.mp (Bool.eq_false_iff.mpr hpass)
      rw [Option.bind_eq_bind, Option.bind_eq_some_iff] at hfiles
      obtain ⟨own, hown, hfiles⟩ := hfiles
      -- inside, the rules at hand are again those of the tree
      rw [← h.rulesTo hown] at hfiles
      rw [mem_gatherAll h.enter hfiles]
      refine exists_congr fun path => and_congr_right fun hpath => ?_
      rw [List.append_assoc, List.singleton_append, Entry.kept_cons (hne hpath),
        and_iff_right hpassable]
  | .link _, _, h, _, _, _ => by cases h.regular

/-- What is gathered from the entries of a directory are its files that are kept. -/
theorem mem_gatherAll {dir : List Bytes} :
    ∀ {entries : List (Bytes × Entry)}, HasAll t dir entries →
    ∀ {files}, gatherAll (t.rulesTo dir) dir entries = some files → ∀ {x},
      x ∈ files ↔ ∃ path, (Entry.directory entries).get? path = some (.file x.2) ∧
        x.1 = dir ++ path ∧
        t.Kept dir path
  | [], _, files, hfiles, x => by
    rw [gatherAll] at hfiles
    cases hfiles
    refine iff_of_false (by simp) ?_
    rintro ⟨path, hpath, -⟩
    cases path with
    | nil => cases hpath
    | cons => cases hpath
  | (n, e) :: rest, h, files, hfiles, x => by
    simp only [gatherAll, Option.bind_eq_bind, Option.bind_eq_some_iff] at hfiles
    obtain ⟨found, hfound, more, hmore, hfiles⟩ := hfiles
    cases hfiles
    -- a path starts with the name of the first entry or of another one
    rw [List.mem_append, mem_gather h.first hfound, mem_gatherAll h.rest hmore]
    constructor
    · rintro (⟨path, hpath, hx, hkept⟩ | ⟨path, hpath, hx, hkept⟩)
      · exact ⟨n :: path, by rw [get?_cons_directory, if_pos rfl, hpath], hx, hkept⟩
      · cases path with
        | nil => cases hpath
        | cons m path =>
          exact ⟨m :: path, by rw [get?_cons_directory, if_neg (h.ne hpath), hpath], hx, hkept⟩
    · rintro ⟨path, hpath, hx, hkept⟩
      cases path with
      | nil => cases hpath
      | cons m path =>
        rw [get?_cons_directory] at hpath
        split at hpath
        · rename_i heq
          rw [heq] at hx hkept
          exact .inl ⟨path, hpath, hx, hkept⟩
        · exact .inr ⟨m :: path, hpath, hx, hkept⟩

end

mutual

/-- Nothing is gathered twice. -/
theorem nodup_gather {dir : List Bytes} : ∀ {e : Entry} {name : Bytes}, Has t dir name e →
    ∀ {files}, gather (t.rulesTo dir) dir name e = some files → files.Nodup
  | .file _, _, _, files, hfiles => by
    rw [gather] at hfiles
    cases hfiles
    split
    · exact List.nodup_nil
    · exact List.nodup_singleton _
  | .directory entries, name, h, files, hfiles => by
    rw [gather] at hfiles
    split at hfiles
    · cases hfiles
      exact List.nodup_nil
    · rw [Option.bind_eq_bind, Option.bind_eq_some_iff] at hfiles
      obtain ⟨own, hown, hfiles⟩ := hfiles
      rw [← h.rulesTo hown] at hfiles
      exact nodup_gatherAll h.enter hfiles
  | .link _, _, h, _, _ => by cases h.regular

theorem nodup_gatherAll {dir : List Bytes} :
    ∀ {entries : List (Bytes × Entry)}, HasAll t dir entries →
    ∀ {files}, gatherAll (t.rulesTo dir) dir entries = some files → files.Nodup
  | [], _, files, hfiles => by
    rw [gatherAll] at hfiles
    cases hfiles
    exact List.nodup_nil
  | (n, e) :: rest, h, files, hfiles => by
    simp only [gatherAll, Option.bind_eq_bind, Option.bind_eq_some_iff] at hfiles
    obtain ⟨found, hfound, more, hmore, hfiles⟩ := hfiles
    cases hfiles
    refine (nodup_gather h.first hfound).append (nodup_gatherAll h.rest hmore) fun x hx hx' => ?_
    -- the path of the file would start with the name of the first entry and with that of another
    obtain ⟨path, -, hpath, -⟩ := (mem_gather h.first hfound).mp hx
    obtain ⟨path', hfile, hpath', -⟩ := (mem_gatherAll h.rest hmore).mp hx'
    rw [hpath] at hpath'
    rw [← List.append_cancel_left hpath'] at hfile
    exact h.ne hfile rfl

end

mutual

/-- Files can be gathered from an entry when the ignore files on open ways can be read. -/
theorem gather_isSome_iff {dir : List Bytes} : ∀ {e : Entry} {name : Bytes}, Has t dir name e →
    ((gather (t.rulesTo dir) dir name e).isSome = true ↔ ∀ path es,
      e.get? path = some (.directory es) →
      t.Open dir (name :: path) → (t.rulesIn? (dir ++ name :: path)).isSome = true)
  | .file _, _, _ => by
    -- no directory starts at a file
    refine iff_of_true rfl fun path es hpath _ => ?_
    cases path with
    | nil => cases hpath
    | cons => cases hpath
  | .directory entries, name, h => by
    have hblocks := blocks_eq_false_iff (t := t) h.names h.isName
    rw [gather]
    split
    · rename_i hblocked
      refine iff_of_true rfl fun path es _ hopen => ?_
      rw [Entry.open_cons, ← hblocks, hblocked] at hopen
      cases hopen.1
    · rename_i hpass
      have hpassable : t.Passable dir name := hblocks.mp (Bool.eq_false_iff.mpr hpass)
      cases hown : rulesFrom (dir ++ [name]) (entries.lookup ({} : ScanOptions).ignoreFile) with
      | none =>
        -- the ignore file of this very directory is the one that cannot be read
        refine iff_of_false (by simp) fun hall => ?_
        have := hall [] entries rfl (Entry.open_cons.mpr ⟨hpassable, Entry.open_nil⟩)
        simp [h.rulesIn?, hown] at this
      | some own =>
        rw [Option.bind_eq_bind, Option.bind_some, ← h.rulesTo hown, gatherAll_isSome_iff h.enter]
        refine forall_congr' fun path => ?_
        cases path with
        | nil => simp [h.rulesIn?, hown]
        | cons m path => simp [Entry.open_cons, hpassable]
  | .link _, _, h => by cases h.regular

/-- The entries of a directory, one by one. -/
theorem gatherAll_isSome_iff {dir : List Bytes} : ∀ {entries : List (Bytes × Entry)},
    HasAll t dir entries → ((gatherAll (t.rulesTo dir) dir entries).isSome = true ↔ ∀ path es,
      path ≠ [] → (Entry.directory entries).get? path = some (.directory es) → t.Open dir path →
        (t.rulesIn? (dir ++ path)).isSome = true)
  | [], _ => by
    refine iff_of_true rfl fun path es hne hpath _ => ?_
    cases path with
    | nil => exact absurd rfl hne
    | cons => cases hpath
  | (n, e) :: rest, h => by
    -- a failure in one of the entries is a failure of all
    have hboth : (gatherAll (t.rulesTo dir) dir ((n, e) :: rest)).isSome = true ↔
        (gather (t.rulesTo dir) dir n e).isSome = true ∧
          (gatherAll (t.rulesTo dir) dir rest).isSome = true := by
      rw [gatherAll]
      cases gather (t.rulesTo dir) dir n e with
      | none => simp
      | some found => cases gatherAll (t.rulesTo dir) dir rest <;> simp
    rw [hboth, gather_isSome_iff h.first, gatherAll_isSome_iff h.rest]
    constructor
    · rintro ⟨hfirst, hothers⟩ path es hne hpath hopen
      cases path with
      | nil => exact absurd rfl hne
      | cons m path =>
        rw [get?_cons_directory] at hpath
        split at hpath
        · rename_i heq
          rw [heq] at hopen ⊢
          exact hfirst path es hpath hopen
        · exact hothers (m :: path) es hne hpath hopen
    · intro hall
      refine ⟨fun path es hpath hopen => ?_, fun path es hne hpath hopen => ?_⟩
      · exact hall (n :: path) es (by simp) (by rw [get?_cons_directory, if_pos rfl, hpath]) hopen
      · cases path with
        | nil => exact absurd rfl hne
        | cons m path =>
          exact hall (m :: path) es hne (by rw [get?_cons_directory, if_neg (h.ne hpath), hpath])
            hopen

end

/-! ## Whole trees -/

section Root

variable {entries : List (Bytes × Entry)} (hregular : (Entry.directory entries).Regular)

include hregular

theorem hasAll_root : HasAll (.directory entries) [] entries :=
  hasAll_of_get? (by simp) rfl hregular

omit hregular in
/-- What is gathered at the root, by the rules of the tree. -/
theorem gatherRoot_eq : gatherRoot entries = ((Entry.directory entries).rulesIn? []).bind fun _ =>
    gatherAll ((Entry.directory entries).rulesTo []) [] entries := by
  have hown : (Entry.directory entries).rulesIn? [] =
      rulesFrom [] (entries.lookup ({} : ScanOptions).ignoreFile) := by
    rw [Entry.rulesIn?, Entry.get?_append_singleton rfl]
  have hrules : (Entry.directory entries).rulesTo [] =
      ((Entry.directory entries).rulesIn? []).getD [] := by
    simp [Entry.rulesTo]
  rw [gatherRoot, hrules, hown]
  cases rulesFrom [] (entries.lookup ({} : ScanOptions).ignoreFile) with
  | none => rfl
  | some own => rfl

/-- The files of a tree that are gathered are those that are selected. -/
theorem mem_gatherRoot {files : List (List Bytes × Bytes)} (h : gatherRoot entries = some files)
    {x : List Bytes × Bytes} : x ∈ files ↔
      ∃ dir name, (Entry.directory entries).get? (dir ++ [name]) = some (.file x.2) ∧
        (Entry.directory entries).Selected dir name ∧ x.1 = dir ++ [name] := by
  rw [gatherRoot_eq, Option.bind_eq_some_iff] at h
  obtain ⟨-, -, h⟩ := h
  rw [mem_gatherAll (hasAll_root hregular) h]
  constructor
  · rintro ⟨path, hpath, hx, dir, name, rfl, hopen, heligible⟩
    exact ⟨dir, name, hpath, ⟨hopen, by simpa using heligible⟩, by simpa using hx⟩
  · rintro ⟨dir, name, hpath, ⟨hopen, heligible⟩, hx⟩
    exact ⟨_, hpath, by simpa using hx, dir, name, rfl, hopen, by simpa using heligible⟩

theorem nodup_gatherRoot {files : List (List Bytes × Bytes)} (h : gatherRoot entries = some files) :
    files.Nodup := by
  rw [gatherRoot_eq, Option.bind_eq_some_iff] at h
  obtain ⟨-, -, h⟩ := h
  exact nodup_gatherAll (hasAll_root hregular) h

/-- Files can be gathered from a tree when the ignore files in open directories can be read. -/
theorem gatherRoot_isSome_iff : (gatherRoot entries).isSome = true ↔ ∀ dir es,
    (Entry.directory entries).get? dir = some (.directory es) →
    (Entry.directory entries).Open [] dir →
      ((Entry.directory entries).rulesIn? dir).isSome = true := by
  rw [gatherRoot_eq]
  cases hown : (Entry.directory entries).rulesIn? [] with
  | none =>
    refine iff_of_false (by simp) fun hall => ?_
    have := hall [] entries rfl Entry.open_nil
    rw [hown] at this
    cases this
  | some own =>
    rw [Option.bind_some, gatherAll_isSome_iff (hasAll_root hregular)]
    refine forall_congr' fun path => ?_
    by_cases hpath : path = []
    · simp [hpath, hown]
    · simp [hpath]

end Root

end Scan

/-! ## Trees in another order -/

namespace Entry

/-- The contents of a file; a directory has none. -/
def contents? : Entry → Option Bytes
  | .file contents => some contents
  | _ => none

/-- Two trees have the same directories and files, in whatever order. -/
def Same (t t' : Entry) : Prop := ∀ path, (t.get? path).map contents? = (t'.get? path).map contents?

/-- The order of the entries does not matter. -/
theorem same_of_perm {entries entries' : List (Bytes × Entry)} (h : entries.Perm entries')
    (hnodup : (entries.map Prod.fst).Nodup) : (directory entries).Same (directory entries') := by
  have hnodup' : (entries'.map Prod.fst).Nodup := (h.map Prod.fst).nodup_iff.mp hnodup
  have hlookup : ∀ name, entries.lookup name = entries'.lookup name := by
    intro name
    refine Option.ext fun e => ⟨fun he => ?_, fun he => ?_⟩
    · exact lookup_of_mem hnodup' (h.mem_iff.mp (mem_of_lookup he))
    · exact lookup_of_mem hnodup (h.mem_iff.mpr (mem_of_lookup he))
  intro path
  cases path with
  | nil => rfl
  | cons name rest => rw [get?, get?, child?, child?, hlookup]

namespace Same

variable {t t' : Entry} (h : t.Same t')

include h

theorem symm : t'.Same t := fun path => (h path).symm

/-- Trees in another order have the same files. -/
theorem file {path : List Bytes} {contents : Bytes} (hget : t.get? path = some (.file contents)) :
    t'.get? path = some (.file contents) := by
  have hpath := h path
  rw [hget, Option.map_some, eq_comm, Option.map_eq_some_iff] at hpath
  obtain ⟨e, he, hcontents⟩ := hpath
  cases e with
  | file =>
    cases hcontents
    exact he
  | directory => cases hcontents
  | link => cases hcontents

/-- And the same directories. -/
theorem directory (hregular : t'.Regular) {path : List Bytes} {es : List (Bytes × Entry)}
    (hget : t.get? path = some (.directory es)) : ∃ es', t'.get? path = some (.directory es') := by
  have hpath := h path
  rw [hget, Option.map_some, eq_comm, Option.map_eq_some_iff] at hpath
  obtain ⟨e, he, hcontents⟩ := hpath
  cases e with
  | file => cases hcontents
  | directory es' => exact ⟨es', he⟩
  | link => cases (hregular.get? he).2

theorem rulesIn? (dir : List Bytes) : t.rulesIn? dir = t'.rulesIn? dir := by
  -- of what stands at the name of the ignore file, only the contents of a file matter
  have hrules : ∀ e? : Option Entry, Scan.rulesFrom dir e? =
      Scan.rulesFrom dir (e?.map fun e => e.contents?.elim (.directory []) .file) := by
    intro e?
    cases e? with
    | none => rfl
    | some e => cases e <;> rfl
  have hpath := congrArg (Option.map fun c? => c?.elim (Entry.directory []) Entry.file)
    (h (dir ++ [({} : ScanOptions).ignoreFile]))
  rw [Entry.rulesIn?, Entry.rulesIn?, hrules, hrules (t'.get? _)]
  simpa [Option.map_map, Function.comp_def] using congrArg (Scan.rulesFrom dir) hpath

theorem ignored_iff {dir : List Bytes} {name : Bytes} {directory : Bool} :
    t.Ignored dir name directory ↔ t'.Ignored dir name directory := by
  have hrules : t.rulesTo dir = t'.rulesTo dir := by
    simp only [rulesTo, h.rulesIn?]
  rw [Ignored, Ignored, hrules]

theorem open_of_open {dir way : List Bytes} (hopen : t.Open dir way) : t'.Open dir way := by
  intro before name after heq
  have hpassable := hopen before name after heq
  exact ⟨hpassable.visible, hpassable.kept, mt h.ignored_iff.mpr hpassable.not_ignored⟩

theorem selected_of_selected {dir : List Bytes} {name : Bytes} (hselected : t.Selected dir name) :
    t'.Selected dir name := by
  obtain ⟨hopen, heligible⟩ := hselected
  exact ⟨h.open_of_open hopen, heligible.visible, heligible.source,
    mt h.ignored_iff.mpr heligible.not_ignored⟩

end Same

end Entry

end MicroFlow
