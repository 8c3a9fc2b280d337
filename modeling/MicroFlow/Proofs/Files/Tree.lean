import Mathlib.Data.List.Basic
import MicroFlow.Files.Scan
import MicroFlow.Proofs.Files.Path

/-!
# Files below a directory

A tree is *regular* when it has directories and files only, and the entries of a directory have
names of their own.  The path to a directory may go through links; below a directory with a regular
tree, names lead to the entries that the tree has at these names.
-/

namespace MicroFlow

open MicroFlow.Path (IsName)
open MicroFlow.Text (Bytes)

/-! ## Regular trees -/

mutual

/-- Directories and files only, and in each directory every name stands once. -/
def Entry.Regular : Entry → Prop
  | .file _ => True
  | .directory entries => (entries.map Prod.fst).Nodup ∧ Entry.AllRegular entries
  | .link _ => False

/-- The entries have names and are regular. -/
def Entry.AllRegular : List (Bytes × Entry) → Prop
  | [] => True
  | (name, e) :: rest => IsName name ∧ e.Regular ∧ Entry.AllRegular rest

end

variable {name : Bytes} {e e' : Entry}

namespace Entry

/-- Each of the entries has a name and is regular. -/
theorem AllRegular.mem {entries : List (Bytes × Entry)} (h : AllRegular entries)
    (hmem : (name, e) ∈ entries) : IsName name ∧ e.Regular := by
  induction entries with
  | nil => cases hmem
  | cons x rest ih =>
    obtain ⟨n, e'⟩ := x
    rw [AllRegular] at h
    rcases List.mem_cons.mp hmem with heq | hmem
    · cases heq
      exact ⟨h.1, h.2.1⟩
    · exact ih h.2.2 hmem

/-- What is looked up is an entry. -/
theorem mem_of_lookup {entries : List (Bytes × Entry)}
    (h : entries.lookup name = some e) : (name, e) ∈ entries := by
  induction entries with
  | nil => cases h
  | cons x rest ih =>
    obtain ⟨n, e'⟩ := x
    rw [List.lookup_cons] at h
    split at h
    · rename_i heq
      cases h
      rw [beq_iff_eq.mp heq]
      exact List.mem_cons_self ..
    · exact List.mem_cons_of_mem _ (ih h)

/-- Where names stand once, an entry is found under its name. -/
theorem lookup_of_mem {entries : List (Bytes × Entry)} (hnodup : (entries.map Prod.fst).Nodup)
      (h : (name, e) ∈ entries) : entries.lookup name = some e := by
  induction entries with
  | nil => cases h
  | cons x rest ih =>
    obtain ⟨n, e'⟩ := x
    obtain ⟨hn, hrest⟩ := List.nodup_cons.mp hnodup
    rcases List.mem_cons.mp h with heq | hmem
    · cases heq
      exact List.lookup_cons_self
    · have hne : (name == n) = false := by
        rw [beq_eq_false_iff_ne]
        rintro rfl
        exact hn (List.mem_map.mpr ⟨_, hmem, rfl⟩)
      rw [List.lookup_cons, hne]
      exact ih hrest hmem

/-- The entry at the end of names is found in two steps. -/
theorem get?_append (e : Entry) (xs ys : List Bytes) :
    e.get? (xs ++ ys) = (e.get? xs).bind (get? ys) := by
  induction xs generalizing e with
  | nil => rfl
  | cons x rest ih =>
    rw [List.cons_append, get?, get?, Option.bind_assoc]
    exact Option.bind_congr fun e' _ => ih e'

theorem get?_append_singleton {xs : List Bytes} {entries : List (Bytes × Entry)}
    (h : e.get? xs = some (.directory entries)) (name : Bytes) :
    e.get? (xs ++ [name]) = entries.lookup name := by
  rw [get?_append, h, Option.bind_some, get?, child?]
  cases entries.lookup name <;> rfl

namespace Regular

/-- The entries of a regular directory have names and are regular. -/
theorem child (h : e.Regular) (hchild : e.child? name = some e') : IsName name ∧ e'.Regular := by
  cases e with
  | directory entries =>
    rw [Regular] at h
    exact h.2.mem (mem_of_lookup hchild)
  | file => cases hchild
  | link => cases hchild

/-- What stands in a regular tree is regular, and names lead to it. -/
theorem get? (h : e.Regular) {path : List Bytes} (hget : e.get? path = some e') :
    (∀ n ∈ path, IsName n) ∧ e'.Regular := by
  induction path generalizing e with
  | nil =>
    cases hget
    exact ⟨by simp, h⟩
  | cons name rest ih =>
    rw [Entry.get?, Option.bind_eq_some_iff] at hget
    obtain ⟨child, hchild, hget⟩ := hget
    obtain ⟨hname, hregular⟩ := h.child hchild
    obtain ⟨hrest, he'⟩ := ih hregular hget
    exact ⟨List.forall_mem_cons.mpr ⟨hname, hrest⟩, he'⟩

end Regular

end Entry

/-! ## Following paths -/

namespace Files

variable {root : Entry} {here names parts : List Bytes} {entries : List (Bytes × Entry)}

/-- In a directory, a name leads to its entry, or is free. -/
theorem walk_name (hdir : root.get? here = some (.directory entries)) (hname : IsName name)
    (follow : Bool) (rest : List Bytes) :
    walk root follow here (name :: rest) =
      match entries.lookup name with
      | none => if rest.isEmpty then .ok (.location (.free here name)) else .error .missing
      | some (.link target) =>
        if rest.isEmpty && !follow then .ok (.location (.found (here ++ [name])))
        else .ok (.link here target rest)
      | some _ => walk root follow (here ++ [name]) rest := by
  have hskip : ¬ (name == [] || name == Path.here) = true := by
    simp [hname.ne_empty, hname.ne_here]
  have hup : ¬ (name == Path.up) = true := by
    simp [hname.ne_up]
  rw [walk, hdir]
  exact (if_neg hskip).trans (if_neg hup)

/-- What a part of a path can do, whatever follows it. -/
theorem walk_cons_cases (root : Entry) (here : List Bytes) (part : Bytes) :
    (∃ there, ∀ follow rest, walk root follow here (part :: rest) = walk root follow there rest) ∨
    (∃ target, root.get? (here ++ [part]) = some (.link target) ∧ ∀ follow rest,
      walk root follow here (part :: rest) =
        if rest.isEmpty && !follow then .ok (.location (.found (here ++ [part])))
        else .ok (.link here target rest)) ∨
    (∀ follow rest, walk root follow here (part :: rest) =
      if rest.isEmpty then .ok (.location (.free here part)) else .error .missing) ∨
    ∀ follow rest, walk root follow here (part :: rest) = .error .notDirectory := by
  simp only [walk]
  split
  · rename_i entries hdir
    by_cases hskip : (part == [] || part == Path.here) = true
    · exact .inl ⟨here, fun follow rest => by rw [if_pos hskip]⟩
    · by_cases hup : (part == Path.up) = true
      · exact .inl ⟨here.dropLast, fun follow rest => by rw [if_neg hskip, if_pos hup]⟩
      · simp only [if_neg hskip, if_neg hup, Entry.get?_append_singleton hdir]
        split
        · exact .inr (.inr (.inl fun _ _ => rfl))
        · rename_i target hlookup
          exact .inr (.inl ⟨target, hlookup, fun _ _ => rfl⟩)
        · exact .inl ⟨here ++ [part], fun _ _ => rfl⟩
  · exact .inr (.inr (.inr fun _ _ => rfl))

/-- A path that leads to a directory, without links, can be followed further. -/
theorem walk_append (hdir : root.get? names = some (.directory entries))
    (h : walk root false here parts = .ok (.location (.found names))) (rest : List Bytes) :
    walk root true here (parts ++ rest) = walk root true names rest := by
  induction parts generalizing here with
  | nil =>
    cases h
    rfl
  | cons part parts ih =>
    rw [List.cons_append]
    rcases walk_cons_cases root here part with ⟨there, hmove⟩ | ⟨target, hlink, hstop⟩ | hfree
      | hfail
    · rw [hmove] at h ⊢
      exact ih h
    · -- the path would end at the link
      rw [hstop] at h
      split at h
      · cases h
        rw [hlink] at hdir
        cases hdir
      · cases h
    · rw [hfree] at h
      split at h
      · cases h
      · cases h
    · rw [hfail] at h
      cases h

/-- What is added to a path comes behind the link at which it stops. -/
theorem walk_append_link {there : List Bytes} {target : Bytes} {left : List Bytes}
    (h : walk root false here parts = .ok (.link there target left)) (rest : List Bytes) :
    walk root true here (parts ++ rest) = .ok (.link there target (left ++ rest)) := by
  induction parts generalizing here with
  | nil => cases h
  | cons part parts ih =>
    rw [List.cons_append]
    rcases walk_cons_cases root here part with ⟨there', hmove⟩ | ⟨target', -, hstop⟩ | hfree | hfail
    · rw [hmove] at h ⊢
      exact ih h
    · rw [hstop] at h ⊢
      split at h
      · cases h
      · cases h
        simp
    · rw [hfree] at h
      split at h
      · cases h
      · cases h
    · rw [hfail] at h
      cases h

/-- A path that leads to a directory can be followed further, though links were followed before. -/
theorem locateFrom_append (hdir : root.get? names = some (.directory entries)) {links : Nat}
    (h : locateFrom root false links here parts = .ok (.found names)) (rest : List Bytes) :
    ∃ left, locateFrom root true links here (parts ++ rest) =
      locateFrom root true left names rest := by
  -- on the links that may be followed; each one starts a new path, with what is left behind it
  induction links generalizing here parts with
  | zero =>
    refine ⟨0, ?_⟩
    rw [locateFrom] at h
    split at h
    · cases h
    · rename_i l hwalk
      cases h
      rw [locateFrom, locateFrom, walk_append hdir hwalk]
    · cases h
  | succ links ih =>
    rw [locateFrom] at h
    split at h
    · cases h
    · rename_i l hwalk
      cases h
      refine ⟨links + 1, ?_⟩
      rw [locateFrom, locateFrom, walk_append hdir hwalk]
    · rename_i there target left hwalk
      obtain ⟨remaining, hremaining⟩ := ih h
      refine ⟨remaining, ?_⟩
      rw [locateFrom, walk_append_link hwalk]
      dsimp only
      rw [← List.append_assoc]
      exact hremaining

/-- In a regular tree names lead to the entry that the tree has there. -/
theorem walk_regular (hhere : root.get? here = some e) (hregular : e.Regular)
    {path : List Bytes} (hget : e.get? path = some e') (follow : Bool) (rest : List Bytes) :
    walk root follow here (path ++ rest) = walk root follow (here ++ path) rest := by
  induction path generalizing here e with
  | nil => rw [List.append_nil, List.nil_append]
  | cons name path ih =>
    rw [Entry.get?, Option.bind_eq_some_iff] at hget
    obtain ⟨child, hchild, hget⟩ := hget
    obtain ⟨hname, hchild'⟩ := hregular.child hchild
    cases e with
    | file => cases hchild
    | link => cases hchild
    | directory entries =>
      have hlookup : entries.lookup name = some child := hchild
      have hthere : root.get? (here ++ [name]) = some child := by
        rw [Entry.get?_append_singleton hhere, hlookup]
      have hstep : walk root follow here (name :: (path ++ rest)) =
          walk root follow (here ++ [name]) (path ++ rest) := by
        rw [walk_name hhere hname, hlookup]
        cases child with
        | link => cases hchild'
        | file => rfl
        | directory => rfl
      rw [List.cons_append, hstep, ih hthere hchild' hget, List.append_assoc, List.singleton_append]

/-- Empty parts of a path do not count. -/
theorem walk_empty_empty (follow : Bool) (rest : List Bytes) :
    walk root follow here ([] :: [] :: rest) = walk root follow here ([] :: rest) := by
  conv => lhs; rw [walk]
  split
  · rw [if_pos (by simp)]
  · rename_i hno
    rw [walk]
    split
    · rename_i entries hdir
      exact absurd hdir (hno entries)
    · rfl

section Below

variable {fs : Files} {above : List Bytes}

/-- The directory at an absolute path, and where paths lead that go on from it. -/
theorem locate_below (habove : ∀ n ∈ above, IsName n)
    (h : fs.entryAt false (Path.slash :: Path.join above) = .ok (.directory entries)) :
    ∃ names, fs.root.get? names = some (.directory entries) ∧
      ∀ path, (∀ n ∈ path, IsName n) →
        ∃ left, fs.locate true (Path.slash :: Path.join (above ++ path)) =
          locateFrom fs.root true left names path := by
  have hlocate : ∀ (follow : Bool) (path : Bytes), fs.locate follow (Path.slash :: path) =
      locateFrom fs.root follow maxLinks [] ([] :: Path.split path) := by
    intro follow path
    rw [locate, if_neg (by simp), Path.isAbsolute_slash, if_pos rfl, Path.split_absolute]
  unfold entryAt at h
  split at h
  · cases h
  · cases h
  · rename_i names hfound
    split at h
    · rename_i e hget
      cases h
      refine ⟨names, hget, fun path hpath => ?_⟩
      rw [hlocate] at hfound ⊢
      obtain ⟨left, hleft⟩ := locateFrom_append hget hfound path
      refine ⟨left, ?_⟩
      rw [← hleft]
      -- the path of the root has no names, but two empty parts
      by_cases hnil : above = []
      · subst hnil
        by_cases hpath' : path = []
        · rw [hpath']
          rfl
        · rw [List.nil_append, Path.split_join hpath' fun n hn => (hpath n hn).no_slash]
          show _ = locateFrom fs.root true maxLinks [] ([] :: [] :: path)
          rw [locateFrom, locateFrom, walk_empty_empty]
      · have hslash : ∀ n ∈ above ++ path, Path.slash ∉ n := fun n hn =>
          (List.forall_mem_append.mpr ⟨habove, hpath⟩ n hn).no_slash
        rw [Path.split_join (by simp [hnil]) hslash,
          Path.split_join hnil fun n hn => (habove n hn).no_slash, List.cons_append]
    · cases h

/-- To follow a link at the end makes no difference to a directory. -/
theorem entryAt_of_directory (habove : ∀ n ∈ above, IsName n)
    (h : fs.entryAt false (Path.slash :: Path.join above) = .ok (.directory entries)) :
    fs.entryAt true (Path.slash :: Path.join above) = .ok (.directory entries) := by
  obtain ⟨names, hdir, hbelow⟩ := locate_below habove h
  obtain ⟨left, hleft⟩ := hbelow [] (by simp)
  rw [List.append_nil] at hleft
  rw [entryAt, hleft, locateFrom, walk]
  dsimp only
  rw [hdir]

/-- A name in a directory of a regular tree leads to its entry. -/
theorem entryAt_below (habove : ∀ n ∈ above, IsName n)
    (h : fs.entryAt false (Path.slash :: Path.join above) = .ok (.directory entries))
    (hregular : (Entry.directory entries).Regular) {dir : List Bytes} {inner : List (Bytes × Entry)}
    (hdir : (Entry.directory entries).get? dir = some (.directory inner))
    (hname : IsName name) :
    fs.entryAt true (Path.slash :: Path.join (above ++ (dir ++ [name]))) =
      (inner.lookup name).elim (.error .missing) .ok := by
  obtain ⟨names, hnames, hbelow⟩ := locate_below habove h
  obtain ⟨hdirNames, hinner⟩ := hregular.get? hdir
  obtain ⟨left, hleft⟩ := hbelow (dir ++ [name]) (Path.isName_concat hdirNames hname)
  have hget : fs.root.get? (names ++ dir) = some (.directory inner) := by
    rw [Entry.get?_append, hnames]
    exact hdir
  rw [entryAt, hleft, locateFrom, walk_regular hnames hregular hdir, walk_name hget hname]
  cases hlookup : inner.lookup name with
  | none => rfl
  | some e =>
    have hget' : fs.root.get? (names ++ dir ++ [name]) = some e := by
      rw [Entry.get?_append_singleton hget, hlookup]
    obtain ⟨-, he⟩ := hinner.child (show (Entry.directory inner).child? name = some e from hlookup)
    cases e with
    | link => cases he
    | file | directory => simp only [walk, hget', Option.elim_some]

end Below

end Files

end MicroFlow
