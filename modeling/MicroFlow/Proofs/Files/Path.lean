import Mathlib.Data.List.Basic
import MicroFlow.Files.Path

/-!
# Paths and names

A path is written from names and read back into names: `split_join` reads a path of names, and
`split_append` a path in two parts.  An absolute path is brought into shortest form by its names,
none of which is empty, `.` or `..` (`exists_names_of_clean`), so the path of an entry below a
directory is that of the directory with the names of the entry added (`append_join`).
-/

namespace MicroFlow.Path

open MicroFlow.Text (Bytes)

/-! ## Parts -/

/-- The parts of a path are cut at its slashes. -/
theorem split_eq (path : Bytes) : split path = path.splitOn slash := by
  induction path with
  | nil => rfl
  | cons b rest ih =>
    obtain ⟨part, parts, hparts⟩ := List.exists_cons_of_ne_nil (List.splitOn_ne_nil slash rest)
    rw [split, ih, List.splitOn_cons_eq_if_modifyHead, hparts]
    rfl

/-- The pieces of a list do not hold what it is cut at. -/
theorem notMem_of_mem_splitOn {α : Type} [BEq α] [LawfulBEq α] {a : α} {xs part : List α}
    (h : part ∈ xs.splitOn a) : a ∉ part := by
  induction xs generalizing part with
  | nil => simp_all
  | cons x rest ih =>
    obtain ⟨first, parts, hparts⟩ := List.exists_cons_of_ne_nil (List.splitOn_ne_nil a rest)
    rw [List.splitOn_cons_eq_if_modifyHead, hparts] at h
    rw [hparts] at ih
    split at h
    · rcases List.mem_cons.mp h with rfl | h
      · simp
      · exact ih h
    · rename_i hx
      rcases List.mem_cons.mp h with rfl | h
      · have hx : x ≠ a := by simpa using hx
        simpa [hx.symm] using ih (List.mem_cons_self ..)
      · exact ih (List.mem_cons_of_mem _ h)

theorem split_ne_nil (path : Bytes) : split path ≠ [] := by
  simp [split_eq]

/-- A path in two parts has the parts of both. -/
theorem split_append (dir path : Bytes) :
    split (dir ++ slash :: path) = split dir ++ split path := by
  simp [split_eq, List.splitOn_append_cons_self]

variable {path name : Bytes}

/-- The parts of a path have no slash. -/
theorem notMem_of_mem_split {part : Bytes} (h : part ∈ split path) : slash ∉ part := by
  rw [split_eq] at h
  exact notMem_of_mem_splitOn h

/-- A path has several parts when it has a slash. -/
theorem one_lt_length_split_iff : 1 < (split path).length ↔ slash ∈ path := by
  constructor
  · intro h
    by_contra hmem
    rw [split_eq, List.splitOn_eq_singleton hmem] at h
    simp at h
  · intro h
    obtain ⟨before, after, rfl⟩ := List.append_of_mem h
    have hbefore := List.length_pos_iff.mpr (split_ne_nil before)
    have hafter := List.length_pos_iff.mpr (split_ne_nil after)
    rw [split_append, List.length_append]
    omega

/-! ## Names -/

/-- Bytes that can be the name of an entry. -/
structure IsName (name : Bytes) : Prop where
  ne_empty : name ≠ []
  no_slash : slash ∉ name
  ne_here : name ≠ here
  ne_up : name ≠ up

theorem isName_iff : IsName name ↔ name ≠ [] ∧ slash ∉ name ∧ name ≠ here ∧ name ≠ up :=
  ⟨fun h => ⟨h.1, h.2, h.3, h.4⟩, fun h => ⟨h.1, h.2.1, h.2.2.1, h.2.2.2⟩⟩

instance (name : Bytes) : Decidable (IsName name) := decidable_of_iff _ isName_iff.symm

theorem isName_concat {names : List Bytes} (h : ∀ n ∈ names, IsName n)
    (hname : IsName name) : ∀ n ∈ names ++ [name], IsName n :=
  List.forall_mem_append.mpr ⟨h, by simpa using hname⟩

@[simp] theorem join_nil : join [] = [] := rfl

@[simp] theorem join_singleton (name : Bytes) : join [name] = name := by simp [join]

/-- A name and a slash in front of a path. -/
theorem join_cons {rest : List Bytes} (h : rest ≠ []) :
    join (name :: rest) = name ++ slash :: join rest := by
  obtain ⟨second, rest, rfl⟩ := List.exists_cons_of_ne_nil h
  simp [join, List.intercalate_cons_cons]

/-- The path of names in two groups has a slash between the groups. -/
theorem join_append {xs ys : List Bytes} (hx : xs ≠ []) (hy : ys ≠ []) :
    join (xs ++ ys) = join xs ++ slash :: join ys := by
  induction xs with
  | nil => exact absurd rfl hx
  | cons x rest ih =>
    by_cases hnil : rest = []
    · rw [hnil, List.cons_append, List.nil_append, join_cons hy, join_singleton]
    · rw [List.cons_append, join_cons (by simp [hnil]), ih hnil, join_cons hnil]
      simp

/-- A path of names is read back into the names. -/
theorem split_join {ns : List Bytes} (hne : ns ≠ []) (h : ∀ n ∈ ns, slash ∉ n) :
    split (join ns) = ns := by
  rw [split_eq, join, List.splitOn_intercalate slash h hne]

theorem join_split (path : Bytes) : join (split path) = path := by
  rw [join, split_eq, List.intercalate_splitOn]

variable {xs ys : List Bytes}

/-- Names make a path with something in it. -/
theorem join_ne_empty (hne : xs ≠ []) (h : ∀ n ∈ xs, IsName n) : join xs ≠ [] := by
  intro heq
  have hsplit := split_join hne fun n hn => (h n hn).no_slash
  rw [heq] at hsplit
  have hmem : [] ∈ xs := hsplit ▸ List.mem_singleton.mpr rfl
  exact (h [] hmem).ne_empty rfl

/-- A path tells the names it is written from. -/
theorem join_inj (hx : ∀ n ∈ xs, IsName n) (hy : ∀ n ∈ ys, IsName n) (h : join xs = join ys) :
    xs = ys := by
  by_cases hxs : xs = []
  · by_cases hys : ys = []
    · rw [hxs, hys]
    · rw [hxs, join_nil] at h
      exact absurd h.symm (join_ne_empty hys hy)
  · by_cases hys : ys = []
    · rw [hys, join_nil] at h
      exact absurd h (join_ne_empty hxs hx)
    · rw [← split_join hxs fun n hn => (hx n hn).no_slash, h,
        split_join hys fun n hn => (hy n hn).no_slash]

/-- Names do not make the path `.`. -/
theorem join_ne_here (h : ∀ n ∈ xs, IsName n) : join xs ≠ here := by
  by_cases hne : xs = []
  · rw [hne, join_nil]
    decide
  · intro heq
    have hsplit := split_join hne fun n hn => (h n hn).no_slash
    rw [heq] at hsplit
    have hmem : here ∈ xs := hsplit ▸ List.mem_singleton.mpr rfl
    exact (h here hmem).ne_here rfl

/-! ## Shortest forms -/

/-- From the root, parts without slashes lead through names only. -/
theorem isName_of_mem_foldl_step {parts acc : List Bytes} (hparts : ∀ p ∈ parts, slash ∉ p)
    (hacc : ∀ n ∈ acc, IsName n) : ∀ n ∈ parts.foldl (step true) acc, IsName n := by
  induction parts generalizing acc with
  | nil => exact hacc
  | cons part parts ih =>
    refine ih (fun p hp => hparts p (List.mem_cons_of_mem _ hp)) ?_
    have hpart := hparts part (List.mem_cons_self ..)
    unfold step
    split
    · exact hacc
    · rename_i hskip
      simp only [Bool.or_eq_true, beq_iff_eq, not_or] at hskip
      split
      · split
        · simp
        · -- `..` takes away a name, and no name is `..` itself
          rename_i name rest
          have hname : (name == up) = false := by
            simpa using (hacc name (List.mem_cons_self ..)).ne_up
          rw [hname]
          exact fun n hn => hacc n (List.mem_cons_of_mem _ hn)
      · rename_i hup
        have hname : IsName part := ⟨hskip.1, hpart, hskip.2, by simpa using hup⟩
        rintro n hn
        rcases List.mem_cons.mp hn with rfl | hn
        · exact hname
        · exact hacc n hn

/-- Names are superfluous nowhere. -/
theorem foldl_step_of_isName {absolute : Bool} {parts : List Bytes} (h : ∀ p ∈ parts, IsName p)
    (acc : List Bytes) : parts.foldl (step absolute) acc = parts.reverse ++ acc := by
  induction parts generalizing acc with
  | nil => rfl
  | cons part parts ih =>
    have hpart := h part (List.mem_cons_self ..)
    have hstep : step absolute acc part = part :: acc := by
      simp [step, hpart.ne_empty, hpart.ne_here, hpart.ne_up]
    rw [List.foldl_cons, hstep, ih fun p hp => h p (List.mem_cons_of_mem _ hp)]
    simp

@[simp] theorem isAbsolute_slash (path : Bytes) : isAbsolute (slash :: path) = true := rfl

/-- An absolute path in shortest form has the names that are left of it. -/
theorem clean_of_isAbsolute (h : isAbsolute path = true) :
    clean path = slash :: join (names path) := by
  unfold clean
  split
  · rename_i hnames
    rw [hnames, h]
    rfl
  · rw [h]
    rfl

/-- The shortest form of an absolute path consists of names. -/
theorem exists_names_of_clean (h : isAbsolute path = true) :
    ∃ ns, (∀ n ∈ ns, IsName n) ∧ clean path = slash :: join ns := by
  refine ⟨names path, fun n hn => ?_, clean_of_isAbsolute h⟩
  rw [names, h, List.mem_reverse] at hn
  exact isName_of_mem_foldl_step (fun p hp => notMem_of_mem_split hp) (by simp) n hn

theorem append_absolute (dir path : Bytes) :
    append (slash :: dir) path = clean (slash :: (dir ++ slash :: path)) := rfl

theorem split_absolute (path : Bytes) : split (slash :: path) = [] :: split path :=
  split_append [] path

/-- Below a directory that is given by names, the names of a path are added to these. -/
theorem append_join (hx : ∀ n ∈ xs, IsName n) (hy : ∀ n ∈ ys, IsName n) (hne : ys ≠ []) :
    append (slash :: join xs) (join ys) = slash :: join (xs ++ ys) := by
  have hnames : names (slash :: (join xs ++ slash :: join ys)) = xs ++ ys := by
    -- the root itself has no names, but one empty part
    have hparts : (split (join xs)).foldl (step true) [] = xs.reverse := by
      by_cases hnil : xs = []
      · rw [hnil]
        rfl
      · rw [split_join hnil fun n hn => (hx n hn).no_slash, foldl_step_of_isName hx,
          List.append_nil]
    rw [names, isAbsolute_slash, split_absolute, split_append,
      split_join hne fun n hn => (hy n hn).no_slash, List.foldl_cons, List.foldl_append]
    have hskip : step true [] [] = [] := rfl
    rw [hskip, hparts, foldl_step_of_isName hy]
    simp
  rw [append_absolute, clean_of_isAbsolute (isAbsolute_slash _), hnames]

end MicroFlow.Path
