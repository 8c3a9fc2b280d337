import Mathlib.Algebra.BigOperators.Group.Finset.Basic
import Mathlib.Algebra.Order.BigOperators.Group.Finset
import MicroFlow.Proofs.Graph.Coherent
import MicroFlow.Proofs.Semantics.Basic

/-!
# One entry per variable

Mappings hold one entry per variable, in a list.  Two mappings of one length are compared
and merged entry by entry; here is what that means for the entry at a position, with a
default beyond the end, and for sums over the positions.

What an action does to the variable at a position is said by `Action.Uses`,
`Action.Defines` and `Action.Overwrites`: a definition overwrites a variable when it
defines it as a scalar.
-/

namespace MicroFlow

/-! ## Lists of entries -/

variable {i : Nat}

namespace Pointwise

variable {α : Type} (d : α)

/-- The entry at a position. -/
def entry (xs : List α) (i : Nat) : α := xs[i]?.getD d

variable {d} {xs ys : List α}

theorem entry_of_le (h : xs.length ≤ i) : entry d xs i = d := by
  simp [entry, h]

/-- Lists of one length with the same entries are equal. -/
theorem ext_entry (hlen : xs.length = ys.length) (h : ∀ i, entry d xs i = entry d ys i) :
    xs = ys := by
  refine List.ext_getElem hlen fun i hx hy => ?_
  have hi := h i
  simpa [entry, hx, hy] using hi

theorem entry_zipWith {f : α → α → α} (hlen : xs.length = ys.length) (hd : f d d = d) (i : Nat) :
    entry d (List.zipWith f xs ys) i = f (entry d xs i) (entry d ys i) := by
  by_cases hi : i < xs.length
  · have hy : i < ys.length := hlen ▸ hi
    simp [entry, hi, hy]
  · rw [entry_of_le (by simp; omega), entry_of_le (by omega), entry_of_le (by omega), hd]

/-- A test of all pairs is one of all entries. -/
theorem all_zipWith_iff {r : α → α → Bool} (hlen : xs.length = ys.length) (hd : r d d = true) :
    (List.zipWith r xs ys).all id = true ↔ ∀ i, r (entry d xs i) (entry d ys i) = true := by
  induction xs generalizing ys with
  | nil =>
    cases ys with
    | nil => simpa [entry] using hd
    | cons y ys => cases hlen
  | cons x xs ih =>
    cases ys with
    | nil => cases hlen
    | cons y ys =>
      have hlen' : xs.length = ys.length := by simpa using hlen
      simp only [List.zipWith_cons_cons, List.all_cons, id_eq, Bool.and_eq_true, ih hlen']
      constructor
      · rintro ⟨hxy, hrest⟩ i
        cases i with
        | zero => exact hxy
        | succ i => exact hrest i
      · intro h
        exact ⟨h 0, fun i => h (i + 1)⟩

theorem any_iff_entry {p : α → Bool} :
    xs.any p = true ↔ ∃ i, i < xs.length ∧ p (entry d xs i) = true := by
  have hentry : ∀ i (hi : i < xs.length), entry d xs i = xs[i] := fun i hi => by simp [entry, hi]
  rw [List.any_eq_true]
  constructor
  · rintro ⟨x, hx, hp⟩
    obtain ⟨i, hi, rfl⟩ := List.mem_iff_getElem.mp hx
    exact ⟨i, hi, by rw [hentry i hi, hp]⟩
  · rintro ⟨i, hi, hp⟩
    exact ⟨xs[i], List.getElem_mem hi, by rw [← hentry i hi, hp]⟩

/-- Changing an entry changes no other. -/
theorem entry_modify (f : α → α) (i j : Nat) :
    entry d (xs.modify i f) j =
      if i = j ∧ j < xs.length then f (entry d xs j) else entry d xs j := by
  unfold entry
  rw [List.getElem?_modify]
  by_cases hij : i = j
  · by_cases hj : j < xs.length
    · simp [hij, hj]
    · simp [hij, hj]
  · simp [hij]

/-- A sum over the entries grows when the entries do, and one of them really. -/
theorem sum_lt (xs ys : List α) {n : Nat} {f : α → Nat}
    (hle : ∀ i, f (entry d xs i) ≤ f (entry d ys i)) (hi : i < n)
    (hlt : f (entry d xs i) < f (entry d ys i)) :
    ∑ j ∈ Finset.range n, f (entry d xs j) < ∑ j ∈ Finset.range n, f (entry d ys j) :=
  Finset.sum_lt_sum (fun j _ => hle j) ⟨i, Finset.mem_range.mpr hi, hlt⟩

theorem sum_le (xs : List α) {n b : Nat} {f : α → Nat} (h : ∀ i, f (entry d xs i) ≤ b) :
    ∑ j ∈ Finset.range n, f (entry d xs j) ≤ n * b := by
  have hsum : ∑ j ∈ Finset.range n, f (entry d xs j) ≤ ∑ _j ∈ Finset.range n, b :=
    Finset.sum_le_sum fun j _ => h j
  simpa using hsum

end Pointwise

/-! ## Variables and actions -/

/-- The position of a variable is one of the declarations, of the kind of the access. -/
theorem Variables.of_eq_some {vars : Variables} {a : Access} (h : vars.of a = some i) :
    ∃ d, vars[i]? = some d ∧ d.name = a.name ∧ d.kind = a.kind ∧
      vars.findIdx? (·.name == a.name) = some i := by
  unfold Variables.of Variables.lookup at h
  split at h
  · rename_i j hj
    split at h
    · rename_i hkind
      cases h
      obtain ⟨hlt, hname, -⟩ := List.findIdx?_eq_some_iff_getElem.mp hj
      refine ⟨vars[i], by simp [hlt], by simpa using hname, ?_, hj⟩
      simpa [hlt] using hkind
    · cases h
  · cases h

theorem Variables.lt_of_of_eq_some {vars : Variables} {a : Access}
    (h : vars.of a = some i) : i < vars.length := by
  obtain ⟨d, hd, -⟩ := Variables.of_eq_some h
  exact (List.getElem?_eq_some_iff.mp hd).1

namespace Action

/-- The action reads the variable at a position. -/
def Uses (vars : Variables) (a : Action) (i : Nat) : Prop := ∃ use ∈ a.uses, vars.of use = some i

/-- The action writes to the variable at a position. -/
def Defines (vars : Variables) (a : Action) (i : Nat) : Prop :=
  ∃ target, a.defines = some target ∧ vars.of target = some i

/-- The action writes to the variable at a position, and leaves nothing of its value. -/
def Overwrites (vars : Variables) (a : Action) (i : Nat) : Prop :=
  ∃ x, a.defines = some (.scalar x) ∧ vars.of (.scalar x) = some i

/-- Every access of the action is declared. -/
def Declared (vars : Variables) (a : Action) : Prop :=
  ∀ x ∈ a.uses ++ a.defines.toList, ∃ i, vars.of x = some i

variable {vars : Variables} {a : Action} {x : Access}

theorem Declared.use (h : a.Declared vars) (hx : x ∈ a.uses) :
    ∃ i, vars.of x = some i := h x (by simp [hx])

theorem Declared.target (h : a.Declared vars) (hx : a.defines = some x) :
    ∃ i, vars.of x = some i := h x (by simp [hx])

/-- An action defines the variable of its target. -/
theorem defines_iff (hx : a.defines = some x) {j : Nat} (hj : vars.of x = some j)
    : a.Defines vars i ↔ i = j := by
  constructor
  · rintro ⟨y, hy, hi⟩
    rw [hx] at hy
    cases hy
    rw [hj] at hi
    cases hi
    rfl
  · rintro rfl
    exact ⟨x, hx, hj⟩

/-- It overwrites that variable if it is a scalar. -/
theorem overwrites_iff (hx : a.defines = some x) {j : Nat} (hj : vars.of x = some j)
    : a.Overwrites vars i ↔ i = j ∧ x.kind = .scalar := by
  constructor
  · rintro ⟨y, hy, hi⟩
    rw [hx] at hy
    cases hy
    rw [hj] at hi
    cases hi
    exact ⟨rfl, rfl⟩
  · rintro ⟨rfl, hkind⟩
    cases x with
    | scalar y => exact ⟨y, hx, hj⟩
    | element | field | odd => cases hkind

end Action

theorem Variables.of_eq_of_var {vars : Variables} {a b : Access} (h : a.var = b.var) :
    vars.of a = vars.of b := by
  have hname : a.name = b.name := congrArg Prod.fst h
  have hkind : a.kind = b.kind := congrArg Prod.snd h
  rw [Variables.of, Variables.of, hname, hkind]

/-- To overwrite a variable is to replace it. -/
theorem Action.Overwrites.replaces {vars : Variables} {a : Action} {u : Access}
    (h : a.Overwrites vars i) (hu : vars.of u = some i) : a.Replaces u.var := by
  obtain ⟨y, hy, hi⟩ := h
  obtain ⟨d, hd, hname, hkind, -⟩ := Variables.of_eq_some hu
  obtain ⟨d', hd', hname', hkind', -⟩ := Variables.of_eq_some hi
  rw [hd] at hd'
  cases hd'
  exact ⟨y, hy, Prod.ext (hname.symm.trans hname') (hkind.symm.trans hkind')⟩

/-- The actions of a coherent graph mention declared variables only. -/
theorem Graph.Coherent.declared {g : Graph} (hg : g.Coherent) {e : Edge} (he : e ∈ g.edges) :
    e.action.Declared g.vars := hg.valid.declared e he

end MicroFlow
