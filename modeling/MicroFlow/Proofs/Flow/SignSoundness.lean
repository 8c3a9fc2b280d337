import MicroFlow.Proofs.Run.Agreement
import MicroFlow.Proofs.Semantics.Run
import MicroFlow.Proofs.Sign.Soundness

/-!
# Signs that are found are the signs that occur

A state describes a store when it is reachable and every cell has a sign of its slot
(`Signs.Describes`).  All elements of an array share a slot; any other slot belongs to one
cell (`Signs.cell_unique`).  That is why an assignment to a scalar or a field may replace the
signs of a slot and one to an element may not, and why a guard narrows scalars and fields
only.

A guard makes a state unreachable when it leaves a slot without signs.  This is right only
because every slot belongs to some cell (`Signs.exists_cell`), and so relies on the names of
the variables being different.
-/

namespace MicroFlow

/-- An access that refers to a cell. -/
def Cell.access : Cell → Access
  | scalar x => .scalar x
  | element x i => .element x (.literal i) none
  | fst x => .field x .fst
  | snd x => .field x .snd

namespace Signs

variable {vars : Variables}

/-! ## Cells and slots -/

variable {a : Access} {j : Nat} {l : Cell}

theorem slotOf_eq_ok_iff : slotOf vars a = .ok j ↔
    ∃ i, vars.of a = some i ∧ j = firstSlot vars i + if a.selector = .snd then 1 else 0 := by
  unfold slotOf
  cases vars.of a with
  | none => simp
  | some i => simp [eq_comm]

/-- An access has the slot of the cell that it leads to. -/
theorem slotOf_of_locate? {V : Type} {A : Arithmetic V} {s : Store V}
    (h : a.locate? A vars s = some l) (j : Nat) :
    slotOf vars a = .ok j ↔ slotOf vars l.access = .ok j := by
  rw [slotOf_eq_ok_iff, slotOf_eq_ok_iff]
  cases a with
  | scalar x =>
    cases h
    rfl
  | odd x => cases h
  | field x f => cases f <;> cases h <;> rfl
  | element x i lay =>
    have hvar := Access.var_of_locate? h
    cases l with
    | element y k =>
      cases hvar
      rfl
    | scalar | fst | snd => cases hvar

/-- A slot belongs to one cell, or to the elements of an array. -/
theorem cell_unique {k : Cell} (hk : slotOf vars k.access = .ok j)
    (hl : slotOf vars l.access = .ok j) : k = l ∨ k.access.kind = .array := by
  obtain ⟨p, hp, hj⟩ := slotOf_eq_ok_iff.mp hk
  obtain ⟨q, hq, hj'⟩ := slotOf_eq_ok_iff.mp hl
  obtain ⟨d, hd, hsel⟩ := selector_lt_width hp
  obtain ⟨e, he, hsel'⟩ := selector_lt_width hq
  -- the slots of different variables do not overlap
  have hpq : p = q := by
    rcases Nat.lt_trichotomy p q with h | h | h
    · have := firstSlot_add_width_le hd h
      omega
    · exact h
    · have := firstSlot_add_width_le he h
      omega
  subst hpq
  obtain ⟨d', hd', hname, hkind, -⟩ := Variables.of_eq_some hp
  obtain ⟨e', he', hname', hkind', -⟩ := Variables.of_eq_some hq
  rw [hd'] at he'
  cases he'
  rw [hname] at hname'
  rw [hkind] at hkind'
  have hselector : k.access.selector = .snd ↔ l.access.selector = .snd := by
    by_cases hk' : k.access.selector = .snd <;> by_cases hl' : l.access.selector = .snd <;>
      simp only [hk', hl', if_true, if_false] at hj hj' ⊢ <;> omega
  cases k <;> cases l <;>
    simp_all [Cell.access, Access.name, Access.kind, Access.selector]

/-- An access finds the declaration with its name and kind. -/
theorem of_eq_some_of_declared (hvars : vars.Plain) {i : Nat} {d : Declaration}
    (hd : vars[i]? = some d) (hname : a.name = d.name) (hkind : a.kind = d.kind) :
    vars.of a = some i := by
  have hlt : i < vars.length := (List.getElem?_eq_some_iff.mp hd).1
  have hget : vars[i] = d := (List.getElem?_eq_some_iff.mp hd).2
  have hfind : vars.findIdx? (·.name == a.name) = some i := by
    rw [List.findIdx?_eq_some_iff_getElem]
    refine ⟨hlt, by simp [hget, hname], fun j hj => ?_⟩
    -- an earlier variable has another name
    intro heq
    have hjlt : j < (vars.map Declaration.name).length := by simp; omega
    have hsame : (vars.map Declaration.name)[j]? = (vars.map Declaration.name)[i]? := by
      have hj' : j < vars.length := by omega
      simpa [hj', hlt, hget, hname] using heq
    have := (List.getElem?_inj hjlt hvars.names).mp hsame
    omega
  unfold Variables.of Variables.lookup
  rw [hfind]
  simp [hget, hkind, hlt]

/-- Every slot belongs to a variable. -/
theorem exists_variable (h : j < slotCount vars) :
    ∃ i d, vars[i]? = some d ∧ firstSlot vars i ≤ j ∧ j < firstSlot vars i + width d := by
  induction vars generalizing j with
  | nil => cases h
  | cons d rest ih =>
    by_cases hj : j < width d
    · exact ⟨0, d, rfl, by simp, by simpa using hj⟩
    · rw [slotCount_cons] at h
      obtain ⟨i, e, he, hle, hlt⟩ := ih (by omega : j - width d < slotCount rest)
      have hfirst := firstSlot_cons d rest i
      exact ⟨i + 1, e, he, by omega, by omega⟩

/-- Every slot belongs to some cell. -/
theorem exists_cell (hvars : vars.Plain) (h : j < slotCount vars) :
    ∃ l : Cell, slotOf vars l.access = .ok j := by
  obtain ⟨i, d, hd, hle, hlt⟩ := exists_variable h
  have hdeclared : ∀ l : Cell, l.access.name = d.name → l.access.kind = d.kind →
      j = firstSlot vars i + (if l.access.selector = .snd then 1 else 0) →
      slotOf vars l.access = .ok j := fun l hname hkind hj =>
    slotOf_eq_ok_iff.mpr ⟨i, of_eq_some_of_declared hvars hd hname hkind, hj⟩
  have hone : d.kind ≠ .record → j = firstSlot vars i := by
    intro hne
    rw [width, if_neg hne] at hlt
    omega
  cases hkind : d.kind with
  | scalar =>
    have hj := hone (by simp [hkind])
    exact ⟨.scalar d.name, hdeclared _ rfl hkind.symm hj⟩
  | array =>
    have hj := hone (by simp [hkind])
    exact ⟨.element d.name 0, hdeclared _ rfl hkind.symm hj⟩
  | record =>
    rw [width, if_pos hkind] at hlt
    by_cases hj : j = firstSlot vars i
    · exact ⟨.fst d.name, hdeclared _ rfl hkind.symm hj⟩
    · have hj' : j = firstSlot vars i + 1 := by omega
      exact ⟨.snd d.name, hdeclared _ rfl hkind.symm hj'⟩
  | unknown => exact absurd hkind (hvars.kinds d (List.mem_of_getElem? hd))

/-! ## States and stores -/

/-- The state can occur, and every cell has a sign of its slot. -/
structure Describes (vars : Variables) (m : Signs) (s : Store Quantity) : Prop where
  reachable : m.unreachable = false
  shaped : m.Shaped vars
  cell : ∀ (l : Cell) (j : Nat), slotOf vars l.access = .ok j → (m.slot j).has (s l).sign = true

variable {m n : Signs} {s : Store Quantity}

/-- At first every store of integers is described. -/
theorem describes_initial (vars : Variables) (values : Cell → Int) :
    (Signs.initial vars).Describes vars fun l => .int (values l) where
  reachable := rfl
  shaped := (proper_initial vars).shaped
  cell l j hj := by
    have htop : (Signs.initial vars).slot j = .top := by
      simp [Signs.slot, Signs.initial, slotOf_lt hj]
    rw [htop]
    exact Sign.has_top_of (values l)

/-- A larger state describes as much. -/
theorem Describes.mono (h : m.Describes vars s) (hle : Leq vars m n) : n.Describes vars s := by
  rcases hle.cases with hun | hnarrower
  · rw [h.reachable] at hun
    cases hun
  · exact ⟨hnarrower.rightReachable, hle.right,
      fun l j hj => SignSet.has_of_subset (hnarrower.slot j) (h.cell l j hj)⟩

theorem Describes.merge_left (h : m.Describes vars s) (hn : n.Shaped vars) :
    (m.merge n).Describes vars s := h.mono (leq_merge h.shaped hn).1

theorem Describes.merge_right (h : n.Describes vars s) (hm : m.Shaped vars) :
    (m.merge n).Describes vars s := h.mono (leq_merge hm h.shaped).2

/-- Where both states describe a store their meet does: no slot is left empty. -/
theorem Describes.meet (hvars : vars.Plain) (hm : m.Describes vars s) (hn : n.Describes vars s) :
    (m.meet n).Describes vars s := by
  have hslot : ∀ (l : Cell) (j : Nat), slotOf vars l.access = .ok j →
      ((m.slot j).inter (n.slot j)).has (s l).sign = true := by
    intro l j hj
    rw [SignSet.has_inter, hm.cell l j hj, hn.cell l j hj]
    rfl
  have hany : ¬ (List.zipWith SignSet.inter m.slots n.slots).any SignSet.isEmpty = true := by
    intro hany
    obtain ⟨j, hj, hempty⟩ := (any_isEmpty_iff hm.shaped hn.shaped).mp hany
    obtain ⟨l, hl⟩ := exists_cell hvars hj
    rw [SignSet.isEmpty_eq_false (hslot l j hl)] at hempty
    cases hempty
  rw [meet_reachable hm.reachable hn.reachable, if_neg hany]
  refine ⟨rfl, hm.shaped.inter hn.shaped, fun l j hj => ?_⟩
  rw [slot_eq_entry, Pointwise.entry_zipWith (hm.shaped.length_eq hn.shaped) rfl]
  exact hslot l j hj

/-! ## Expressions and guards -/

/-- An expression has a sign that evaluation lists. -/
theorem Describes.eval (h : m.Describes vars s) {e : Expr} (he : e.Numeric vars) :
    ∀ {v : Quantity} {x : SignSet}, e.value? .absorbing vars s = some v → m.eval vars e = .ok x →
      x.has v.sign = true := by
  induction he with
  | literal k =>
    intro v x hv hx
    cases hv
    cases hx
    simp [Arithmetic.absorbing, Quantity.sign]
  | @access a i hdecl =>
    intro v x hv hx
    rw [Access.value?_toExpr, Option.map_eq_some_iff] at hv
    obtain ⟨l, hl, rfl⟩ := hv
    obtain ⟨j, hj, -⟩ := exists_slotOf hdecl
    rw [eval_toExpr, of_eq_ok m hj] at hx
    cases hx
    exact h.cell l j ((slotOf_of_locate? hl j).mp hj)
  | @node op l r _ _ ihl ihr =>
    intro v x hv hx
    simp only [Expr.value?, Option.bind_eq_bind, Option.bind_eq_some_iff] at hv
    obtain ⟨a, ha, b, hb, hv⟩ := hv
    cases hv
    simp only [Signs.eval, bind_eq_ok] at hx
    obtain ⟨y, hy, z, hz, hx⟩ := hx
    cases hx
    exact (SignSet.has_apply op y z _).mpr
      ⟨a.sign, b.sign, ihl ha hy, ihr hb hz, Sign.has_apply_sign op a b⟩

/-- Restricting an operand to signs that include that of its value. -/
theorem Describes.restrict (h : m.Describes vars s) {e : Expr} (he : e.Numeric vars)
    {v : Quantity} (hv : e.value? .absorbing vars s = some v) {keep : SignSet}
    (hkeep : keep.has v.sign = true) {x : Signs} (hx : m.restrict vars e keep = .ok x) :
    x.Describes vars s := by
  cases hnarrow : narrowable? e with
  | none =>
    rw [Signs.restrict, hnarrow] at hx
    cases hx
    exact h
  | some a =>
    obtain ⟨rfl, hkind, k, hk⟩ := narrowable_declared he hnarrow
    obtain ⟨j, hj, -⟩ := exists_slotOf hk
    rw [Access.value?_toExpr, Option.map_eq_some_iff] at hv
    obtain ⟨l, hl, rfl⟩ := hv
    have hlj := (slotOf_of_locate? hl j).mp hj
    have hkept : ((m.slot j).inter keep).has (s l).sign = true := by
      rw [SignSet.has_inter, h.cell l j hlj, hkeep]
      rfl
    rw [restrict_access hnarrow hj, SignSet.isEmpty_eq_false hkept] at hx
    cases hx
    refine ⟨h.reachable, by simpa [Shaped] using h.shaped, fun l' j' hl' => ?_⟩
    simp only [Bool.false_eq_true, if_false]
    rw [slot_set]
    split
    · rename_i hjj
      -- the slot belongs to no other cell
      have hkind' : l.access.kind ≠ .array := by
        have hvar := Access.var_of_locate? hl
        cases a <;> cases l <;> simp_all [Cell.var, Access.var, Access.kind, Cell.access,
          Access.name]
      rcases cell_unique hlj (hjj.1 ▸ hl') with rfl | harray
      · exact hkept
      · exact absurd harray hkind'
    · exact h.cell l' j' hl'

theorem Describes.narrower (h : m.Describes vars s) : Narrower vars m m :=
  ⟨h.shaped, h.shaped, h.reachable, h.reachable, fun _ => SignSet.subset_refl _⟩

/-- A relation that holds keeps the state. -/
theorem Describes.narrowRelation (h : m.Describes vars s) {op : RelOp} {l r : Expr}
    (hl : l.Numeric vars) (hr : r.Numeric vars) {v w : Int}
    (hv : l.value? .absorbing vars s = some (.int v))
    (hw : r.value? .absorbing vars s = some (.int w))
    (hholds : op.holds v w = true) {x : Signs} (hx : m.narrowRelation vars (.rel op) l r = .ok x) :
    x.Describes vars s := by
  have hself : Narrower vars m m := h.narrower
  obtain ⟨a, _, ha, _, _⟩ := eval_mono hself hl
  obtain ⟨b, _, hb, _, _⟩ := eval_mono hself hr
  obtain ⟨left, _, hleft, _, _⟩ :=
    restrict_mono hself hl (SignSet.subset_refl (SignSet.narrow op a b).1)
  obtain ⟨hfst, hsnd⟩ := SignSet.has_narrow_of_holds (h.eval hl hv ha) (h.eval hr hw hb) hholds
  have hdescribes := h.restrict hl hv hfst hleft
  rw [narrowRelation_eq ha hb hleft, if_neg (by simp [SignSet.isEmpty_eq_false hfst]),
    if_neg (by simp [hdescribes.reachable])] at hx
  exact hdescribes.restrict hr hw hsnd hx

/-- Only integers are compared. -/
theorem relate?_eq_some {op : RelOp} {v w : Quantity} {b : Bool}
    (h : Arithmetic.absorbing.relate? op v w = some b) :
    ∃ i j, v = .int i ∧ w = .int j ∧ op.holds i j = b := by
  cases v with
  | undef => cases h
  | int i =>
    cases w with
    | undef => cases h
    | int j => exact ⟨i, j, rfl, rfl, Option.some.inj h⟩

/-- A guard that holds, or the negation of one that does not, keeps the state. -/
theorem Describes.narrow (hvars : vars.Plain) (h : m.Describes vars s) {e : Expr}
    (he : e.Logical vars) : ∀ {negated : Bool} {x : Signs},
      e.truth? .absorbing vars s = some (!negated) → m.narrow vars negated e = .ok x →
      x.Describes vars s := by
  have hself : Narrower vars m m := h.narrower
  have hshaped : ∀ {e : Expr} {negated : Bool} {y : Signs}, e.Logical vars →
      m.narrow vars negated e = .ok y → y.Shaped vars := by
    intro e negated y he hy
    obtain ⟨y', _, hy', _, hle⟩ := narrow_mono hself he negated
    rw [hy] at hy'
    cases hy'
    exact hle.left
  induction he with
  | truth b =>
    intro negated x ht hx
    have hb : (b != negated) = true := by
      have hb' : b = !negated := by simpa [Expr.truth?] using ht
      cases negated <;> simp [hb']
    simp only [Signs.narrow, hb, if_true] at hx
    cases hx
    exact h
  | rel op hl hr =>
    intro negated x ht hx
    simp only [Expr.truth?, Option.bind_eq_bind, Option.bind_eq_some_iff] at ht
    obtain ⟨v, hv, w, hw, ht⟩ := ht
    obtain ⟨i, j, rfl, rfl, hholds⟩ := relate?_eq_some ht
    simp only [Signs.narrow, relationOf_rel] at hx
    refine h.narrowRelation hl hr hv hw ?_ hx
    cases negated with
    | false => exact hholds
    | true =>
      simp only [if_true, RelOp.holds_negated, hholds]
      rfl
  | and hl hr ihl ihr | or hl hr ihl ihr =>
    intro negated x ht hx
    simp only [Expr.truth?, Option.bind_eq_bind, Option.bind_eq_some_iff, Option.pure_def,
      Option.some.injEq] at ht
    obtain ⟨a, ha, b, hb, ht⟩ := ht
    simp only [Signs.narrow, bind_eq_ok] at hx
    obtain ⟨y, hy, z, hz, hx⟩ := hx
    cases hx
    have hleft : a = !negated → y.Describes vars s := fun h => ihl (by rw [ha, h]) hy
    have hright : b = !negated → z.Describes vars s := fun h => ihr (by rw [hb, h]) hz
    -- a meet has both sides on its side, and a merge covers the one that is as it should be
    cases negated <;> cases a <;> cases b <;> first
      | exact absurd ht (by decide)
      | exact (hleft rfl).meet hvars (hright rfl)
      | exact (hleft rfl).merge_left (hshaped hr hz)
      | exact (hright rfl).merge_right (hshaped hl hy)
  | not _ _ ih =>
    intro negated x ht hx
    simp only [Expr.truth?, Option.bind_eq_bind, Option.bind_eq_some_iff, Option.pure_def,
      Option.some.injEq] at ht
    obtain ⟨b, hb, ht⟩ := ht
    refine ih ?_ hx
    rw [hb, Bool.not_not, Bool.not_inj ht]

/-! ## Transfer -/

/-- Storing signs that include that of the value that is stored. -/
theorem Describes.store (h : m.Describes vars s) {target : Access} {k : Nat}
    (hk : vars.of target = some k) (hl : target.locate? .absorbing vars s = some l)
    {v : Quantity} {signs : SignSet} (hv : signs.has v.sign = true) {x : Signs}
    (hx : m.store vars target signs = .ok x) : x.Describes vars (s.set l v) := by
  obtain ⟨j, hj, hlt⟩ := exists_slotOf hk
  have hlj := (slotOf_of_locate? hl j).mp hj
  rw [store_eq hj] at hx
  cases hx
  refine ⟨h.reachable, by simpa [Shaped] using h.shaped, fun l' j' hl' => ?_⟩
  rw [slot_modify]
  by_cases hjj : j = j'
  · subst hjj
    have hlen : j < m.slots.length := by
      rw [h.shaped]
      exact hlt
    rw [if_pos ⟨rfl, hlen⟩]
    by_cases hll : l' = l
    · subst hll
      rw [Store.set_self]
      split <;> simp [hv]
    · -- another cell of the slot is an element of the same array
      have harray : target.kind = .array := by
        have hvar := Access.var_of_locate? hl
        rcases cell_unique hlj hl' with heq | harray
        · exact absurd heq.symm hll
        · cases target <;> cases l <;>
            simp_all [Cell.var, Access.var, Access.kind, Cell.access, Access.name]
      rw [if_pos harray, Store.set_of_ne s v hll, SignSet.has_union, h.cell l' j hl']
      rfl
  · rw [if_neg fun hand => hjj hand.1]
    have hll : l' ≠ l := by
      rintro rfl
      rw [hlj] at hl'
      cases hl'
      exact hjj rfl
    rw [Store.set_of_ne s v hll]
    exact h.cell l' j' hl'

/-- What an action makes of a store is described by what transfer makes of the state. -/
theorem Describes.transfer (hvars : vars.Plain) (h : m.Describes vars s) {e : Edge}
    (he : Evaluable vars e.action) {received : Int} {t : Store Quantity}
    (ht : e.action.perform? .absorbing vars received s = some t) {x : Signs}
    (hx : m.transfer vars e = .ok x) : x.Describes vars t := by
  rw [Signs.transfer, if_neg (by simp [h.reachable])] at hx
  cases Action.perform?_eq_some.mp ht with
  -- the value has one of the signs that are stored
  | assign kind aims cell value =>
    obtain ⟨target, i, htarget, hi⟩ := he.target (.inl kind)
    cases aims.symm.trans htarget
    simp only [kind, htarget, bind_eq_ok] at hx
    obtain ⟨signs, hsigns, hx⟩ := hx
    exact h.store hi cell (h.eval (he.value kind) value hsigns) hx
  | read kind aims cell =>
    obtain ⟨target, i, htarget, hi⟩ := he.target (.inr kind)
    cases aims.symm.trans htarget
    simp only [kind, htarget] at hx
    exact h.store hi cell (Sign.has_top_of received) hx
  | guard kind holds =>
    simp only [kind] at hx
    exact h.narrow hvars (he.guard kind) (by simpa using holds) hx
  | write kind | declare kind =>
    simp only [kind] at hx
    cases hx
    exact h

end Signs

/-! ## Runs -/

/-- A run that arrives at a node finds its store described. -/
theorem describes_of_arrives {g : Graph} (hg : g.Coherent) (ht : g.WellTyped) (hvars : g.vars.Plain)
    {V : Values Signs} (hV : (signDetectionDomain hg ht).Least V) {q : Nat} {s : Store Quantity}
    (h : g.Arrives .absorbing q s) : ∃ m, V.value q = some m ∧ m.Describes g.vars s := by
  -- a defined value below that of a node passes its description on to it
  have hpass : ∀ {i : Nat} {m : Signs} {s : Store Quantity}, m.Describes g.vars s →
      (signDetection g).leq (some m) (V.value i) = true →
      ∃ n, V.value i = some n ∧ n.Describes g.vars s := by
    intro i m s hm hle
    obtain ⟨n, hi, hmn⟩ := Analysis.leq_some_iff.mp hle
    exact ⟨n, hi, hm.mono ⟨hm.shaped, (hV.proper i n hi).shaped, hmn⟩⟩
  induction h with
  | start values =>
    obtain ⟨i, n, _, hstart, _, hid, hzero, _⟩ := hg.start false
    have hle := hV.solves.start n hstart
    rw [hid, hzero rfl] at hle
    exact hpass (Signs.describes_initial g.vars values) hle
  | @step e p q s t received _ mem source target performed ih =>
    obtain ⟨m, hm, hdescribes⟩ := ih
    obtain ⟨v, hv, hle⟩ := hV.solves.edge e mem p q source target
    rw [hm] at hv
    obtain ⟨x, rfl, hx⟩ := Analysis.Domain.apply_some hv
    exact hpass (hdescribes.transfer hvars (Signs.evaluable_of_valid hg.valid ht mem) performed hx)
      hle

/-- Runs arrive at nodes of the graph. -/
theorem Graph.Coherent.lt_of_arrives {V : Type} {A : Arithmetic V} {g : Graph} (hg : g.Coherent)
    {q : Nat} {s : Store V} (h : g.Arrives A q s) : q < g.nodes.size := by
  cases h with
  | start values => exact hg.size_pos
  | @step e p _ s _ n before mem source target performed =>
    obtain ⟨i, j, -, hj, -, ht⟩ := hg.ends_listed mem
    rw [target] at ht
    cases ht
    exact hj

/--
The report on the signs in a program is right about every run.  Whatever solver makes it, a
run that arrives at a node finds the node defined in the report, and every cell of every
declared variable has a sign that the state found for the node lists.
-/
theorem sign_report_sound {src : Text.Bytes} {b : Built} (h : compile src = .ok b)
    {s : SolverKind} (hs : s ∈ SolverKind.all) :
    ∃ solution report, (signDetection b.graph).solve b.graph s = .ok solution ∧
      analyze src .sign s = .ok report ∧
      ∀ (q : Nat) (store : Store Quantity), b.graph.Arrives .absorbing q store →
        ∃ node m, report.node? q = some node ∧ node.defined = true ∧
          node.bindings = Signs.bindings b.graph.vars m ∧ solution.values.value q = some m ∧
          ∀ d ∈ b.graph.vars, ∀ l : Cell, l.var = (d.name, d.kind) →
            ∃ signs, m.of b.graph.vars l.access = .ok signs ∧ signs.has (store l).sign = true := by
  obtain ⟨p, -, hbuild⟩ := compile_eq_ok h
  have hg := coherent_of_build hbuild
  have ht := wellTyped_of_build hbuild
  have hvars := plain_of_build hbuild
  obtain ⟨solution, report, hsolve, hleast, hreport, hmade⟩ :=
    Analysis.exists_report hg (signDetectionDomain hg ht) (fun m _ => ⟨_, rfl⟩) hs
  refine ⟨solution, report, hsolve, ?_, fun q store harrives => ?_⟩
  · rw [analyze, compiled_eq_ok.mpr h]
    exact hreport
  · obtain ⟨m, hm, hdescribes⟩ := describes_of_arrives hg ht hvars hleast harrives
    have hq := hg.lt_of_arrives harrives
    obtain ⟨node, hnode, hvalue⟩ := Report.node?_ofSolution hmade (hleast.solves.size ▸ hq)
    obtain ⟨n, hn, -, -⟩ := hg.nodeAt hq
    -- the state can occur, so the entry of the node is made from it
    have hentry : node = ⟨q, n.terminal, true, Signs.bindings b.graph.vars m⟩ := by
      have hreach : (signDetection b.graph).reachable m = true := by
        simp [signDetection, hdescribes.reachable]
      rw [hm, Report.Node.ofValue, hn] at hvalue
      simp only [bind, Except.bind, hreach, if_true] at hvalue
      cases hvalue
      rfl
    subst hentry
    refine ⟨_, m, hnode, rfl, rfl, hm, fun d hd l hl => ?_⟩
    obtain ⟨i, hi⟩ := List.mem_iff_getElem?.mp hd
    have hname : l.access.name = d.name ∧ l.access.kind = d.kind := by
      cases l <;> exact ⟨congrArg Prod.fst hl, congrArg Prod.snd hl⟩
    have hof := Signs.of_eq_some_of_declared hvars hi hname.1 hname.2
    obtain ⟨j, hj, -⟩ := Signs.exists_slotOf hof
    exact ⟨m.slot j, Signs.of_eq_ok m hj, hdescribes.cell l j hj⟩

/-- Divides by zero when it reads 1. -/
def quotient : Text.Bytes :=
  "int x; int y; read x; if (x > 0) \x7b y := 7 / (x - 1); \x7d write y;".toUTF8.toList

/-- The edges along which `quotient` gets to the division. -/
def quotientPath : List Edge :=
  [⟨0, .listed 0, .listed 1, .declare ⟨"x", .scalar, 0⟩⟩,
    ⟨1, .listed 1, .listed 2, .declare ⟨"y", .scalar, 0⟩⟩,
    ⟨2, .listed 2, .listed 3, .read (.scalar "x")⟩,
    ⟨3, .listed 3, .listed 4, .branch (.node (.rel .gt) (.scalar "x") (.literal 0))⟩,
    ⟨4, .listed 4, .listed 5, .assign (.scalar "y") (.node (.arith .div) (.literal 7)
      (.node (.arith .sub) (.scalar "x") (.literal 1)))⟩]

/-- A run of `quotient` that divides by zero finds `undef` among the signs in the report. -/
theorem sign_report_sound_quotient :
    ∃ b report node m signs, ∃ store : Store Quantity, compile quotient = .ok b ∧
      analyze quotient .sign (.worklist .lifo) = .ok report ∧ b.graph.Arrives .absorbing 5 store ∧
      store (.scalar "y") = .undef ∧ report.node? 5 = some node ∧ node.defined = true ∧
      node.bindings = Signs.bindings b.graph.vars m ∧
      m.of b.graph.vars (.scalar "y") = .ok signs ∧ signs.has .undef = true := by
  have hcheck : (compile quotient).toOption.map (fun b =>
      quotientPath.all (· ∈ b.graph.edges.toList) && decide (⟨"y", .scalar, 0⟩ ∈ b.graph.vars)) =
      some true := by
    decide +kernel
  cases hb : compile quotient with
  | error e => simp [hb, Except.toOption] at hcheck
  | ok b =>
    simp only [hb, Except.toOption, Option.map_some, Option.some.injEq, Bool.and_eq_true,
      decide_eq_true_eq, List.all_eq_true, Array.mem_toList_iff] at hcheck
    obtain ⟨hpath, hy⟩ := hcheck
    obtain ⟨solution, report, -, hreport, hsound⟩ :=
      sign_report_sound hb (s := .worklist .lifo) (by simp [SolverKind.all])
    -- the run reads 1
    have h0 : b.graph.Arrives .absorbing 0 fun _ => .int 4 := .start fun _ => 4
    have h1 := h0.step (n := 0) (hpath _ (List.mem_of_getElem? (i := 0) rfl)) rfl rfl rfl
    have h2 := h1.step (n := 0) (hpath _ (List.mem_of_getElem? (i := 1) rfl)) rfl rfl rfl
    have h3 := h2.step (n := 1) (hpath _ (List.mem_of_getElem? (i := 2) rfl)) rfl rfl rfl
    have h4 := h3.step (n := 0) (hpath _ (List.mem_of_getElem? (i := 3) rfl)) rfl rfl rfl
    have h5 := h4.step (n := 0) (hpath _ (List.mem_of_getElem? (i := 4) rfl)) rfl rfl rfl
    obtain ⟨node, m, hnode, hdefined, hbindings, -, hcells⟩ := hsound 5 _ h5
    obtain ⟨signs, hof, hhas⟩ := hcells _ hy (.scalar "y") rfl
    exact ⟨b, report, node, m, signs, _, rfl, hreport, h5, rfl, hnode, hdefined, hbindings, hof,
      hhas⟩

end MicroFlow
