import MicroFlow.Flow.SignDetection
import MicroFlow.Proofs.Flow.Domain
import MicroFlow.Proofs.Flow.Variables
import MicroFlow.Proofs.Sign.Order

/-!
# The domain of signs

On well-typed actions the transfer of signs succeeds and is monotone.  Both are shown at
once, for a pair of states of which one is included in the other: both have a result, and
so are the results (`Signs.eval_mono`, `Signs.narrow_mono`, `Signs.transfer_mono`).  With a
pair of equal states this says that there is a result.

States that come up in a solver are `Proper`: an unreachable one has every slot empty, and
no slot of any other is.  Transfer keeps this (`Signs.Proper.transfer`), because a guard
that leaves a slot without signs makes the state unreachable.  So the number of signs beyond
the first in each slot is a rank, and there are three of them per slot.
-/

namespace MicroFlow

/-! ## Expressions that can be evaluated -/

/-- Well-typed arithmetic over declared variables. -/
inductive Expr.Numeric (vars : Variables) : Expr → Prop
  | literal (n : Int) : Expr.Numeric vars (.literal n)
  | access {a : Access} {i : Nat} (declared : vars.of a = some i) : Expr.Numeric vars a.toExpr
  | node (op : ArithOp) {l r : Expr} (left : l.Numeric vars) (right : r.Numeric vars) :
      Expr.Numeric vars (.node (.arith op) l r)

/-- Well-typed conditions over declared variables. -/
inductive Expr.Logical (vars : Variables) : Expr → Prop
  | truth (b : Bool) : Expr.Logical vars (.truth b)
  | rel (op : RelOp) {l r : Expr} (left : l.Numeric vars) (right : r.Numeric vars) :
      Expr.Logical vars (.node (.rel op) l r)
  | and {l r : Expr} (left : l.Logical vars) (right : r.Logical vars) :
      Expr.Logical vars (.node .and l r)
  | or {l r : Expr} (left : l.Logical vars) (right : r.Logical vars) :
      Expr.Logical vars (.node .or l r)
  | not (l : Expr) {r : Expr} (right : r.Logical vars) : Expr.Logical vars (.node .not l r)

variable {e : Expr}

/-- An arithmetic expression that is well typed can be evaluated when its variables are declared. -/
theorem Expr.numeric_of_declared {vars : Variables} (h : e.numeric = true)
    (hdeclared : ∀ a ∈ e.accesses, ∃ i, vars.of a = some i) : e.Numeric vars := by
  induction e with
  | literal n => exact .literal n
  | scalar x => exact (hdeclared (.scalar x) (by simp [accesses])).elim fun _ => .access
  | field x s => exact (hdeclared (.field x s) (by simp [accesses])).elim fun _ => .access
  | odd x => exact (hdeclared (.odd x) (by simp [accesses])).elim fun _ => .access
  | element x i l => exact (hdeclared (.element x i l) (by simp [accesses])).elim fun _ => .access
  | node op l r ihl ihr =>
    cases op with
    | arith op =>
      simp only [numeric, Bool.and_eq_true] at h
      exact .node op (ihl h.1 fun a ha => hdeclared a (by simp [accesses, ha]))
        (ihr h.2 fun a ha => hdeclared a (by simp [accesses, ha]))
    | rel | and | or | not | unknown => cases h
  | missing | truth | symbol => cases h

/-- Logical expressions over declared variables can be evaluated. -/
theorem Expr.logical_of_declared {vars : Variables} (h : e.logical = true)
    (hdeclared : ∀ a ∈ e.accesses, ∃ i, vars.of a = some i) : e.Logical vars := by
  induction e with
  | truth b => exact .truth b
  | node op l r ihl ihr =>
    have hl : ∀ a ∈ l.accesses, ∃ i, vars.of a = some i := fun a ha =>
      hdeclared a (by simp [accesses, ha])
    have hr : ∀ a ∈ r.accesses, ∃ i, vars.of a = some i := fun a ha =>
      hdeclared a (by simp [accesses, ha])
    cases op with
    | rel op =>
      obtain ⟨h, h'⟩ := Bool.and_eq_true_iff.mp h
      exact .rel op (numeric_of_declared h hl) (numeric_of_declared h' hr)
    | and =>
      obtain ⟨h, h'⟩ := Bool.and_eq_true_iff.mp h
      exact .and (ihl h hl) (ihr h' hr)
    | or =>
      obtain ⟨h, h'⟩ := Bool.and_eq_true_iff.mp h
      exact .or (ihl h hl) (ihr h' hr)
    | not => exact .not l (ihr h hr)
    | arith | unknown => cases h
  | missing | literal | scalar | field | odd | element | symbol => cases h

namespace Signs

/-! ## Slots -/

/-- The state has the slots of the variables. -/
def Shaped (vars : Variables) (m : Signs) : Prop := m.slots.length = slotCount vars

theorem slot_eq_entry (m : Signs) (i : Nat) : m.slot i = Pointwise.entry .empty m.slots i := rfl

variable {a target : Access} {i : Nat} {l r : Expr}

/-- The slot of an access to a declared variable. -/
theorem slotOf_eq_ok {vars : Variables} (h : vars.of a = some i) :
    slotOf vars a = .ok (firstSlot vars i + if a.selector = .snd then 1 else 0) := by
  rw [slotOf, h]

@[simp] theorem firstSlot_zero (vars : Variables) : firstSlot vars 0 = 0 := rfl

/-- Slots are counted variable by variable. -/
theorem firstSlot_cons (d : Declaration) (vars : Variables) (i : Nat) :
    firstSlot (d :: vars) (i + 1) = width d + firstSlot vars i := rfl

theorem slotCount_cons (d : Declaration) (vars : Variables) :
    slotCount (d :: vars) = width d + slotCount vars := rfl

/-- The slots of a variable end before those of a later one start. -/
theorem firstSlot_add_width_le {vars : Variables} {j : Nat} {d : Declaration}
    (hd : vars[i]? = some d) (hij : i < j) : firstSlot vars i + width d ≤ firstSlot vars j := by
  induction vars generalizing i j with
  | nil => simp at hd
  | cons e rest ih =>
    obtain ⟨j, rfl⟩ : ∃ k, j = k + 1 := ⟨j - 1, by omega⟩
    rw [firstSlot_cons]
    cases i with
    | zero =>
      simp only [List.getElem?_cons_zero, Option.some.injEq] at hd
      rw [hd, firstSlot_zero]
      omega
    | succ i =>
      have hrest := ih (by simpa using hd) (by omega : i < j)
      rw [firstSlot_cons]
      omega

/-- Behind the last variable all slots are counted. -/
theorem firstSlot_length (vars : Variables) : firstSlot vars vars.length = slotCount vars := by
  induction vars with
  | nil => rfl
  | cons d rest ih => rw [List.length_cons, firstSlot_cons, slotCount_cons, ih]

/-- A selector stays within the slots of its variable. -/
theorem selector_lt_width {vars : Variables} (h : vars.of a = some i) :
    ∃ d, vars[i]? = some d ∧ (if a.selector = .snd then 1 else 0) < width d := by
  obtain ⟨d, hd, -, hkind, -⟩ := Variables.of_eq_some h
  refine ⟨d, hd, ?_⟩
  unfold width
  cases a with
  | field x s =>
    have hrecord : d.kind = .record := hkind
    rw [if_pos hrecord]
    split <;> omega
  | scalar | element | odd =>
    simp only [Access.selector, reduceCtorEq, if_false]
    split <;> omega

/-- The slot of an access is one of the slots. -/
theorem slotOf_lt {vars : Variables} (h : slotOf vars a = .ok i) : i < slotCount vars := by
  unfold slotOf at h
  split at h
  · cases h
  · rename_i j hj
    cases h
    obtain ⟨d, hd, hsel⟩ := selector_lt_width hj
    have hle := firstSlot_add_width_le hd (List.getElem?_eq_some_iff.mp hd).1
    rw [firstSlot_length] at hle
    omega

theorem exists_slotOf {vars : Variables} (h : vars.of a = some i) :
    ∃ j, slotOf vars a = .ok j ∧ j < slotCount vars :=
  ⟨_, slotOf_eq_ok h, slotOf_lt (slotOf_eq_ok h)⟩

theorem of_eq_ok {vars : Variables} (m : Signs)
    (h : slotOf vars a = .ok i) : m.of vars a = .ok (m.slot i) := by
  rw [of, h]
  rfl

/-- An access evaluates to the signs in its slot. -/
theorem eval_toExpr (vars : Variables) (m : Signs) (a : Access) :
    m.eval vars a.toExpr = m.of vars a := by
  cases a <;> rfl

theorem slot_bottom (m : Signs) (i : Nat) : m.bottom.slot i = .empty := by
  simp only [slot, bottom, List.getElem?_map]
  cases m.slots[i]? <;> rfl

theorem Shaped.bottom {vars : Variables} {m : Signs} (h : m.Shaped vars) :
    m.bottom.Shaped vars := by
  simpa [Shaped, Signs.bottom] using h

/-! ## The order -/

/-- A state is below another when it is unreachable, or both are reachable and it has fewer signs
everywhere. -/
theorem included_iff {m n : Signs} (h : m.slots.length = n.slots.length) :
    included m n = true ↔ m.unreachable = true ∨
      n.unreachable = false ∧ ∀ i, (m.slot i).subset (n.slot i) = true := by
  unfold included
  rw [Bool.or_eq_true, Bool.and_eq_true, Bool.not_eq_true',
    Pointwise.all_zipWith_iff h (SignSet.subset_refl .empty)]
  rfl

/-- Two reachable states of which one is included in the other. -/
structure Narrower (vars : Variables) (m n : Signs) : Prop where
  left : m.Shaped vars
  right : n.Shaped vars
  leftReachable : m.unreachable = false
  rightReachable : n.unreachable = false
  slot : ∀ i, (m.slot i).subset (n.slot i) = true

/-- Two states of which one is included in the other. -/
structure Leq (vars : Variables) (m n : Signs) : Prop where
  left : m.Shaped vars
  right : n.Shaped vars
  included : included m n = true

variable {vars : Variables} {m n m' n' : Signs}

theorem Shaped.length_eq (hm : m.Shaped vars) (hn : n.Shaped vars) :
    m.slots.length = n.slots.length := hm.trans hn.symm

theorem Narrower.leq (h : Narrower vars m n) : Leq vars m n :=
  ⟨h.left, h.right,
    (included_iff (h.left.length_eq h.right)).mpr (.inr ⟨h.rightReachable, h.slot⟩)⟩

/-- Below a state is what is unreachable, or narrower. -/
theorem Leq.cases (h : Leq vars m n) : m.unreachable = true ∨ Narrower vars m n := by
  rcases (included_iff (h.left.length_eq h.right)).mp h.included with hun | ⟨hn, hslot⟩
  · exact .inl hun
  · cases hm : m.unreachable with
    | true => exact .inl rfl
    | false => exact .inr ⟨h.left, h.right, hm, hn, hslot⟩

/-- An unreachable state is below all others. -/
theorem leq_of_unreachable (hm : m.Shaped vars) (hn : n.Shaped vars) (h : m.unreachable = true) :
    Leq vars m n := ⟨hm, hn, (included_iff (hm.length_eq hn)).mpr (.inl h)⟩

theorem leq_refl (hm : m.Shaped vars) : Leq vars m m := by
  cases h : m.unreachable with
  | true => exact leq_of_unreachable hm hm h
  | false => exact (⟨hm, hm, h, h, fun i => SignSet.subset_refl _⟩ : Narrower vars m m).leq

/-- The order on states is transitive. -/
theorem Leq.trans {l : Signs} (h : Leq vars l m) (k : Leq vars m n) : Leq vars l n := by
  rcases h.cases with hun | hlm
  · exact leq_of_unreachable h.left k.right hun
  · rcases k.cases with hun | hmn
    · rw [hlm.rightReachable] at hun
      cases hun
    · exact Narrower.leq ⟨h.left, k.right, hlm.leftReachable, hmn.rightReachable,
        fun i => SignSet.subset_trans (hlm.slot i) (hmn.slot i)⟩

/-- What holds of both states holds of their merge, if it does when both are reachable. -/
theorem merge_cases {P : Signs → Prop} (hm : P m) (hn : P n)
    (hboth : m.unreachable = false → n.unreachable = false → P (m.merge n)) : P (m.merge n) := by
  cases hmr : m.unreachable with
  | true =>
    rw [Signs.merge, if_pos hmr]
    exact hn
  | false =>
    cases hnr : n.unreachable with
    | true =>
      rw [Signs.merge, if_neg (by simp [hmr]), if_pos hnr]
      exact hm
    | false => exact hboth hmr hnr

/-- Reachable states are merged slot by slot. -/
theorem merge_reachable (hm : m.unreachable = false) (hn : n.unreachable = false) :
    m.merge n = { slots := List.zipWith SignSet.union m.slots n.slots } := by
  rw [Signs.merge, if_neg (by simp [hm]), if_neg (by simp [hn])]

theorem Shaped.merge (hm : m.Shaped vars) (hn : n.Shaped vars) : (m.merge n).Shaped vars := by
  refine merge_cases hm hn fun hmr hnr => ?_
  rw [merge_reachable hmr hnr, Shaped, List.length_zipWith, hm, hn, Nat.min_self]

/-- Two reachable states are merged slot by slot. -/
theorem slot_merge (hm : m.Shaped vars) (hn : n.Shaped vars) (hmr : m.unreachable = false)
    (hnr : n.unreachable = false) (i : Nat) :
    (m.merge n).unreachable = false ∧ (m.merge n).slot i = (m.slot i).union (n.slot i) := by
  rw [merge_reachable hmr hnr]
  exact ⟨rfl, Pointwise.entry_zipWith (hm.length_eq hn) rfl i⟩

/-- Both states are included in their merge. -/
theorem leq_merge (hm : m.Shaped vars) (hn : n.Shaped vars) :
    Leq vars m (m.merge n) ∧ Leq vars n (m.merge n) := by
  cases hmr : m.unreachable with
  | true =>
    rw [Signs.merge, if_pos hmr]
    exact ⟨leq_of_unreachable hm hn hmr, leq_refl hn⟩
  | false =>
    cases hnr : n.unreachable with
    | true =>
      rw [Signs.merge, if_neg (by simp [hmr]), if_pos hnr]
      exact ⟨leq_refl hm, leq_of_unreachable hn hm hnr⟩
    | false =>
      have hslot := slot_merge hm hn hmr hnr
      refine ⟨Narrower.leq ⟨hm, hm.merge hn, hmr, (hslot 0).1, fun i => ?_⟩,
        Narrower.leq ⟨hn, hm.merge hn, hnr, (hslot 0).1, fun i => ?_⟩⟩
      · rw [(hslot i).2]
        exact SignSet.subset_union_left _ _
      · rw [(hslot i).2]
        exact SignSet.subset_union_right _ _

/-- A merge is below every state that both parts are below. -/
theorem merge_leq {l : Signs} (h : Leq vars l n) (k : Leq vars m n) : Leq vars (l.merge m) n := by
  -- an unreachable part leaves the other one
  rcases h.cases with hun | hln
  · rw [Signs.merge, if_pos hun]
    exact k
  · rcases k.cases with hun | hmn
    · rw [Signs.merge, if_neg (by simp [hln.leftReachable]), if_pos hun]
      exact h
    · have hslot := slot_merge h.left k.left hln.leftReachable hmn.leftReachable
      refine Narrower.leq ⟨h.left.merge k.left, h.right, (hslot 0).1, hln.rightReachable,
        fun i => ?_⟩
      rw [(hslot i).2]
      exact SignSet.union_subset (hln.slot i) (hmn.slot i)

/-- Merges grow with their parts. -/
theorem merge_mono (h : Leq vars m m') (k : Leq vars n n') :
    Leq vars (m.merge n) (m'.merge n') :=
  merge_leq (h.trans (leq_merge h.right k.right).1) (k.trans (leq_merge h.right k.right).2)

/-- The state without signs is below all others. -/
theorem bottom_leq (hm : m.Shaped vars) (hn : n.Shaped vars) : Leq vars m.bottom n :=
  leq_of_unreachable hm.bottom hn rfl

/-! ## Meets -/

/-- Reachable states meet slot by slot, unless a slot is left without signs. -/
theorem meet_reachable (hm : m.unreachable = false) (hn : n.unreachable = false) :
    m.meet n = if (List.zipWith SignSet.inter m.slots n.slots).any SignSet.isEmpty then m.bottom
      else { slots := List.zipWith SignSet.inter m.slots n.slots } := by
  rw [meet, if_neg (by simp [hm]), if_neg (by simp [hn])]

/-- What holds of both states holds of their meet, if it does of the states that come of two
reachable ones. -/
theorem meet_cases {P : Signs → Prop} (hm : P m) (hn : P n) (hbottom : P m.bottom)
    (hinter : m.unreachable = false → n.unreachable = false →
      ¬ (List.zipWith SignSet.inter m.slots n.slots).any SignSet.isEmpty = true →
      P { slots := List.zipWith SignSet.inter m.slots n.slots }) : P (m.meet n) := by
  cases hmr : m.unreachable with
  | true =>
    rw [Signs.meet, if_pos hmr]
    exact hm
  | false =>
    cases hnr : n.unreachable with
    | true =>
      rw [Signs.meet, if_neg (by simp [hmr]), if_pos hnr]
      exact hn
    | false =>
      rw [meet_reachable hmr hnr]
      split
      · exact hbottom
      · exact hinter hmr hnr ‹_›

theorem Shaped.inter (hm : m.Shaped vars) (hn : n.Shaped vars) :
    Shaped vars { slots := List.zipWith SignSet.inter m.slots n.slots } := by
  rw [Shaped, List.length_zipWith, hm, hn, Nat.min_self]

/-- Two states contradict each other when some slot has no sign in both. -/
theorem any_isEmpty_iff (hm : m.Shaped vars) (hn : n.Shaped vars) :
    (List.zipWith SignSet.inter m.slots n.slots).any SignSet.isEmpty = true ↔
      ∃ i, i < slotCount vars ∧ ((m.slot i).inter (n.slot i)).isEmpty = true := by
  have hlen : (List.zipWith SignSet.inter m.slots n.slots).length = slotCount vars := hm.inter hn
  rw [Pointwise.any_iff_entry (d := SignSet.empty), hlen]
  refine exists_congr fun i => and_congr_right fun _ => ?_
  rw [Pointwise.entry_zipWith (hm.length_eq hn) rfl]
  rfl

theorem Shaped.meet (hm : m.Shaped vars) (hn : n.Shaped vars) : (m.meet n).Shaped vars :=
  meet_cases hm hn hm.bottom fun _ _ _ => hm.inter hn

/-- Meets grow with their parts: a contradiction in the larger states is one in the smaller. -/
theorem meet_mono (h : Leq vars m m') (k : Leq vars n n') :
    Leq vars (m.meet n) (m'.meet n') := by
  have hright := h.right.meet k.right
  rcases h.cases with hun | hm
  · rw [meet, if_pos hun]
    exact leq_of_unreachable h.left hright hun
  · rcases k.cases with hun | hn
    · rw [meet, if_neg (by simp [hm.leftReachable]), if_pos hun]
      exact leq_of_unreachable k.left hright hun
    · rw [meet_reachable hm.leftReachable hn.leftReachable,
        meet_reachable hm.rightReachable hn.rightReachable]
      split
      · rw [← meet_reachable hm.rightReachable hn.rightReachable]
        exact bottom_leq h.left hright
      · rename_i hany
        -- a slot that is empty in the larger meet is empty in the smaller one
        have hany' :
            ¬ (List.zipWith SignSet.inter m'.slots n'.slots).any SignSet.isEmpty = true := by
          intro hany'
          rw [any_isEmpty_iff h.right k.right] at hany'
          obtain ⟨i, hi, hempty⟩ := hany'
          refine hany ((any_isEmpty_iff h.left k.left).mpr ⟨i, hi, ?_⟩)
          exact SignSet.isEmpty_mono (SignSet.inter_mono (hm.slot i) (hn.slot i)) hempty
        rw [if_neg hany']
        refine Narrower.leq ⟨h.left.inter k.left, h.right.inter k.right, rfl, rfl, fun i => ?_⟩
        rw [slot_eq_entry, slot_eq_entry,
          Pointwise.entry_zipWith (h.left.length_eq k.left) rfl,
          Pointwise.entry_zipWith (h.right.length_eq k.right) rfl]
        exact SignSet.inter_mono (hm.slot i) (hn.slot i)

/-! ## Expressions and guards -/

/-- In a narrower state an expression has fewer signs. -/
theorem eval_mono (h : Narrower vars m n) (he : e.Numeric vars) :
    ∃ s t, m.eval vars e = .ok s ∧ n.eval vars e = .ok t ∧ s.subset t = true := by
  induction he with
  | literal k => exact ⟨_, _, rfl, rfl, SignSet.subset_refl _⟩
  | @access a i hdecl =>
    obtain ⟨j, hj, -⟩ := exists_slotOf hdecl
    refine ⟨m.slot j, n.slot j, ?_, ?_, h.slot j⟩
    · rw [eval_toExpr, of_eq_ok m hj]
    · rw [eval_toExpr, of_eq_ok n hj]
  | @node op l r _ _ ihl ihr =>
    obtain ⟨a, a', ha, ha', hle⟩ := ihl
    obtain ⟨b, b', hb, hb', hle'⟩ := ihr
    refine ⟨SignSet.apply op a b, SignSet.apply op a' b', ?_, ?_, SignSet.apply_subset hle hle'⟩
    · simp only [eval, ha, hb, bind, Except.bind]
      rfl
    · simp only [eval, ha', hb', bind, Except.bind]
      rfl

/-- What is narrowed is a declared scalar or field. -/
theorem narrowable_declared (he : e.Numeric vars)
    (h : narrowable? e = some a) : e = a.toExpr ∧ a.kind ≠ .array ∧ ∃ i, vars.of a = some i := by
  cases he with
  | literal => cases h
  | @access b i hdecl =>
    have haccess : (Access.toExpr b).access? = some b := by cases b <;> rfl
    unfold narrowable? at h
    rw [haccess] at h
    simp only at h
    split at h
    · cases h
    · rename_i hkind
      cases h
      exact ⟨rfl, hkind, i, hdecl⟩
  | node => cases h

/-- Restricting an access to some signs, given its slot. -/
theorem restrict_access (h : narrowable? e = some a)
    (hi : slotOf vars a = .ok i) (m : Signs) (keep : SignSet) :
    m.restrict vars e keep = .ok (if ((m.slot i).inter keep).isEmpty then m.bottom
      else { m with slots := m.slots.set i ((m.slot i).inter keep) }) := by
  rw [restrict, h]
  simp only [hi, bind, Except.bind]
  rfl

/-- Setting a slot changes no other. -/
theorem slot_set (m : Signs) (i j : Nat) (s : SignSet) :
    slot { m with slots := m.slots.set i s } j =
      if i = j ∧ j < m.slots.length then s else m.slot j := by
  have hmodify : m.slots.set i s = m.slots.modify i fun _ => s := by
    rw [List.modify_eq_set_getElem?]
    cases hi : m.slots[i]? with
    | none => exact List.set_eq_of_length_le (by simpa using hi)
    | some x => rfl
  rw [slot_eq_entry, hmodify, Pointwise.entry_modify]
  rfl

/-- Narrower states, restricted to fewer signs, stay in order. -/
theorem restrict_mono (h : Narrower vars m n) (he : e.Numeric vars)
    {keep keep' : SignSet} (hkeep : keep.subset keep' = true) :
    ∃ r r', m.restrict vars e keep = .ok r ∧ n.restrict vars e keep' = .ok r' ∧ Leq vars r r' := by
  cases hnarrow : narrowable? e with
  | none =>
    refine ⟨m, n, ?_, ?_, h.leq⟩
    · rw [restrict, hnarrow]
    · rw [restrict, hnarrow]
  | some a =>
    obtain ⟨-, -, k, hk⟩ := narrowable_declared he hnarrow
    obtain ⟨i, hslot, -⟩ := exists_slotOf hk
    refine ⟨_, _, restrict_access hnarrow hslot m keep, restrict_access hnarrow hslot n keep', ?_⟩
    have hsub := SignSet.inter_mono (h.slot i) hkeep
    have hset : ∀ {l : Signs} {s : SignSet}, l.Shaped vars →
        Shaped vars { l with slots := l.slots.set i s } := by
      intro l s hl
      simpa [Shaped] using hl
    -- the smaller state can become unreachable alone, the larger one only together with it
    by_cases hempty : ((m.slot i).inter keep).isEmpty = true
    · rw [if_pos hempty]
      refine bottom_leq h.left ?_
      split
      · exact h.right.bottom
      · exact hset h.right
    · have hempty' : ¬ ((n.slot i).inter keep').isEmpty = true := fun h' =>
        hempty (SignSet.isEmpty_mono hsub h')
      rw [if_neg hempty, if_neg hempty']
      refine Narrower.leq ⟨hset h.left, hset h.right, h.leftReachable, h.rightReachable,
        fun j => ?_⟩
      rw [slot_set, slot_set, h.left.length_eq h.right]
      split
      · exact hsub
      · exact h.slot j

/-- A negated relation is the opposite relation. -/
theorem relationOf_rel (op : RelOp) (negated : Bool) :
    relationOf (.rel op) negated = .rel (if negated then op.negated else op) := by
  cases negated <;> rfl

/-- What narrowing by a relation gives, in steps. -/
theorem narrowRelation_eq {op : RelOp} {a b : SignSet} {left : Signs}
    (ha : m.eval vars l = .ok a) (hb : m.eval vars r = .ok b)
    (hleft : m.restrict vars l (SignSet.narrow op a b).1 = .ok left) :
    m.narrowRelation vars (.rel op) l r =
      if (SignSet.narrow op a b).1.isEmpty then .ok m.bottom
      else if left.unreachable then .ok left
      else left.restrict vars r (SignSet.narrow op a b).2 := by
  simp only [narrowRelation, ha, hb, SignSet.narrowBy, hleft, bind, Except.bind]
  split
  · rfl
  · split <;> rfl

/-- A relation narrows both operands, the left one first, and keeps the order. -/
theorem narrowRelation_mono (h : Narrower vars m n) (op : RelOp)
    (hl : l.Numeric vars) (hr : r.Numeric vars) :
    ∃ x y, m.narrowRelation vars (.rel op) l r = .ok x ∧
      n.narrowRelation vars (.rel op) l r = .ok y ∧ Leq vars x y := by
  obtain ⟨a, a', ha, ha', hle⟩ := eval_mono h hl
  obtain ⟨b, b', hb, hb', hle'⟩ := eval_mono h hr
  obtain ⟨hfst, hsnd⟩ := SignSet.narrow_subset op hle hle'
  obtain ⟨left, left', hleft, hleft', hlle⟩ := restrict_mono h hl hfst
  -- the larger state has a result, whatever the smaller one does
  obtain ⟨y, hy, hyshaped⟩ : ∃ y, n.narrowRelation vars (.rel op) l r = .ok y ∧ y.Shaped vars := by
    rw [narrowRelation_eq ha' hb' hleft']
    split
    · exact ⟨_, rfl, h.right.bottom⟩
    · split
      · exact ⟨_, rfl, hlle.right⟩
      · rename_i hreach
        have hself : Narrower vars left' left' := by
          refine ⟨hlle.right, hlle.right, ?_, ?_, fun i => SignSet.subset_refl _⟩ <;>
            simpa using hreach
        obtain ⟨y, _, hy, _, hyy⟩ := restrict_mono hself hr (SignSet.subset_refl _)
        exact ⟨y, hy, hyy.left⟩
  rw [narrowRelation_eq ha hb hleft]
  by_cases hempty : (SignSet.narrow op a b).1.isEmpty = true
  · rw [if_pos hempty]
    exact ⟨_, y, rfl, hy, bottom_leq h.left hyshaped⟩
  · have hempty' : ¬ (SignSet.narrow op a' b').1.isEmpty = true := fun h' =>
      hempty (SignSet.isEmpty_mono hfst h')
    rw [if_neg hempty]
    -- the right operand is narrowed only if the left one has left a reachable state
    rcases hlle.cases with hun | hnarrower
    · rw [if_pos hun]
      exact ⟨_, y, rfl, hy, leq_of_unreachable hlle.left hyshaped hun⟩
    · rw [if_neg (by simp [hnarrower.leftReachable])]
      obtain ⟨x, y', hx, hy', hxy⟩ := restrict_mono hnarrower hr hsnd
      refine ⟨x, y', hx, ?_, hxy⟩
      rw [narrowRelation_eq ha' hb' hleft', if_neg hempty',
        if_neg (by simp [hnarrower.rightReachable]), hy']

/-- Guards keep the order, by induction on the condition. -/
theorem narrow_mono (h : Narrower vars m n) (he : e.Logical vars) : ∀ negated : Bool,
    ∃ x y, m.narrow vars negated e = .ok x ∧ n.narrow vars negated e = .ok y ∧ Leq vars x y := by
  induction he with
  | truth b =>
    intro negated
    refine ⟨_, _, rfl, rfl, ?_⟩
    split
    · exact h.leq
    · exact bottom_leq h.left h.right.bottom
  | rel op hl hr =>
    intro negated
    simp only [narrow, relationOf_rel]
    exact narrowRelation_mono h _ hl hr
  | and _ _ ihl ihr | or _ _ ihl ihr =>
    intro negated
    obtain ⟨a, a', ha, ha', hle⟩ := ihl negated
    obtain ⟨b, b', hb, hb', hle'⟩ := ihr negated
    simp only [narrow, ha, ha', hb, hb', bind, Except.bind]
    refine ⟨_, _, rfl, rfl, ?_⟩
    -- a negation turns the meet of a conjunction into a merge, and the other way round
    cases negated <;> first | exact meet_mono hle hle' | exact merge_mono hle hle'
  | not _ _ ih =>
    intro negated
    exact ih (!negated)

/-! ## Transfer -/

/-- Storing adds signs to an array, and replaces those of any other slot. -/
theorem store_eq (hi : slotOf vars target = .ok i) (m : Signs)
    (v : SignSet) : m.store vars target v = .ok { m with
      slots := m.slots.modify i (fun s => if target.kind = .array then s.union v else v) } := by
  simp only [store, hi, bind, Except.bind]
  rfl

theorem slot_modify (m : Signs) (i j : Nat) (f : SignSet → SignSet) :
    slot { m with slots := m.slots.modify i f } j =
      if i = j ∧ j < m.slots.length then f (m.slot j) else m.slot j :=
  Pointwise.entry_modify f i j

/-- Storing keeps the order. -/
theorem store_mono (h : Narrower vars m n) {k : Nat}
    (hk : vars.of target = some k) {v w : SignSet} (hvw : v.subset w = true) :
    ∃ x y, m.store vars target v = .ok x ∧ n.store vars target w = .ok y ∧ Leq vars x y := by
  obtain ⟨i, hslot, -⟩ := exists_slotOf hk
  refine ⟨_, _, store_eq hslot m v, store_eq hslot n w, Narrower.leq ⟨?_, ?_, h.leftReachable,
    h.rightReachable, fun j => ?_⟩⟩
  · simpa [Shaped] using h.left
  · simpa [Shaped] using h.right
  · rw [slot_modify, slot_modify, h.left.length_eq h.right]
    split
    · split
      · exact SignSet.union_mono (h.slot j) hvw
      · exact hvw
    · exact h.slot j

/-- An action whose parts are there, well typed and declared. -/
structure Evaluable (vars : Variables) (a : Action) : Prop where
  target : a.kind = .assign ∨ a.kind = .read → ∃ t i, a.target = some t ∧ vars.of t = some i
  value : a.kind = .assign → a.value.Numeric vars
  guard : a.kind = .boolean → a.guard.Logical vars

/-- The actions of a valid, well-typed graph can be evaluated. -/
theorem evaluable_of_valid {g : Graph} (hg : g.Valid) (ht : g.WellTyped) {e : Edge}
    (he : e ∈ g.edges) : Evaluable g.vars e.action := by
  have hdeclared : e.action.Declared g.vars := hg.declared e he
  have htyped := ht e he
  have hvalid := hg.action e he
  refine ⟨fun hkind => ?_, fun hkind => ?_, fun hkind => ?_⟩
  · -- validation refuses an assignment or a read without a target
    have htarget : ∃ t, e.action.target = some t := by
      cases hopt : e.action.target with
      | some t => exact ⟨t, rfl⟩
      | none =>
        rcases hkind with hkind | hkind <;>
        · simp [Action.validate, Action.lacking?, hkind, hopt] at hvalid
    obtain ⟨t, htarget⟩ := htarget
    obtain ⟨i, hi⟩ := hdeclared.target (x := t) (by
      rcases hkind with hkind | hkind <;> simp [Action.defines, hkind, htarget])
    exact ⟨t, i, htarget, hi⟩
  · simp only [Action.wellTyped, hkind, Bool.and_eq_true] at htyped
    exact Expr.numeric_of_declared htyped.2 fun a ha =>
      hdeclared.use (by simp [Action.uses, hkind, ha])
  · simp only [Action.wellTyped, hkind] at htyped
    exact Expr.logical_of_declared htyped fun a ha =>
      hdeclared.use (by simp [Action.uses, hkind, ha])

/-- Transfer has a result and keeps the order, whatever the action. -/
theorem transfer_mono {e : Edge} (he : Evaluable vars e.action) (h : Leq vars m n) :
    ∃ x y, m.transfer vars e = .ok x ∧ n.transfer vars e = .ok y ∧ Leq vars x y := by
  -- on reachable states, by the kind of the action
  have hnarrower : ∀ {m n : Signs}, Narrower vars m n →
      ∃ x y, m.transfer vars e = .ok x ∧ n.transfer vars e = .ok y ∧ Leq vars x y := by
    intro m n h
    rw [transfer, transfer, if_neg (by simp [h.leftReachable]), if_neg (by simp [h.rightReachable])]
    cases hkind : e.action.kind with
    | assign =>
      obtain ⟨t, i, htarget, hi⟩ := he.target (.inl hkind)
      obtain ⟨v, w, hv, hw, hvw⟩ := eval_mono h (he.value hkind)
      simp only [hv, hw, htarget, bind, Except.bind]
      exact store_mono h hi hvw
    | read =>
      obtain ⟨t, i, htarget, hi⟩ := he.target (.inr hkind)
      simp only [htarget]
      exact store_mono h hi (SignSet.subset_refl _)
    | boolean => exact narrow_mono h (he.guard hkind) false
    | write | declare | unknown => exact ⟨m, n, rfl, rfl, h.leq⟩
  rcases h.cases with hun | hn
  · -- an unreachable state stays as it is, and is below whatever the other one gives
    have hm : m.transfer vars e = .ok m := by rw [transfer, if_pos hun]
    cases hnr : n.unreachable with
    | true =>
      exact ⟨m, n, hm, by rw [transfer, if_pos hnr], leq_of_unreachable h.left h.right hun⟩
    | false =>
      obtain ⟨y, _, hy, _, hyy⟩ :=
        hnarrower ⟨h.right, h.right, hnr, hnr, fun i => SignSet.subset_refl _⟩
      exact ⟨m, y, hm, hy, leq_of_unreachable h.left hyy.left hun⟩
  · exact hnarrower hn

/-! ## Proper states -/

/-- No slot of a reachable state is empty, and every slot of an unreachable one is. -/
structure Proper (vars : Variables) (m : Signs) : Prop where
  shaped : m.Shaped vars
  empty : m.unreachable = true → ∀ i, m.slot i = .empty
  slot : m.unreachable = false → ∀ i, i < slotCount vars → (m.slot i).Proper

theorem proper_initial (vars : Variables) : (Signs.initial vars).Proper vars where
  shaped := by simp [Shaped, Signs.initial]
  empty h := by cases h
  slot _ i hi := by
    have htop : (Signs.initial vars).slot i = .top := by simp [Signs.slot, Signs.initial, hi]
    rw [htop]
    exact SignSet.proper_top

/-- An unreachable state is proper with all slots empty. -/
theorem Proper.bottom (h : m.Proper vars) : m.bottom.Proper vars where
  shaped := h.shaped.bottom
  empty _ i := slot_bottom m i
  slot hr := by cases hr

/-- Merges of proper states are proper. -/
theorem Proper.merge (hm : m.Proper vars) (hn : n.Proper vars) : (m.merge n).Proper vars := by
  refine merge_cases hm hn fun hmr hnr => ?_
  have hslot := slot_merge hm.shaped hn.shaped hmr hnr
  refine ⟨hm.shaped.merge hn.shaped, fun hun => ?_, fun _ i hi => ?_⟩
  · rw [(hslot 0).1] at hun
    cases hun
  · rw [(hslot i).2]
    exact (hm.slot hmr i hi).union (hn.slot hnr i hi)

/-- Meets are proper: a slot without signs makes them unreachable. -/
theorem Proper.meet (hm : m.Proper vars) (hn : n.Proper vars) : (m.meet n).Proper vars := by
  refine meet_cases hm hn hm.bottom fun hmr _ hany => ?_
  refine ⟨hm.shaped.inter hn.shaped, fun hun => (by cases hun), fun _ i hi => ?_⟩
  rw [slot_eq_entry, Pointwise.entry_zipWith (hm.shaped.length_eq hn.shaped) rfl,
    ← slot_eq_entry, ← slot_eq_entry]
  refine SignSet.proper_of_isEmpty ?_ ?_
  · simp [SignSet.inter, (hm.slot hmr i hi).spare]
  · -- no slot of the meet is empty, since the meet is reachable
    rw [← Bool.not_eq_true]
    exact fun hempty => hany ((any_isEmpty_iff hm.shaped hn.shaped).mpr ⟨i, hi, hempty⟩)

/-- In a proper and reachable state every expression has a sign. -/
theorem Proper.eval (hm : m.Proper vars) (hmr : m.unreachable = false) {e : Expr}
    (he : e.Numeric vars) : ∀ {s : SignSet}, m.eval vars e = .ok s → s.Proper := by
  induction he with
  | literal k =>
    intro s hs
    cases hs
    exact ⟨rfl, .of k, by simp⟩
  | @access a i hdecl =>
    intro s hs
    obtain ⟨j, hj, hlt⟩ := exists_slotOf hdecl
    rw [eval_toExpr, of_eq_ok m hj] at hs
    cases hs
    exact hm.slot hmr j hlt
  | @node op l r _ _ ihl ihr =>
    intro s hs
    simp only [Signs.eval, bind_eq_ok] at hs
    obtain ⟨a, ha, b, hb, hs⟩ := hs
    cases hs
    exact (ihl ha).apply (ihr hb) op

/-- Restricting leaves signs, or makes the state unreachable. -/
theorem Proper.restrict (hm : m.Proper vars) (hmr : m.unreachable = false) {e : Expr}
    (he : e.Numeric vars) {keep : SignSet} {r : Signs} (h : m.restrict vars e keep = .ok r) :
    r.Proper vars := by
  cases hnarrow : narrowable? e with
  | none =>
    rw [Signs.restrict, hnarrow] at h
    cases h
    exact hm
  | some a =>
    obtain ⟨-, -, k, hk⟩ := narrowable_declared he hnarrow
    obtain ⟨i, hi, hlt⟩ := exists_slotOf hk
    rw [restrict_access hnarrow hi] at h
    cases h
    split
    · exact hm.bottom
    · rename_i hempty
      refine ⟨by simpa [Shaped] using hm.shaped, fun hun => ?_, fun _ j hj => ?_⟩
      · exact absurd hun (by simp [hmr])
      · rw [slot_set]
        split
        · refine SignSet.proper_of_isEmpty ?_ (by simpa using hempty)
          simp [SignSet.inter, (hm.slot hmr i hlt).spare]
        · exact hm.slot hmr j hj

/-- Narrowing by a relation keeps mappings proper. -/
theorem Proper.narrowRelation (hm : m.Proper vars) (hmr : m.unreachable = false) {op : RelOp}
    (hl : l.Numeric vars) (hr : r.Numeric vars) {x : Signs}
    (h : m.narrowRelation vars (.rel op) l r = .ok x) : x.Proper vars := by
  have hself : Narrower vars m m :=
    ⟨hm.shaped, hm.shaped, hmr, hmr, fun i => SignSet.subset_refl _⟩
  obtain ⟨a, _, ha, _, _⟩ := eval_mono hself hl
  obtain ⟨b, _, hb, _, _⟩ := eval_mono hself hr
  obtain ⟨left, _, hleft, _, _⟩ :=
    restrict_mono hself hl (SignSet.subset_refl (SignSet.narrow op a b).1)
  have hproper := hm.restrict hmr hl hleft
  rw [narrowRelation_eq ha hb hleft] at h
  split at h
  · cases h
    exact hm.bottom
  · split at h
    · cases h
      exact hproper
    · rename_i hreach
      exact hproper.restrict (by simpa using hreach) hr h

/-- Guards leave proper states. -/
theorem Proper.narrow (hm : m.Proper vars) (hmr : m.unreachable = false) {e : Expr}
    (he : e.Logical vars) : ∀ {negated : Bool} {x : Signs}, m.narrow vars negated e = .ok x →
    x.Proper vars := by
  induction he with
  | truth b =>
    intro negated x hx
    cases hx
    split
    · exact hm
    · exact hm.bottom
  | rel op hl hr =>
    intro negated x hx
    simp only [Signs.narrow, relationOf_rel] at hx
    exact hm.narrowRelation hmr hl hr hx
  | and _ _ ihl ihr | or _ _ ihl ihr =>
    intro negated x hx
    simp only [Signs.narrow, bind_eq_ok] at hx
    obtain ⟨a, ha, b, hb, hx⟩ := hx
    cases hx
    split <;> first | exact (ihl ha).merge (ihr hb) | exact (ihl ha).meet (ihr hb)
  | not _ _ ih =>
    intro negated x hx
    exact ih hx

/-- Storing a proper set leaves a proper state. -/
theorem Proper.store (hm : m.Proper vars) (hmr : m.unreachable = false)
    {k : Nat} (hk : vars.of target = some k) {v : SignSet} (hv : v.Proper) {x : Signs}
    (h : m.store vars target v = .ok x) : x.Proper vars := by
  obtain ⟨i, hi, -⟩ := exists_slotOf hk
  rw [store_eq hi] at h
  cases h
  refine ⟨by simpa [Shaped] using hm.shaped, fun hun => ?_, fun _ j hj => ?_⟩
  · exact absurd hun (by simp [hmr])
  · rw [slot_modify]
    split
    · split
      · exact (hm.slot hmr j hj).union hv
      · exact hv
    · exact hm.slot hmr j hj

/-- Transfer leaves proper states. -/
theorem Proper.transfer (hm : m.Proper vars) {e : Edge} (he : Evaluable vars e.action) {x : Signs}
    (h : m.transfer vars e = .ok x) : x.Proper vars := by
  rw [Signs.transfer] at h
  split at h
  · cases h
    exact hm
  · rename_i hreach
    have hmr : m.unreachable = false := by simpa using hreach
    cases hkind : e.action.kind with
    | assign =>
      obtain ⟨t, i, htarget, hi⟩ := he.target (.inl hkind)
      simp only [hkind, htarget, bind_eq_ok] at h
      obtain ⟨v, hv, hx⟩ := h
      exact hm.store hmr hi (hm.eval hmr (he.value hkind) hv) hx
    | read =>
      obtain ⟨t, i, htarget, hi⟩ := he.target (.inr hkind)
      simp only [hkind, htarget] at h
      exact hm.store hmr hi SignSet.proper_top h
    | boolean =>
      simp only [hkind] at h
      exact hm.narrow hmr (he.guard hkind) h
    | write | declare | unknown =>
      simp only [hkind] at h
      cases h
      exact hm

/-- A state says of itself whether it is reachable: an unreachable one has every slot empty, and no
slot of any other is. -/
structure Consistent (vars : Variables) (m : Signs) : Prop where
  shaped : m.Shaped vars
  empty : m.unreachable = true → ∀ i, m.slot i = .empty
  filled : m.unreachable = false → ∀ i, i < slotCount vars → (m.slot i).isEmpty = false

theorem Proper.consistent (h : m.Proper vars) : m.Consistent vars where
  shaped := h.shaped
  empty := h.empty
  filled hr i hi := by
    obtain ⟨x, hx⟩ := (h.slot hr i hi).nonempty
    exact SignSet.isEmpty_eq_false hx

/-- Consistent states that are below each other are equal. -/
theorem Consistent.antisymm (hm : m.Consistent vars) (hn : n.Consistent vars)
    (hmn : included m n = true)
    (hnm : included n m = true) : m = n := by
  have hlen := hm.shaped.length_eq hn.shaped
  have hslots : m.unreachable = n.unreachable ∧ ∀ i, m.slot i = n.slot i := by
    rcases (included_iff hlen).mp hmn with hmr | ⟨hnr, hsub⟩
    · rcases (included_iff hlen.symm).mp hnm with hnr | ⟨hmr', -⟩
      · exact ⟨hmr.trans hnr.symm, fun i => (hm.empty hmr i).trans (hn.empty hnr i).symm⟩
      · rw [hmr] at hmr'
        cases hmr'
    · rcases (included_iff hlen.symm).mp hnm with hnr' | ⟨hmr, hsub'⟩
      · rw [hnr] at hnr'
        cases hnr'
      · exact ⟨hmr.trans hnr.symm, fun i => SignSet.subset_antisymm (hsub i) (hsub' i)⟩
  have hlist : m.slots = n.slots := Pointwise.ext_entry hlen hslots.2
  cases m
  cases n
  simp_all

theorem Proper.antisymm (hm : m.Proper vars) (hn : n.Proper vars) (hmn : included m n = true)
    (hnm : included n m = true) : m = n := hm.consistent.antisymm hn.consistent hmn hnm

/-- Merges of consistent states are consistent. -/
theorem Consistent.merge (hm : m.Consistent vars) (hn : n.Consistent vars) :
    (m.merge n).Consistent vars := by
  refine merge_cases hm hn fun hmr hnr => ?_
  have hslot := slot_merge hm.shaped hn.shaped hmr hnr
  refine ⟨hm.shaped.merge hn.shaped, fun hun => ?_, fun _ i hi => ?_⟩
  · rw [(hslot 0).1] at hun
    cases hun
  · rw [(hslot i).2, ← Bool.not_eq_true]
    intro hempty
    have hm' := SignSet.isEmpty_mono (SignSet.subset_union_left _ _) hempty
    rw [hm.filled hmr i hi] at hm'
    cases hm'

/-- The merge gives least upper bounds of consistent states. -/
theorem leastBounds (vars : Variables) : LeastBounds (Consistent vars) included merge where
  refl hm := (leq_refl hm.shaped).included
  trans hl hm hn hlm hmn :=
    ((Leq.mk hl.shaped hm.shaped hlm).trans ⟨hm.shaped, hn.shaped, hmn⟩).included
  left hm hn := (leq_merge hm.shaped hn.shaped).1.included
  right hm hn := (leq_merge hm.shaped hn.shaped).2.included
  least hl hm hn hln hmn :=
    (merge_leq ⟨hl.shaped, hn.shaped, hln⟩ ⟨hm.shaped, hn.shaped, hmn⟩).included
  antisymm := Consistent.antisymm
  closed := Consistent.merge

/-- The signs beyond the first one in every slot; a reachable state counts more than none. -/
def rank (vars : Variables) (m : Signs) : Nat :=
  if m.unreachable then 1
  else 2 + ∑ i ∈ Finset.range (slotCount vars), ((m.slot i).size - 1)

/-- A rank is bounded: three more signs for each slot. -/
theorem rank_le (vars : Variables) (m : Signs) : m.rank vars ≤ 2 + 3 * slotCount vars := by
  unfold rank
  split
  · omega
  · have hsum := Pointwise.sum_le (d := SignSet.empty) m.slots (n := slotCount vars) (b := 3)
      (f := fun s => s.size - 1) fun i => by
        have := SignSet.size_le (Pointwise.entry .empty m.slots i)
        omega
    rw [Nat.mul_comm] at hsum
    exact Nat.add_le_add_left hsum 2

/-- The rank of a proper state grows with the state. -/
theorem Proper.rank_lt (hm : m.Proper vars) (hn : n.Proper vars) (h : included m n = true)
    (hne : m ≠ n) : m.rank vars < n.rank vars := by
  have hlen := hm.shaped.length_eq hn.shaped
  unfold rank
  rcases (Leq.mk hm.shaped hn.shaped h).cases with hmr | hnarrower
  · -- a state above an unreachable one, and not equal to it, is reachable
    have hnr : n.unreachable = false := by
      by_contra hnr
      exact hne (hm.antisymm hn h ((included_iff hlen.symm).mpr (.inl (by simpa using hnr))))
    rw [if_pos hmr, if_neg (by simp [hnr])]
    omega
  · have hmr := hnarrower.leftReachable
    have hnr := hnarrower.rightReachable
    rw [if_neg (by simp [hmr]), if_neg (by simp [hnr])]
    -- some slot differs, and there the larger state has more signs
    obtain ⟨i, hi⟩ : ∃ i, m.slot i ≠ n.slot i := by
      by_contra hall
      push Not at hall
      refine hne (hm.antisymm hn h ((included_iff hlen.symm).mpr (.inr ⟨hmr, fun i => ?_⟩)))
      rw [hall i]
      exact SignSet.subset_refl _
    have hlt : i < slotCount vars := by
      by_contra hge
      have hm' : m.slots.length ≤ i := by rw [hm.shaped]; omega
      have hn' : n.slots.length ≤ i := by rw [hn.shaped]; omega
      exact hi (by rw [slot_eq_entry, slot_eq_entry, Pointwise.entry_of_le hm',
        Pointwise.entry_of_le hn'])
    have hsize := SignSet.size_lt (hnarrower.slot i) (hn.slot hnr i hlt).spare hi
    have hpos := (hm.slot hmr i hlt).size_pos
    have hsum := Pointwise.sum_lt (d := SignSet.empty) m.slots n.slots (n := slotCount vars)
      (f := fun s => s.size - 1) (fun j =>
        Nat.sub_le_sub_right (SignSet.size_mono (hnarrower.slot j)) 1)
      hlt (by
        rw [← slot_eq_entry, ← slot_eq_entry]
        omega)
    exact Nat.add_lt_add_left hsum 2

end Signs

/-- Signs of all slots, which grow with every sign beyond the first. -/
def signDetectionDomain {g : Graph} (hg : g.Coherent) (ht : g.WellTyped) :
    (signDetection g).Domain g where
  Shaped m := m.Shaped g.vars
  Proper m := m.Proper g.vars
  rank m := m.rank g.vars
  top := 2 + 3 * Signs.slotCount g.vars
  shaped_of_proper h := h.shaped
  included_refl hm := (Signs.leq_refl hm).included
  included_trans hl hm hn hlm hmn := (Signs.Leq.mk hl hm hlm |>.trans ⟨hm, hn, hmn⟩).included
  included_antisymm := Signs.Proper.antisymm
  included_merge_left hm hn := (Signs.leq_merge hm hn).1.included
  included_merge_right hm hn := (Signs.leq_merge hm hn).2.included
  merge_included hl hm hn hln hmn := (Signs.merge_leq ⟨hl, hn, hln⟩ ⟨hm, hn, hmn⟩).included
  proper_initial := Signs.proper_initial g.vars
  proper_merge := Signs.Proper.merge
  exists_transfer he hm := by
    obtain ⟨x, _, hx, _, hxx⟩ := Signs.transfer_mono (Signs.evaluable_of_valid hg.valid ht he)
      (Signs.leq_refl hm)
    exact ⟨x, hx, hxx.left⟩
  proper_transfer he hm hn := hm.transfer (Signs.evaluable_of_valid hg.valid ht he) hn
  transfer_mono he hm hn hle hx hy := by
    obtain ⟨x, y, hx', hy', hxy⟩ := Signs.transfer_mono (Signs.evaluable_of_valid hg.valid ht he)
      ⟨hm, hn, hle⟩
    cases hx.symm.trans hx'
    cases hy.symm.trans hy'
    exact hxy.included
  rank_pos m := by
    unfold Signs.rank
    split <;> omega
  rank_le _ := Signs.rank_le _ _
  rank_lt := Signs.Proper.rank_lt
  top_le := by
    simp only [signDetection]
    omega

end MicroFlow
