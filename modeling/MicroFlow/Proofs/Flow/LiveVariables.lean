import MicroFlow.Flow.LiveVariables
import MicroFlow.Proofs.BitSet
import MicroFlow.Proofs.Flow.Domain
import MicroFlow.Proofs.Flow.Variables

/-!
# The domain of live variables

Before an edge a variable is live when the action reads it, or when it is live behind the
edge and not overwritten (`LiveSet.transfer_eq_ok`).  From this all laws of the domain
follow (`liveVariablesDomain`).
-/

namespace MicroFlow

namespace LiveSet

variable {vars : Variables} {e : Edge}

theorem indexOf_eq_ok {a : Access} {i : Nat} (h : vars.of a = some i) : indexOf vars a = .ok i := by
  rw [indexOf, h]

/-- Marking the variables of declared accesses as live. -/
theorem foldlM_uses {uses : List Access} : ∀ (s : LiveSet),
    (∀ use ∈ uses, ∃ i, vars.of use = some i) →
    ∃ t, uses.foldlM (fun s use => do return s.insert (← indexOf vars use)) s = .ok t ∧
      ∀ i, t.has i = true ↔ s.has i = true ∨ ∃ use ∈ uses, vars.of use = some i := by
  induction uses with
  | nil =>
    intro s _
    exact ⟨s, rfl, by simp⟩
  | cons use rest ih =>
    intro s hdeclared
    obtain ⟨j, hj⟩ := hdeclared use (List.mem_cons_self ..)
    obtain ⟨t, ht, hspec⟩ := ih (s.insert j) fun u hu => hdeclared u (List.mem_cons_of_mem _ hu)
    refine ⟨t, ?_, fun i => ?_⟩
    · rw [List.foldlM_cons, indexOf_eq_ok hj]
      exact ht
    · rw [hspec, BitSet.has_insert, Bool.or_eq_true, decide_eq_true_eq]
      constructor
      · rintro ((rfl | hs) | ⟨u, hu, hi⟩)
        · exact .inr ⟨use, List.mem_cons_self .., hj⟩
        · exact .inl hs
        · exact .inr ⟨u, List.mem_cons_of_mem _ hu, hi⟩
      · rintro (hs | ⟨u, hu, hi⟩)
        · exact .inl (.inr hs)
        · rcases List.mem_cons.mp hu with rfl | hu
          · rw [hj] at hi
            cases hi
            exact .inl (.inl rfl)
          · exact .inr ⟨u, hu, hi⟩

/-- An action kills the scalar that it overwrites, and nothing else. -/
theorem kill_eq_ok {a : Action} (h : a.Declared vars) (m : LiveSet) :
    ∃ t, kill vars a.defines m = .ok t ∧
      ∀ i, t.has i = true ↔ m.has i = true ∧ ¬ a.Overwrites vars i := by
  unfold kill
  split
  · rename_i x hx
    obtain ⟨j, hj⟩ := h.target hx
    refine ⟨m.erase j, by rw [indexOf_eq_ok hj]; rfl, fun i => ?_⟩
    rw [BitSet.has_erase, Bool.and_eq_true, decide_eq_true_eq]
    refine and_congr_right fun _ => ?_
    rw [Action.overwrites_iff hx hj]
    simp [Access.kind, eq_comm]
  · rename_i hne
    refine ⟨m, rfl, fun i => ?_⟩
    constructor
    · intro hm
      refine ⟨hm, ?_⟩
      rintro ⟨x, hx, -⟩
      exact hne x hx
    · exact And.left

/-- Before an action is live what it uses, and what is live behind it and not overwritten. -/
theorem transfer_eq_ok (h : e.action.Declared vars) (m : LiveSet) :
    ∃ t, transfer vars m e = .ok t ∧ ∀ i, t.has i = true ↔
      (m.has i = true ∧ ¬ e.action.Overwrites vars i) ∨ e.action.Uses vars i := by
  obtain ⟨kept, hkept, hkeep⟩ := kill_eq_ok h m
  obtain ⟨t, ht, hspec⟩ := foldlM_uses kept fun use hu => h.use hu
  refine ⟨t, ?_, fun i => ?_⟩
  · rw [transfer, hkept]
    exact ht
  · rw [hspec, hkeep]
    rfl

/-- Before an action live what it uses, and what it does not overwrite. -/
theorem has_transfer (h : e.action.Declared vars) {m t : LiveSet}
    (ht : transfer vars m e = .ok t) (i : Nat) : t.has i = true ↔
      (m.has i = true ∧ ¬ e.action.Overwrites vars i) ∨ e.action.Uses vars i := by
  obtain ⟨t', ht', hspec⟩ := transfer_eq_ok h m
  rw [ht] at ht'
  cases ht'
  exact hspec i

/-- Transfer keeps inclusions. -/
theorem transfer_subset (h : e.action.Declared vars)
    {m n m' n' : LiveSet} (hle : m.subset n = true) (hm : transfer vars m e = .ok m')
    (hn : transfer vars n e = .ok n') : m'.subset n' = true := by
  refine BitSet.subset_iff.mpr fun i hi => ?_
  rw [has_transfer h hn]
  rcases (has_transfer h hm i).mp hi with ⟨hmem, hkeep⟩ | huse
  · exact .inl ⟨BitSet.subset_iff.mp hle i hmem, hkeep⟩
  · exact .inr huse

end LiveSet

/-- Unions are least upper bounds. -/
theorem BitSet.leastBounds : LeastBounds (fun _ => True) subset union where
  refl _ := subset_refl _
  trans _ _ _ := subset_trans
  left _ _ := subset_iff.mpr fun i hi => by simp [hi]
  right _ _ := subset_iff.mpr fun i hi => by simp [hi]
  least _ _ _ hl hm := by
    refine subset_iff.mpr fun i hi => ?_
    rw [has_union, Bool.or_eq_true] at hi
    rcases hi with hi | hi
    · exact subset_iff.mp hl i hi
    · exact subset_iff.mp hm i hi
  antisymm _ _ := subset_antisymm
  closed _ _ := trivial

/-- Sets of variables, which grow with every variable. -/
def liveVariablesDomain {g : Graph} (hg : g.Coherent) : (liveVariables g).Domain g where
  Shaped _ := True
  Proper m := m.Within g.vars.length
  rank m := 1 + m.card g.vars.length
  top := 1 + g.vars.length
  shaped_of_proper _ := trivial
  included_refl := BitSet.leastBounds.refl
  included_trans := BitSet.leastBounds.trans
  included_antisymm _ _ := BitSet.leastBounds.antisymm trivial trivial
  included_merge_left := BitSet.leastBounds.left
  included_merge_right := BitSet.leastBounds.right
  merge_included := BitSet.leastBounds.least
  proper_initial := by
    intro i hi
    simp [liveVariables] at hi
  proper_merge hm hn := by
    intro i hi
    simp only [liveVariables, BitSet.has_union, Bool.or_eq_true] at hi
    rcases hi with hi | hi
    · exact hm i hi
    · exact hn i hi
  exists_transfer he _ := by
    obtain ⟨t, ht, -⟩ := LiveSet.transfer_eq_ok (hg.declared he) _
    exact ⟨t, ht, trivial⟩
  proper_transfer he hm ht := by
    intro i hi
    rcases (LiveSet.has_transfer (hg.declared he) ht i).mp hi with ⟨hmem, -⟩ | ⟨use, -, huse⟩
    · exact hm i hmem
    · exact Variables.lt_of_of_eq_some huse
  transfer_mono he _ _ hle hm hn := LiveSet.transfer_subset (hg.declared he) hle hm hn
  rank_pos _ := by omega
  rank_le _ := by
    have := BitSet.card_le g.vars.length
    simp only [Nat.add_le_add_iff_left]
    exact this _
  rank_lt _ hn hle hne := by
    have := BitSet.card_lt_card hle hn hne
    omega
  top_le := Nat.le_refl _

end MicroFlow
