import MicroFlow.Flow.ReachingDefinitions
import MicroFlow.Proofs.BitSet
import MicroFlow.Proofs.Flow.Domain
import MicroFlow.Proofs.Flow.Variables

/-!
# The domain of reaching definitions

Behind an edge the sites of a variable are those before it, unless the action overwrites
the variable, and the edge itself if its action defines the variable
(`Definitions.transfer_eq_ok`).  From this all laws of the domain follow
(`reachingDefinitionsDomain`).
-/

namespace MicroFlow

variable {e : Edge}

namespace Definitions

/-- The mapping has an entry for every variable. -/
def Shaped (vars : Variables) (m : Definitions) : Prop := m.length = vars.length

theorem setAt_eq_entry (m : Definitions) (i : Nat) : m.setAt i = Pointwise.entry .empty m i := rfl

variable {m n : Definitions} {vars : Variables} {site : Nat}

theorem setAt_merge (h : m.length = n.length) (i : Nat) :
    (merge m n).setAt i = (m.setAt i).union (n.setAt i) :=
  Pointwise.entry_zipWith h (BitSet.ext (by simp)) i

/-- Inclusion of mappings, site by site. -/
theorem included_iff (h : m.length = n.length) :
    included m n = true ↔ ∀ i s, (m.setAt i).has s = true → (n.setAt i).has s = true := by
  unfold included
  rw [Pointwise.all_zipWith_iff h (BitSet.subset_refl BitSet.empty)]
  exact forall_congr' fun i => BitSet.subset_iff

theorem siteOf_natCast (i : Nat) : siteOf (i : Int) = .ok (i + 1) := by
  rw [siteOf, if_neg (by omega)]
  congr 1

/-- The sites of a variable behind an edge. -/
theorem transfer_eq_ok (h : e.action.Declared vars)
    (hid : e.id = site) (m : Definitions) (hm : m.Shaped vars) :
    ∃ n, transfer vars m e = .ok n ∧ n.Shaped vars ∧ ∀ i s, (n.setAt i).has s = true ↔
      (m.setAt i).has s = true ∧ ¬ e.action.Overwrites vars i ∨
        e.action.Defines vars i ∧ s = site + 1 := by
  unfold transfer
  split
  · rename_i hnone
    refine ⟨m, rfl, hm, fun i s => ?_⟩
    constructor
    · intro hs
      refine .inl ⟨hs, ?_⟩
      rintro ⟨x, hx, -⟩
      rw [hnone] at hx
      cases hx
    · rintro (⟨hs, -⟩ | ⟨⟨target, htarget, -⟩, -⟩)
      · exact hs
      · rw [hnone] at htarget
        cases htarget
  · rename_i target htarget
    obtain ⟨j, hj⟩ := h.target htarget
    have hlt : j < m.length := by
      have := Variables.lt_of_of_eq_some hj
      rw [hm]
      exact this
    rw [hj, hid, siteOf_natCast]
    refine ⟨_, rfl, by simpa [Shaped] using hm, fun i s => ?_⟩
    rw [Action.defines_iff htarget hj, Action.overwrites_iff htarget hj, setAt_eq_entry,
      Pointwise.entry_modify, ← setAt_eq_entry]
    by_cases hij : j = i
    · subst hij
      rw [if_pos ⟨rfl, hlt⟩, BitSet.has_insert, Bool.or_eq_true, decide_eq_true_eq]
      -- a scalar is replaced, and the sites of an array or a record are added to
      by_cases hkind : target.kind = .scalar
      · simp only [hkind, if_true, BitSet.has_empty, Bool.false_eq_true, or_false, and_self,
          not_true, and_false, false_or, true_and]
        exact eq_comm
      · simp only [hkind, if_false]
        constructor
        · rintro (rfl | hs)
          · exact .inr ⟨trivial, rfl⟩
          · exact .inl ⟨hs, by simp⟩
        · rintro (⟨hs, -⟩ | ⟨-, rfl⟩)
          · exact .inr hs
          · exact .inl rfl
    · rw [if_neg fun hand => hij hand.1]
      simp [Ne.symm hij]

/-- An action takes away what it overwrites and adds its own site. -/
theorem has_transfer (h : e.action.Declared vars)
    (hid : e.id = site) (hm : m.Shaped vars) (hn : transfer vars m e = .ok n) :
    n.Shaped vars ∧ ∀ i s, (n.setAt i).has s = true ↔
      (m.setAt i).has s = true ∧ ¬ e.action.Overwrites vars i ∨
        e.action.Defines vars i ∧ s = site + 1 := by
  obtain ⟨n', hn', hspec⟩ := transfer_eq_ok h hid m hm
  rw [hn] at hn'
  cases hn'
  exact hspec

/-- With more sites before an edge there are more behind it. -/
theorem transfer_included (h : e.action.Declared vars)
    (hid : e.id = site) {m' n' : Definitions} (hm : m.Shaped vars) (hn : n.Shaped vars)
    (hle : included m n = true) (hm' : transfer vars m e = .ok m')
    (hn' : transfer vars n e = .ok n') : included m' n' = true := by
  obtain ⟨hshaped, hspec⟩ := has_transfer h hid hm hm'
  obtain ⟨hshaped', hspec'⟩ := has_transfer h hid hn hn'
  refine (included_iff (hshaped.trans hshaped'.symm)).mpr fun i s hs => ?_
  rw [hspec']
  rcases (hspec i s).mp hs with ⟨hs, hkeep⟩ | hdef
  · exact .inl ⟨(included_iff (hm.trans hn.symm)).mp hle i s hs, hkeep⟩
  · exact .inr hdef

theorem Shaped.merge {vars : Variables} {m n : Definitions} (hm : m.Shaped vars)
    (hn : n.Shaped vars) : (m.merge n).Shaped vars := by
  have hm' : m.length = vars.length := hm
  have hn' : n.length = vars.length := hn
  simp [Shaped, Definitions.merge, hm', hn']

/-- Merging gives least upper bounds. -/
theorem leastBounds (vars : Variables) : LeastBounds (Shaped vars) included merge where
  refl _ := (included_iff rfl).mpr fun _ _ hs => hs
  trans hl hm hn hlm hmn := by
    refine (included_iff (hl.trans hn.symm)).mpr fun i s hs => ?_
    exact (included_iff (hm.trans hn.symm)).mp hmn i s
      ((included_iff (hl.trans hm.symm)).mp hlm i s hs)
  left hm hn := by
    refine (included_iff (hm.trans (hm.merge hn).symm)).mpr fun i s hs => ?_
    simp [setAt_merge (hm.trans hn.symm), hs]
  right hm hn := by
    refine (included_iff (hn.trans (hm.merge hn).symm)).mpr fun i s hs => ?_
    simp [setAt_merge (hm.trans hn.symm), hs]
  least hl hm hn hln hmn := by
    refine (included_iff ((hl.merge hm).trans hn.symm)).mpr fun i s hs => ?_
    simp only [setAt_merge (hl.trans hm.symm), BitSet.has_union, Bool.or_eq_true] at hs
    rcases hs with hs | hs
    · exact (included_iff (hl.trans hn.symm)).mp hln i s hs
    · exact (included_iff (hm.trans hn.symm)).mp hmn i s hs
  antisymm {m n} hm hn hmn hnm := by
    have hlen : m.length = n.length := hm.trans hn.symm
    refine Pointwise.ext_entry (d := .empty) hlen fun i => ?_
    exact BitSet.subset_antisymm (BitSet.subset_iff.mpr ((included_iff hlen).mp hmn i))
      (BitSet.subset_iff.mpr ((included_iff hlen.symm).mp hnm i))
  closed := Shaped.merge

end Definitions

/-- An edge is numbered by its place. -/
theorem Graph.Valid.edge_at {g : Graph} (hg : g.Valid) (he : e ∈ g.edges) :
    ∃ i, i < g.edges.size ∧ g.edges[i]? = some e ∧ e.id = i := by
  obtain ⟨i, hi⟩ := Array.mem_iff_getElem?.mp he
  exact ⟨i, (Array.getElem?_eq_some_iff.mp hi).1, hi, hg.edge_id i e hi⟩

theorem Graph.Coherent.edge_id {g : Graph} (hg : g.Coherent) (he : e ∈ g.edges) :
    ∃ i, i < g.edges.size ∧ g.edges[i]? = some e ∧ e.id = i := hg.valid.edge_at he

open Definitions in
/-- Sets of sites for every variable, which grow with every site. -/
def reachingDefinitionsDomain {g : Graph} (hg : g.Coherent) : (reachingDefinitions g).Domain g where
  Shaped m := m.Shaped g.vars
  Proper m := m.Shaped g.vars ∧ ∀ i, (m.setAt i).Within (g.edges.size + 1)
  rank m := 1 + ∑ i ∈ Finset.range g.vars.length, (m.setAt i).card (g.edges.size + 1)
  top := 1 + g.vars.length * (g.edges.size + 1)
  shaped_of_proper h := h.1
  included_refl := (leastBounds g.vars).refl
  included_trans := (leastBounds g.vars).trans
  included_antisymm hm hn := (leastBounds g.vars).antisymm hm.1 hn.1
  included_merge_left := (leastBounds g.vars).left
  included_merge_right := (leastBounds g.vars).right
  merge_included := (leastBounds g.vars).least
  proper_initial := by
    refine ⟨by simp [reachingDefinitions, Shaped, initial], fun i s hs => ?_⟩
    simp only [reachingDefinitions, initial, setAt, List.getElem?_map] at hs
    cases hi : g.vars[i]? with
    | none => simp [hi] at hs
    | some d =>
      simp only [hi, Option.map_some, Option.getD_some, BitSet.has_single, entrySite,
        decide_eq_true_eq] at hs
      omega
  proper_merge {m n} hm hn := by
    refine ⟨hm.1.merge hn.1, fun i s hs => ?_⟩
    simp only [reachingDefinitions, setAt_merge (hm.1.trans hn.1.symm), BitSet.has_union,
      Bool.or_eq_true] at hs
    rcases hs with hs | hs
    · exact hm.2 i s hs
    · exact hn.2 i s hs
  exists_transfer {e m} he hm := by
    obtain ⟨site, -, -, hid⟩ := hg.edge_id he
    obtain ⟨n, hn, hshaped, -⟩ := Definitions.transfer_eq_ok (hg.declared he) hid m hm
    exact ⟨n, hn, hshaped⟩
  proper_transfer he hm hn := by
    obtain ⟨site, hsite, -, hid⟩ := hg.edge_id he
    obtain ⟨hshaped, hspec⟩ := Definitions.has_transfer (hg.declared he) hid hm.1 hn
    refine ⟨hshaped, fun i s hs => ?_⟩
    rcases (hspec i s).mp hs with ⟨hs, -⟩ | ⟨-, rfl⟩
    · exact hm.2 i s hs
    · omega
  transfer_mono he hm hn hle hm' hn' := by
    obtain ⟨site, -, -, hid⟩ := hg.edge_id he
    exact transfer_included (hg.declared he) hid hm hn hle hm' hn'
  rank_pos _ := by omega
  rank_le {m} _ := by
    have := Pointwise.sum_le (d := BitSet.empty) m (n := g.vars.length)
      (f := BitSet.card (g.edges.size + 1)) fun i => BitSet.card_le _ _
    exact Nat.add_le_add_left this 1
  rank_lt {m n} hm hn hle hne := by
    have hlen : m.length = n.length := hm.1.trans hn.1.symm
    have hsub : ∀ i, (m.setAt i).subset (n.setAt i) = true := fun i =>
      BitSet.subset_iff.mpr ((included_iff hlen).mp hle i)
    obtain ⟨i, hi⟩ : ∃ i, m.setAt i ≠ n.setAt i := by
      by_contra hall
      push Not at hall
      exact hne (Pointwise.ext_entry hlen hall)
    have hlt : i < g.vars.length := by
      by_contra hge
      have hm' : m.length ≤ i := by rw [hm.1]; omega
      have hn' : n.length ≤ i := by omega
      exact hi (by rw [setAt_eq_entry, setAt_eq_entry, Pointwise.entry_of_le hm',
        Pointwise.entry_of_le hn'])
    have := Pointwise.sum_lt (d := BitSet.empty) m n
      (f := BitSet.card (g.edges.size + 1)) (fun j => BitSet.card_mono (hsub j)) hlt
      (BitSet.card_lt_card (hsub i) (hn.2 i) hi)
    exact Nat.add_lt_add_left this 1
  top_le := Nat.le_refl _

end MicroFlow
