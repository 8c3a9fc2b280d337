import MicroFlow.Proofs.Flow.LiveVariables
import MicroFlow.Proofs.Flow.ReachingDefinitions
import MicroFlow.Proofs.Flow.SignDetection

/-!
# Monotone frameworks

What an analysis promises to the solvers, whichever of its mappings they hold:
`Analysis.MonotoneFramework`.  Its inclusion orders the mappings, its merge gives least upper
bounds, an undefined value is below every other, and a transfer along an edge succeeds and keeps
inclusions.

All three analyses keep the promise on a graph that passes validation and is well typed
(`analyses_are_monotone_frameworks`).  The mappings are those that have the size the graph asks for;
of sign states also `Signs.Consistent` is asked, since inclusion compares no slots of an unreachable
state.
-/

namespace MicroFlow

variable {M : Type}

/-- The promise of an analysis about the mappings of a graph. -/
structure Analysis.MonotoneFramework (a : Analysis M) (g : Graph) (Mapping : M → Prop) : Prop where
  mappings : LeastBounds Mapping a.included a.merge
  merge_comm : ∀ {m n : M}, Mapping m → Mapping n → a.merge m n = a.merge n m
  merge_assoc : ∀ {l m n : M}, Mapping l → Mapping m → Mapping n →
    a.merge (a.merge l m) n = a.merge l (a.merge m n)
  merge_self : ∀ {m : M}, Mapping m → a.merge m m = m
  values : LeastBounds (fun x : Option M => ∀ m ∈ x, Mapping m) a.leq a.join
  undefined_leq : ∀ x : Option M, a.leq none x = true
  undefined_join : ∀ x : Option M, a.join none x = x
  join_undefined : ∀ x : Option M, a.join x none = x
  transfer_mono : ∀ {e : Edge} {m n : M}, e ∈ g.edges → Mapping m → Mapping n →
    a.included m n = true → ∃ m' n', a.transfer m e = .ok m' ∧ a.transfer n e = .ok n' ∧
      a.included m' n' = true

/-- The laws of mappings give those of values. -/
theorem Analysis.MonotoneFramework.of_mappings {a : Analysis M} {g : Graph} {Mapping : M → Prop}
    (hmappings : LeastBounds Mapping a.included a.merge)
    (hmono : ∀ {e : Edge} {m n : M}, e ∈ g.edges → Mapping m → Mapping n →
      a.included m n = true → ∃ m' n', a.transfer m e = .ok m' ∧ a.transfer n e = .ok n' ∧
        a.included m' n' = true) : a.MonotoneFramework g Mapping where
  mappings := hmappings
  merge_comm := hmappings.comm
  merge_assoc := hmappings.assoc
  merge_self := hmappings.self
  values := hmappings.lift
  undefined_leq := leq_none a
  undefined_join := join_none_left a
  join_undefined := join_none_right a
  transfer_mono := hmono

section

variable {g : Graph}

/-- Reaching definitions, on the mappings with a set for each variable. -/
theorem reachingDefinitions_framework (hg : g.Valid) :
    (reachingDefinitions g).MonotoneFramework g (Definitions.Shaped g.vars) := by
  refine .of_mappings (Definitions.leastBounds g.vars) fun {e m n} he hm hn hle => ?_
  have hdeclared : e.action.Declared g.vars := hg.declared e he
  obtain ⟨site, -, -, hid⟩ := hg.edge_at he
  obtain ⟨m', hm', -⟩ := Definitions.transfer_eq_ok hdeclared hid m hm
  obtain ⟨n', hn', -⟩ := Definitions.transfer_eq_ok hdeclared hid n hn
  exact ⟨m', n', hm', hn', Definitions.transfer_included hdeclared hid hm hn hle hm' hn'⟩

/-- Live variables, on all sets. -/
theorem liveVariables_framework (hg : g.Valid) :
    (liveVariables g).MonotoneFramework g fun _ => True := by
  refine .of_mappings BitSet.leastBounds fun {e m n} he _ _ hle => ?_
  have hdeclared : e.action.Declared g.vars := hg.declared e he
  obtain ⟨m', hm', -⟩ := LiveSet.transfer_eq_ok hdeclared m
  obtain ⟨n', hn', -⟩ := LiveSet.transfer_eq_ok hdeclared n
  exact ⟨m', n', hm', hn', LiveSet.transfer_subset hdeclared hle hm' hn'⟩

/-- Signs, on the consistent states. -/
theorem signDetection_framework (hg : g.Valid) (ht : g.WellTyped) :
    (signDetection g).MonotoneFramework g (Signs.Consistent g.vars) := by
  refine .of_mappings (Signs.leastBounds g.vars) fun {e m n} he hm hn hle => ?_
  obtain ⟨m', n', hm', hn', hleq⟩ :=
    Signs.transfer_mono (Signs.evaluable_of_valid hg ht he) ⟨hm.shaped, hn.shaped, hle⟩
  exact ⟨m', n', hm', hn', hleq.included⟩

/-- On a valid and well-typed graph every analysis is a monotone framework. -/
theorem analyses_are_monotone_frameworks (hv : g.validate = .ok ()) (ht : g.WellTyped) :
    (reachingDefinitions g).MonotoneFramework g (Definitions.Shaped g.vars) ∧
      (liveVariables g).MonotoneFramework g (fun _ => True) ∧
      (signDetection g).MonotoneFramework g (Signs.Consistent g.vars) :=
  have hg := Graph.valid_of_validate hv
  ⟨reachingDefinitions_framework hg, liveVariables_framework hg, signDetection_framework hg ht⟩

end

/-! ## A guard with connectives -/

/-- Goes on when `x > 0 & not (y == x)`. -/
def sluiceGate : Edge :=
  ⟨0, .listed 0, .listed 1, .branch (.node .and
    (.node (.rel .gt) (.scalar "x") (.literal 0))
    (.node .not .missing (.node (.rel .eq) (.scalar "y") (.scalar "x"))))⟩

/-- One guard between the entry and the exit. -/
def sluice : Graph where
  nodes := #[some { id := 0, out := [0] }, some { id := 1, terminal := true, into := [0] }]
  edges := #[sluiceGate]
  vars := [⟨"x", .scalar, 0⟩, ⟨"y", .scalar, 0⟩]
  exit := .listed 1

/-- A state with the signs of `x`, where `y` is zero or has no value. -/
def sluiceState (x : SignSet) : Signs := ⟨[x, { zero := true, undef := true }], false⟩

/-- Nothing gets through the guard of `sluice` when `x` is zero.  When `x` can be positive as well,
it is behind the guard, where `y` has a value. -/
theorem analyses_are_monotone_frameworks_sluice :
    sluice.validate = .ok () ∧ sluice.WellTyped ∧ ∃ m n m' n' : Signs,
      m.Consistent sluice.vars ∧ n.Consistent sluice.vars ∧
      (signDetection sluice).included m n = true ∧
      (signDetection sluice).transfer m sluiceGate = .ok m' ∧
      (signDetection sluice).transfer n sluiceGate = .ok n' ∧
      (signDetection sluice).included m' n' = true ∧ m'.unreachable = true ∧
      n'.slots = [.single .plus, .single .zero] := by
  have hv : sluice.validate = .ok () := by decide +kernel
  have ht : sluice.WellTyped := by decide +kernel
  have hm : (sluiceState { zero := true }).Consistent sluice.vars :=
    ⟨rfl, fun hun => (by cases hun), by decide⟩
  have hn : (sluiceState { zero := true, plus := true }).Consistent sluice.vars :=
    ⟨rfl, fun hun => (by cases hun), by decide⟩
  have hle : (signDetection sluice).included (sluiceState { zero := true })
    (sluiceState { zero := true, plus := true }) = true := by decide
  obtain ⟨-, -, hsigns⟩ := analyses_are_monotone_frameworks hv ht
  obtain ⟨m', n', hm', hn', hle'⟩ := hsigns.transfer_mono (e := sluiceGate) (by simp [sluice]) hm hn
    hle
  have hbehind : (signDetection sluice).transfer (sluiceState { zero := true }) sluiceGate =
      .ok ⟨[.empty, .empty], true⟩ := by decide +kernel
  have hbehind' : (signDetection sluice).transfer (sluiceState { zero := true, plus := true })
      sluiceGate = .ok ⟨[.single .plus, .single .zero], false⟩ := by decide +kernel
  cases hm'.symm.trans hbehind
  cases hn'.symm.trans hbehind'
  exact ⟨hv, ht, _, _, _, _, hm, hn, hle, hbehind, hbehind', hle', rfl, rfl⟩

end MicroFlow
