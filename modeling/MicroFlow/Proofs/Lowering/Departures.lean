import MicroFlow.Proofs.Lowering.Nesting

/-!
# Departures

What leaves a point of a program, and where the arrows of a program lie.
All of this holds of any flow, since the parts of a flow leave different points.
-/

namespace MicroFlow

/-- The arrows that leave a point: one that is no guard, or the two guards of a condition. -/
inductive Departures (n : Nat) : List Arrow → Prop
  | single {target : Nat} {a : Action} (not_guard : a.kind ≠ .boolean) :
      Departures n [⟨n, target, a⟩]
  | branch {first second : Nat} {c : Expr} :
      Departures n [⟨n, first, .branch c⟩, ⟨n, second, .branch c.negation⟩]

/-- The arrows that leave a point, in order. -/
def Arrow.leaving (n : Nat) (arrows : List Arrow) : List Arrow := arrows.filter (·.source == n)

namespace Arrow

@[simp] theorem leaving_nil (n : Nat) : leaving n [] = [] := rfl

/-- Departures are listed part by part. -/
@[simp] theorem leaving_append (n : Nat) (as bs : List Arrow) :
    leaving n (as ++ bs) = leaving n as ++ leaving n bs := by
  simp [leaving]

@[simp] theorem leaving_cons_self (n t : Nat) (a : Action) (as : List Arrow) :
    leaving n (⟨n, t, a⟩ :: as) = ⟨n, t, a⟩ :: leaving n as := by
  simp [leaving]

/-- An arrow from another point does not count. -/
theorem leaving_cons_of_ne {n m : Nat} (h : m ≠ n) (t : Nat) (a : Action) (as : List Arrow) :
    leaving n (⟨m, t, a⟩ :: as) = leaving n as := by
  simp [leaving, h]

end Arrow

/-- Two arrows that leave one point are the two guards of a condition, in order. -/
theorem Departures.pair {n i j : Nat} {arrows : List Arrow} {a b : Arrow}
    (h : Departures n (Arrow.leaving n arrows)) (hij : i < j) (ha : arrows[i]? = some a)
    (hb : arrows[j]? = some b) (hsa : a.source = n) (hsb : b.source = n) :
    ∃ t u c, a = ⟨n, t, .branch c⟩ ∧ b = ⟨n, u, .branch c.negation⟩ := by
  -- the two stand among the departures in this order
  have hsub : [a, b].Sublist (Arrow.leaving n arrows) := by
    have htake : (arrows.take j)[i]? = some a := by rw [List.getElem?_take_of_lt hij, ha]
    have hdrop : (arrows.drop j)[0]? = some b := by simpa using hb
    have hboth := (List.singleton_sublist.mpr (List.mem_of_getElem? htake)).append
      (List.singleton_sublist.mpr (List.mem_of_getElem? hdrop))
    rw [List.take_append_drop] at hboth
    have := hboth.filter (·.source == n)
    simpa [Arrow.leaving, hsa, hsb] using this
  generalize Arrow.leaving n arrows = departing at h hsub
  cases h with
  | single => simpa using hsub.length_le
  | branch =>
    have heq := hsub.eq_of_length rfl
    simp only [List.cons.injEq, and_true] at heq
    exact ⟨_, _, _, heq.1, heq.2⟩

namespace Source

variable {enter : Option Origin} {p : Program} {T : Traced} {s f n m q : Nat}

/-- Points of departure are the sources of arrows. -/
theorem Traced.departs_iff : T.Departs n ↔ ∃ a ∈ T.arrows, a.source = n := by
  simp only [Traced.Departs, Traced.arrows, List.mem_map]
  constructor
  · rintro ⟨x, hx, hs⟩
    exact ⟨x.2, ⟨x, hx, rfl⟩, hs⟩
  · rintro ⟨_, ⟨x, hx, rfl⟩, hs⟩
    exact ⟨x, hx, hs⟩

theorem Traced.source_ne (h : ¬ T.Departs n) : ∀ a ∈ T.arrows, a.source ≠ n :=
  fun a ha hs => h (departs_iff.mpr ⟨a, ha, hs⟩)

/-- From a point where a flow does not depart, none of its arrows leaves. -/
theorem Traced.leaving_eq_nil (h : ¬ T.Departs n) : Arrow.leaving n T.arrows = [] := by
  rw [Arrow.leaving, List.filter_eq_nil_iff]
  exact fun a ha hs => source_ne h a ha (beq_iff_eq.mp hs)

/-- Two guards around a flow that does not leave their point. -/
theorem departures_enclosed {o o' : Origin} {c : Expr} (fresh : ¬ T.Departs s)
    (ih : T.Departs q → Departures q (Arrow.leaving q T.arrows)) {U : Traced}
    (hU : U = (o, ⟨s, n, .branch c⟩) :: T ++ [(o', ⟨s, m, .branch c.negation⟩)])
    (hq : U.Departs q) : Departures q (Arrow.leaving q U.arrows) := by
  have harrows : U.arrows = ⟨s, n, .branch c⟩ :: (T.arrows ++ [⟨s, m, .branch c.negation⟩]) := by
    simp [hU, Traced.arrows]
  rw [harrows]
  rw [hU, Traced.departs_enclosed] at hq
  -- the guards leave their own point, and any other point belongs to the body
  by_cases hs : s = q
  · subst hs
    simp only [Arrow.leaving_cons_self, Arrow.leaving_append, Traced.leaving_eq_nil fresh,
      Arrow.leaving_nil, List.nil_append]
    exact .branch
  · have hbody := (hq.resolve_left hs).resolve_right hs
    simpa [Arrow.leaving_cons_of_ne hs] using ih hbody

/-- From a point of a flow there leaves one arrow that is no guard, or the two guards of a
condition. -/
theorem Flow.departures (h : Flow enter p T s f) :
    ∀ q, T.Departs q → Departures q (Arrow.leaving q T.arrows) := by
  induction h with
  | plain does _ =>
    intro q hq
    obtain rfl := (Traced.departs_cons.mp hq).resolve_right Traced.not_departs_nil
    simpa [Traced.arrows] using Departures.single (Item.not_guard does)
  | ifThen _ _ fresh _ ih =>
    intro q hq
    exact departures_enclosed fresh (ih q) rfl hq
  | @ifElse α pos cond block block' T U s n m f _ body other fresh apart _ ih ih' =>
    intro q hq
    simp only [Traced.departs_cons, Traced.departs_append] at hq
    have harrows : Traced.arrows ((⟨α, some true⟩, ⟨s, n, .branch cond.lower⟩) ::
        (⟨α, some false⟩, ⟨s, m, .branch cond.lower.negation⟩) :: (T ++ U)) =
        ⟨s, n, .branch cond.lower⟩ :: ⟨s, m, .branch cond.lower.negation⟩ ::
          (T.arrows ++ U.arrows) := by
      simp [Traced.arrows]
    rw [harrows]
    by_cases hs : s = q
    · subst hs
      simp only [Arrow.leaving_cons_self, Arrow.leaving_append, Traced.leaving_eq_nil fresh.1,
        Traced.leaving_eq_nil fresh.2, List.append_nil]
      exact .branch
    · rw [Arrow.leaving_cons_of_ne hs, Arrow.leaving_cons_of_ne hs, Arrow.leaving_append]
      -- the point belongs to one of the blocks and not to the other
      rcases (hq.resolve_left hs).resolve_left hs with hT | hU
      · rw [Traced.leaving_eq_nil (apart q hT), List.append_nil]
        exact ih q hT
      · rw [Traced.leaving_eq_nil fun hT => apart q hT hU, List.nil_append]
        exact ih' q hU
  | loop _ body _ _ ih =>
    intro q hq
    exact departures_enclosed body.finish (ih q) rfl hq
  | @seq _ _ _ T U _ _ _ _ _ apart _ ih ih' =>
    intro q hq
    rw [Traced.arrows, List.map_append, Arrow.leaving_append]
    rcases Traced.departs_append.mp hq with hT | hU
    · -- the point is left by one of the two parts only
      have hnil := Traced.leaving_eq_nil (apart q hT)
      rw [Traced.arrows] at hnil
      rw [hnil, List.append_nil]
      exact ih q hT
    · have hnil := Traced.leaving_eq_nil fun hT => apart q hT hU
      rw [Traced.arrows] at hnil
      rw [hnil, List.nil_append]
      exact ih' q hU

end Source

/-! ## One arrow between two points -/

/-- No arrow ends where it starts, and no two arrows have the same ends. -/
structure Arrow.Simple (arrows : List Arrow) : Prop where
  loopless : ∀ a ∈ arrows, a.source ≠ a.target
  distinct : arrows.Pairwise fun a b => a.source = b.source → a.target ≠ b.target

namespace Arrow.Simple

variable {as : List Arrow}

theorem nil : Simple [] := ⟨by simp, .nil⟩

/-- The order of the arrows does not matter. -/
theorem perm {bs : List Arrow} (h : Simple as) (hperm : as.Perm bs) : Simple bs := by
  refine ⟨fun a ha => h.loopless a (hperm.mem_iff.mpr ha), ?_⟩
  refine (hperm.pairwise_iff ?_).mp h.distinct
  intro a b hab hs
  exact (hab hs.symm).symm

/-- Arrows that leave different points can be put together. -/
theorem append {bs : List Arrow} (ha : Simple as) (hb : Simple bs)
    (hsources : ∀ a ∈ as, ∀ b ∈ bs, a.source ≠ b.source) : Simple (as ++ bs) := by
  refine ⟨fun a h => ?_, ?_⟩
  · rcases List.mem_append.mp h with h | h
    · exact ha.loopless a h
    · exact hb.loopless a h
  · rw [List.pairwise_append]
    refine ⟨ha.distinct, hb.distinct, ?_⟩
    intro a h b k hs
    exact absurd hs (hsources a h b k)

/-- Two more arrows from a point that no other arrow leaves, to different points. -/
theorem fork {p t u : Nat} {c d : Action} (h : Simple as)
    (hsources : ∀ a ∈ as, a.source ≠ p) (ht : p ≠ t) (hu : p ≠ u) (htu : t ≠ u) :
    Simple (⟨p, t, c⟩ :: ⟨p, u, d⟩ :: as) := by
  refine ⟨?_, ?_⟩
  · intro a ha
    simp only [List.mem_cons] at ha
    rcases ha with rfl | rfl | ha
    · exact ht
    · exact hu
    · exact h.loopless a ha
  · rw [List.pairwise_cons, List.pairwise_cons]
    refine ⟨?_, ?_, h.distinct⟩
    · intro a ha hs
      rcases List.mem_cons.mp ha with rfl | ha
      · exact htu
      · exact absurd hs.symm (hsources a ha)
    · intro a ha hs
      exact absurd hs.symm (hsources a ha)

end Arrow.Simple

namespace Source

open Arrow (Simple)

variable {enter : Option Origin} {p : Program} {T U : Traced} {s f n m : Nat}

/-- Flows that depart from different points. -/
theorem simple_append (hT : Simple T.arrows) (hU : Simple U.arrows)
    (apart : ∀ q, T.Departs q → ¬ U.Departs q) : Simple (T.arrows ++ U.arrows) :=
  hT.append hU fun a ha b hb hs =>
    apart a.source (Traced.departs_iff.mpr ⟨a, ha, rfl⟩) (Traced.departs_iff.mpr ⟨b, hb, hs.symm⟩)

/-- Guards around a flow, one in front of it and one behind. -/
theorem simple_enclosed {o o' : Origin} {c d : Action} (h : Simple T.arrows)
    (fresh : ¬ T.Departs s) (hn : s ≠ n) (hm : s ≠ m) (hnm : n ≠ m) :
    Simple (Traced.arrows ((o, ⟨s, n, c⟩) :: T ++ [(o', ⟨s, m, d⟩)])) := by
  -- the guard behind the flow can be moved to the front
  have hperm := List.perm_append_singleton (⟨s, m, d⟩ : Arrow) T.arrows
  have hfork := h.fork (c := c) (d := d) (Traced.source_ne fresh) hn hm hnm
  simpa [Traced.arrows] using hfork.perm (.cons _ hperm.symm)

/-- The arrows of a flow are simple: what a guard enters departs from where it leads to, and the
other guard leads elsewhere. -/
theorem Flow.simple (h : Flow enter p T s f) : Simple T.arrows := by
  induction h with
  | plain _ moves => exact ⟨by simpa [Traced.arrows] using moves, List.pairwise_singleton _ _⟩
  | ifThen _ body fresh moves ih =>
    exact simple_enclosed ih fresh (body.start.ne fresh) moves (body.start.ne body.finish).symm
  | @ifElse _ _ cond _ _ T U s _ _ _ _ body other fresh apart _ ih ih' =>
    have hsources : ∀ a ∈ T.arrows ++ U.arrows, a.source ≠ s := fun a ha =>
      (List.mem_append.mp ha).elim (Traced.source_ne fresh.1 a) (Traced.source_ne fresh.2 a)
    have hfork := (simple_append ih ih' apart).fork (c := .branch cond.lower)
      (d := .branch cond.lower.negation) hsources (body.start.ne fresh.1) (other.start.ne fresh.2)
      (other.start.ne (apart _ body.start))
    simpa [Traced.arrows] using hfork
  | loop _ body leaves moves ih =>
    have hn := body.start.ne body.finish
    exact simple_enclosed ih body.finish hn moves (body.start.ne leaves).symm
  | seq _ _ apart _ ih ih' =>
    rw [Traced.arrows, List.map_append]
    exact simple_append ih ih' apart

/-! ## The arrows of a program -/

variable (h : ∀ i ∈ p, i.Checked)
include h

/-- The points of a program that arrows leave are all but the last. -/
theorem lowerProgram_departs_iff : (∃ a ∈ (lowerProgram 0 1 p).arrows, a.source = n) ↔
    n < (lowerProgram 0 1 p).next ∧ n ≠ (lowerProgram 0 1 p).finish := by
  rcases lowerProgram_cases h with rfl | ⟨T, -, harrows, -, hdeparts⟩
  · simp only [lowerProgram, List.not_mem_nil, false_and, exists_false, false_iff]
    omega
  · rw [← harrows, ← Traced.departs_iff, hdeparts]

/-- No arrow leaves the end of a program. -/
theorem lowerProgram_source_ne {a : Arrow} (ha : a ∈ (lowerProgram 0 1 p).arrows) :
    a.source ≠ (lowerProgram 0 1 p).finish :=
  ((lowerProgram_departs_iff h).mp ⟨a, ha, rfl⟩).2

/-- Every arrow leads to a point of the program. -/
theorem lowerProgram_target_lt {a : Arrow} (ha : a ∈ (lowerProgram 0 1 p).arrows) :
    a.target < (lowerProgram 0 1 p).next := by
  rcases lowerProgram_cases h with rfl | ⟨T, -, harrows, hflow, hdeparts⟩
  · cases ha
  · rw [← harrows] at ha
    obtain ⟨x, hx, rfl⟩ := List.mem_map.mp ha
    rcases hflow.targets x hx with hfin | hgo
    · rw [hfin]
      exact lowerProgram_finish_lt h
    · exact ((hdeparts _).mp hgo).1

/-- From a point there leaves one arrow that is no guard, or two: a condition and its negation. -/
theorem lowerProgram_departures (hn : n < (lowerProgram 0 1 p).next)
    (hne : n ≠ (lowerProgram 0 1 p).finish) :
    Departures n (Arrow.leaving n (lowerProgram 0 1 p).arrows) := by
  rcases lowerProgram_cases h with rfl | ⟨T, -, harrows, hflow, hdeparts⟩
  · simp only [lowerProgram] at hn hne
    omega
  · rw [← harrows]
    exact hflow.departures n ((hdeparts n).mpr ⟨hn, hne⟩)

/-- No arrow ends where it starts, and no two arrows run side by side. -/
theorem lowerProgram_simple : Simple (lowerProgram 0 1 p).arrows := by
  rcases lowerProgram_cases h with rfl | ⟨T, -, harrows, hflow, -⟩
  · exact .nil
  · rw [← harrows]
    exact hflow.simple

end Source

end MicroFlow
