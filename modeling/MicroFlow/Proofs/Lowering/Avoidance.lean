import MicroFlow.Proofs.Lowering.Nesting

/-!
# Which guard decides whether a point is passed

A guard *controls* a point when behind the guard every way to the exit passes the point, and
before the guard some way avoids it.  In a structured flow that is so of one guard only: the one
that enters the innermost block in which the statement at the point stands (`Nests`).
-/

namespace MicroFlow.Source

/-- Some way along the arrows leads from a point to the exit and does not visit `x`. -/
inductive Avoids (arrows : List Arrow) (exit x : Nat) : Nat → Prop
  | done (ne : exit ≠ x) : Avoids arrows exit x exit
  | step {a : Arrow} (mem : a ∈ arrows) (ne : a.source ≠ x) (rest : Avoids arrows exit x a.target) :
      Avoids arrows exit x a.source

/-- Behind the guard the point is passed for certain, but not before it. -/
def Controls (arrows : List Arrow) (exit : Nat) (guard : Arrow) (x : Nat) : Prop :=
  Avoids arrows exit x guard.source ∧ ¬ Avoids arrows exit x guard.target

variable {A : List Arrow} {F : Nat} {enter : Option Origin} {is js : Program}
  {T U V : Traced} {s f x : Nat}

theorem Avoids.ne {p : Nat} (h : Avoids A F x p) : p ≠ x := by
  cases h with
  | done ne => exact ne
  | step _ ne _ => exact ne

theorem not_avoids_self : ¬ Avoids A F x x := fun h => h.ne rfl

/-! ## Passing through a flow -/

/-- The way past the block of a condition, and through the block when that can be passed. -/
theorem Avoids.block {o o' : Origin} {a b : Action} {n : Nat}
    (hsub : ∀ y ∈ ((o, ⟨s, n, a⟩) :: T ++ [(o', ⟨s, f, b⟩)] : Traced), y.2 ∈ A)
    (hx : ¬ Traced.Departs ((o, ⟨s, n, a⟩) :: T ++ [(o', ⟨s, f, b⟩)]) x) (hf : Avoids A F x f)
    (hbody : Avoids A F x s → ∀ p, T.Departs p → Avoids A F x p) :
    ∀ p, Traced.Departs ((o, ⟨s, n, a⟩) :: T ++ [(o', ⟨s, f, b⟩)]) p → Avoids A F x p := by
  rw [Traced.departs_enclosed, not_or] at hx
  have hhead : Avoids A F x s := .step (a := ⟨s, f, b⟩) (hsub (o', _) (by simp)) hx.1 hf
  intro p hp
  rcases Traced.departs_enclosed.mp hp with rfl | hp | rfl
  · exact hhead
  · exact hbody hhead p hp
  · exact hhead

/-- A way to the end of a flow exists from all its points, so a flow that does not hold a point can
be passed without it. -/
theorem Flow.through (h : Flow enter is T s f) (hsub : ∀ y ∈ T, y.2 ∈ A) (hx : ¬ T.Departs x)
    (hf : Avoids A F x f) : ∀ p, T.Departs p → Avoids A F x p := by
  induction h with
  | plain =>
    rintro _ ⟨y, hy, rfl⟩
    obtain rfl := List.mem_singleton.mp hy
    exact .step (hsub _ hy) (fun heq => hx ⟨_, hy, heq⟩) hf
  | ifThen _ _ _ _ ih =>
    refine Avoids.block hsub hx hf fun _ => ih (fun y hy => hsub y (by simp [hy])) ?_ hf
    exact fun h => hx (Traced.departs_enclosed.mpr (.inr (.inl h)))
  | @ifElse α _ cond _ _ T U s n m f _ body other _ _ _ ih ih' =>
    simp only [Traced.departs_cons, Traced.departs_append, not_or] at hx
    intro p hp
    simp only [Traced.departs_cons, Traced.departs_append] at hp
    have hbody := ih (fun y hy => hsub y (by simp [hy])) hx.2.2.1 hf
    have hhead : Avoids A F x s :=
      .step (a := ⟨s, n, .branch cond.lower⟩) (hsub (⟨α, some true⟩, _) (by simp)) hx.1
        (hbody n body.start)
    rcases hp with rfl | rfl | hp | hp
    · exact hhead
    · exact hhead
    · exact hbody p hp
    · exact ih' (fun y hy => hsub y (by simp [hy])) hx.2.2.2 hf p hp
  | loop _ _ _ _ ih =>
    -- the body leads back to the head, from where the loop is left
    refine Avoids.block hsub hx hf fun hhead => ih (fun y hy => hsub y (by simp [hy])) ?_ hhead
    exact fun h => hx (Traced.departs_enclosed.mpr (.inr (.inl h)))
  | @seq enter _ _ T U s m f first rest _ _ ih ih' =>
    rw [Traced.departs_append, not_or] at hx
    have hrest := ih' (fun y hy => hsub y (List.mem_append_right _ hy)) hx.2 hf
    intro p hp
    rcases Traced.departs_append.mp hp with hp | hp
    · exact ih (fun y hy => hsub y (List.mem_append_left _ hy)) hx.1 (hrest m rest.start) p hp
    · exact hrest p hp

/-- A flow as a part of a whole: nothing else departs from its points, and from its end there is
a way to the exit that does not come back to a given point. -/
structure Inset (A : List Arrow) (F : Nat) (T : Traced) (f : Nat) : Prop where
  sub : ∀ y ∈ T, y.2 ∈ A
  sole : ∀ a ∈ A, T.Departs a.source → ∃ y ∈ T, y.2 = a
  exit : ¬ T.Departs F
  detour : ∀ x, T.Departs x → Avoids A F x f

/-- A part of a flow is inset if what leaves its points is in it. -/
theorem Inset.part {f' : Nat} (h : Inset A F T f) (hsub : ∀ y ∈ U, y ∈ T)
    (hsole : ∀ y ∈ T, U.Departs y.2.source → y ∈ U)
    (hdetour : ∀ x, U.Departs x → Avoids A F x f') : Inset A F U f' := by
  have hdeparts : ∀ p, U.Departs p → T.Departs p := by
    rintro p ⟨y, hy, hp⟩
    exact ⟨y, hsub y hy, hp⟩
  refine ⟨fun y hy => h.sub y (hsub y hy), fun a ha hp => ?_, fun hF => h.exit (hdeparts F hF),
    hdetour⟩
  obtain ⟨y, hy, rfl⟩ := h.sole a ha (hdeparts _ hp)
  exact ⟨y, hsole y hy hp, rfl⟩

/-- Its end is the only way out, so what is avoided in a flow is avoided behind it. -/
theorem Flow.back (h : Flow enter is T s f) (hin : Inset A F T f) {p : Nat} (hav : Avoids A F x p)
    (hp : T.Departs p ∨ p = f) : Avoids A F x f := by
  induction hav with
  | done ne =>
    rcases hp with hp | rfl
    · exact absurd hp hin.exit
    · exact .done ne
  | @step a mem ne rest ih =>
    rcases hp with hp | hp
    · obtain ⟨y, hy, rfl⟩ := hin.sole a mem hp
      exact ih (h.targets y hy).symm
    · exact hp ▸ .step mem ne rest

/-- Guards of a flow control no point outside. -/
theorem Flow.not_controls (h : Flow enter is T s f) (hin : Inset A F T f) (hx : ¬ T.Departs x) :
    ∀ g ∈ T, ¬ Controls A F g.2 x := by
  rintro g hg ⟨hbefore, hbehind⟩
  have hf : Avoids A F x f := h.back hin hbefore (.inl ⟨g, hg, rfl⟩)
  apply hbehind
  rcases h.targets g hg with heq | hp
  · rw [heq]
    exact hf
  · exact h.through hin.sub hx hf _ hp

/-! ## Guards and nesting -/

/--
The points of a flow and the guards that control them.  A statement that is not nested in the
flow stands behind the guard `enter`, and its point cannot be avoided from the start; the point
of another one can be avoided, and the guard that enters its block controls it.  No other guard
of the flow controls it.
-/
structure Nests (A : List Arrow) (F : Nat) (enter : Option Origin) (T : Traced) (s : Nat) :
    Prop where
  located : ∀ y ∈ T,
    (y.1.stmt.entrance = enter ∧ ¬ Avoids A F y.2.source s) ∨
    (Avoids A F y.2.source s ∧ ∃ g ∈ T, y.1.stmt.entrance = some g.1 ∧
      g.2.action.kind = .boolean ∧ Controls A F g.2 y.2.source)
  guarded : ∀ y ∈ T, ∀ g ∈ T, g.2.action.kind = .boolean → Controls A F g.2 y.2.source →
    y.1.stmt.entrance = some g.1

/-- A block behind the guard `enter`, which leads from `s` to `t`, while the other guard leads
from `s` to `u`. -/
structure Branch (A : List Arrow) (F s t u : Nat) (enter : Origin) (T : Traced) : Prop where
  nests : Nests A F (some enter) T t
  skipped : ∀ x, T.Departs x → Avoids A F x s ∧ Avoids A F x u
  closed : ∀ x, ¬ T.Departs x → ∀ g ∈ T, ¬ Controls A F g.2 x
  fresh : ¬ T.Departs s

namespace Branch

variable {t u : Nat} {entrance : Origin}

theorem nil : Branch A F s t u entrance [] where
  nests := ⟨by simp, by simp⟩
  skipped _ h := absurd h Traced.not_departs_nil
  closed := by simp
  fresh := Traced.not_departs_nil

/-- The point of a statement in the block is controlled by the guard, or by one in the block. -/
theorem located (h : Branch A F s t u entrance T) {c : Expr} {y : Origin × Arrow} (hy : y ∈ T) :
    Avoids A F y.2.source s ∧ ∃ g, (g = (entrance, ⟨s, t, .branch c⟩) ∨ g ∈ T) ∧
      y.1.stmt.entrance = some g.1 ∧ g.2.action.kind = .boolean ∧ Controls A F g.2 y.2.source := by
  have hskip := (h.skipped y.2.source ⟨y, hy, rfl⟩).1
  refine ⟨hskip, ?_⟩
  rcases h.nests.located y hy with ⟨henter, hpassed⟩ | ⟨-, g, hg, hinner⟩
  · exact ⟨_, .inl rfl, henter, rfl, hskip, hpassed⟩
  · exact ⟨g, .inr hg, hinner⟩

theorem entrance_eq (h : Branch A F s t u entrance T) {y : Origin × Arrow} (hy : y ∈ T)
    (hpassed : ¬ Avoids A F y.2.source t) : y.1.stmt.entrance = some entrance := by
  rcases h.nests.located y hy with ⟨henter, -⟩ | ⟨havoids, -⟩
  · exact henter
  · exact absurd havoids hpassed

end Branch

/-- The two guards of a condition with the blocks behind them. -/
theorem Nests.fork {α : Address} {c : Expr} {n m : Nat}
    (hT : Branch A F s n m ⟨α, some true⟩ T) (hU : Branch A F s m n ⟨α, some false⟩ U)
    (apart : ∀ p, T.Departs p → ¬ U.Departs p)
    (hmem : ∀ y, y ∈ V ↔ y = (⟨α, some true⟩, ⟨s, n, .branch c⟩) ∨
      y = (⟨α, some false⟩, ⟨s, m, .branch c.negation⟩) ∨ y ∈ T ∨ y ∈ U) :
    Nests A F α.entrance V s := by
  -- no guard controls the head, which all ways through the fork pass first
  have hhead : ∀ g ∈ V, ¬ Controls A F g.2 s := by
    intro g hg
    rcases (hmem g).mp hg with rfl | rfl | hg | hg
    · exact fun h => not_avoids_self h.1
    · exact fun h => not_avoids_self h.1
    · exact hT.closed s hT.fresh g hg
    · exact hU.closed s hU.fresh g hg
  refine ⟨fun y hy => ?_, fun y hy g hg hkind hcontrols => ?_⟩
  · rcases (hmem y).mp hy with rfl | rfl | hy | hy
    · exact .inl ⟨rfl, not_avoids_self⟩
    · exact .inl ⟨rfl, not_avoids_self⟩
    · obtain ⟨hskip, g, hg, hrest⟩ := hT.located (c := c) hy
      exact .inr ⟨hskip, g, (hmem g).mpr (hg.imp_right fun h => .inr (.inl h)), hrest⟩
    · obtain ⟨hskip, g, hg, hrest⟩ := hU.located (c := c.negation) hy
      exact .inr ⟨hskip, g, (hmem g).mpr (.inr (hg.imp_right .inr)), hrest⟩
  · rcases (hmem y).mp hy with rfl | rfl | hy | hy
    · exact absurd hcontrols (hhead g hg)
    · exact absurd hcontrols (hhead g hg)
    · have hdeparts : T.Departs y.2.source := ⟨y, hy, rfl⟩
      rcases (hmem g).mp hg with rfl | rfl | hg | hg
      · exact hT.entrance_eq hy hcontrols.2
      · exact absurd (hT.skipped _ hdeparts).2 hcontrols.2
      · exact hT.nests.guarded y hy g hg hkind hcontrols
      · exact absurd hcontrols (hU.closed _ (apart _ hdeparts) g hg)
    · have hdeparts : U.Departs y.2.source := ⟨y, hy, rfl⟩
      rcases (hmem g).mp hg with rfl | rfl | hg | hg
      · exact absurd (hU.skipped _ hdeparts).2 hcontrols.2
      · exact hU.entrance_eq hy hcontrols.2
      · exact absurd hcontrols (hT.closed _ (fun h => apart _ h hdeparts) g hg)
      · exact hU.nests.guarded y hy g hg hkind hcontrols

/-- One flow after another. -/
theorem Nests.append {m : Nat} (hT : Nests A F enter T s) (hU : Nests A F enter U m)
    (hflow : Flow enter is T s m) (hflow' : Flow enter js U m f) (hin : Inset A F T m)
    (hin' : Inset A F U f) (apart : ∀ p, T.Departs p → ¬ U.Departs p) :
    Nests A F enter (T ++ U) s := by
  refine ⟨fun y hy => ?_, fun y hy g hg hkind hcontrols => ?_⟩
  · rcases List.mem_append.mp hy with hy | hy
    · refine (hT.located y hy).imp_right ?_
      rintro ⟨hskip, g, hg, hrest⟩
      exact ⟨hskip, g, List.mem_append_left _ hg, hrest⟩
    · -- from the start of the first flow every way leads through its end
      have hoff : ¬ T.Departs y.2.source := fun h => apart _ h ⟨y, hy, rfl⟩
      rcases hU.located y hy with ⟨henter, hpassed⟩ | ⟨hskip, g, hg, hrest⟩
      · exact .inl ⟨henter, fun h => hpassed (hflow.back hin h (.inl hflow.start))⟩
      · refine .inr ⟨hflow.through hin.sub hoff hskip s hflow.start, g, ?_, hrest⟩
        exact List.mem_append_right _ hg
  · rcases List.mem_append.mp hy with hy | hy
    · have hdeparts : T.Departs y.2.source := ⟨y, hy, rfl⟩
      rcases List.mem_append.mp hg with hg | hg
      · exact hT.guarded y hy g hg hkind hcontrols
      · exact absurd hcontrols (hflow'.not_controls hin' (apart _ hdeparts) g hg)
    · have hdeparts : U.Departs y.2.source := ⟨y, hy, rfl⟩
      rcases List.mem_append.mp hg with hg | hg
      · exact absurd hcontrols (hflow.not_controls hin (fun h => apart _ h hdeparts) g hg)
      · exact hU.guarded y hy g hg hkind hcontrols

/-- The guards of a condition with one block, which ends behind them or comes back to them. -/
theorem Nests.block {α : Address} {c : Expr} {n e : Nat}
    (body : Flow (some ⟨α, some true⟩) is T n e)
    (ih : Inset A F T e → Nests A F (some ⟨α, some true⟩) T n) (fresh : ¬ T.Departs s)
    (hend : e = f ∨ e = s)
    (hin : Inset A F ((⟨α, some true⟩, ⟨s, n, .branch c⟩) :: T ++
      [(⟨α, some false⟩, ⟨s, f, .branch c.negation⟩)]) f) :
    Nests A F α.entrance ((⟨α, some true⟩, ⟨s, n, .branch c⟩) :: T ++
      [(⟨α, some false⟩, ⟨s, f, .branch c.negation⟩)]) s := by
  -- the block can be left out
  have hskip : ∀ x, T.Departs x → Avoids A F x s ∧ Avoids A F x f := by
    intro x hx
    have hf : Avoids A F x f := hin.detour x (Traced.departs_enclosed.mpr (.inr (.inl hx)))
    refine ⟨.step (a := ⟨s, f, .branch c.negation⟩) ?_ (hx.ne fresh) hf, hf⟩
    exact hin.sub (⟨α, some false⟩, _) (by simp)
  have hbody : Inset A F T e := by
    refine hin.part (fun y hy => by simp [hy]) (fun y hy hp => ?_) fun x hx => ?_
    · simp only [List.cons_append, List.mem_cons, List.mem_append, List.not_mem_nil, or_false] at hy
      rcases hy with rfl | hy | rfl
      · exact absurd hp fresh
      · exact hy
      · exact absurd hp fresh
    · rcases hend with rfl | rfl
      · exact (hskip x hx).2
      · exact (hskip x hx).1
  refine Nests.fork (c := c) ⟨ih hbody, hskip, fun x hx => body.not_controls hbody hx, fresh⟩
    (.nil (t := f) (u := n)) (fun p _ => Traced.not_departs_nil) fun y => ?_
  simp only [List.cons_append, List.mem_cons, List.mem_append, List.not_mem_nil, or_false]
  rw [or_comm (a := y ∈ T)]

/-- By induction on the flow, the guards that control the points inside. -/
theorem Flow.nests (h : Flow enter is T s f) (hin : Inset A F T f) : Nests A F enter T s := by
  induction h with
  | plain does _ =>
    refine ⟨fun y hy => ?_, fun y _ g hg hkind => ?_⟩
    · obtain rfl := List.mem_singleton.mp hy
      exact .inl ⟨rfl, not_avoids_self⟩
    · obtain rfl := List.mem_singleton.mp hg
      exact absurd hkind (Item.not_guard does)
  | ifThen _ body fresh _ ih => exact Nests.block body ih fresh (.inl rfl) hin
  | loop _ body _ _ ih => exact Nests.block body ih body.finish (.inr rfl) hin
  | @ifElse α _ cond _ _ T U s n m f _ body other fresh apart _ ih ih' =>
    have hf : ∀ x, T.Departs x ∨ U.Departs x → Avoids A F x f := by
      intro x hx
      refine hin.detour x ?_
      simp only [Traced.departs_cons, Traced.departs_append]
      exact .inr (.inr hx)
    have hbody : Inset A F T f := by
      refine hin.part (fun y hy => by simp [hy]) (fun y hy hp => ?_) fun x hx => hf x (.inl hx)
      simp only [List.mem_cons, List.mem_append] at hy
      rcases hy with rfl | rfl | hy | hy
      · exact absurd hp fresh.1
      · exact absurd hp fresh.1
      · exact hy
      · exact absurd ⟨y, hy, rfl⟩ (apart _ hp)
    have hother : Inset A F U f := by
      refine hin.part (fun y hy => by simp [hy]) (fun y hy hp => ?_) fun x hx => hf x (.inr hx)
      simp only [List.mem_cons, List.mem_append] at hy
      rcases hy with rfl | rfl | hy | hy
      · exact absurd hp fresh.2
      · exact absurd hp fresh.2
      · exact absurd hp (apart _ ⟨y, hy, rfl⟩)
      · exact hy
    -- the other block leads around each of the two
    have hskip : ∀ x, T.Departs x → Avoids A F x s ∧ Avoids A F x m := by
      intro x hx
      have hm := other.through hother.sub (apart x hx) (hf x (.inl hx)) m other.start
      refine ⟨.step (a := ⟨s, m, .branch cond.lower.negation⟩) ?_ (hx.ne fresh.1) hm, hm⟩
      exact hin.sub (⟨α, some false⟩, _) (by simp)
    have hskip' : ∀ x, U.Departs x → Avoids A F x s ∧ Avoids A F x n := by
      intro x hx
      have hn := body.through hbody.sub (fun h => apart x h hx) (hf x (.inr hx)) n body.start
      refine ⟨.step (a := ⟨s, n, .branch cond.lower⟩) ?_ (hx.ne fresh.2) hn, hn⟩
      exact hin.sub (⟨α, some true⟩, _) (by simp)
    exact Nests.fork (c := cond.lower)
      ⟨ih hbody, hskip, fun x hx => body.not_controls hbody hx, fresh.1⟩
      ⟨ih' hother, hskip', fun x hx => other.not_controls hother hx, fresh.2⟩ apart
      fun y => by simp only [List.mem_cons, List.mem_append]
  | @seq enter _ _ T U s m f first rest apart _ ih ih' =>
    have hrest : Inset A F U f := by
      refine hin.part (fun y hy => List.mem_append_right _ hy) (fun y hy hp => ?_) fun x hx => ?_
      · exact (List.mem_append.mp hy).resolve_left fun hT => apart _ ⟨y, hT, rfl⟩ hp
      · exact hin.detour x (Traced.departs_append.mpr (.inr hx))
    have hfirst : Inset A F T m := by
      refine hin.part (fun y hy => List.mem_append_left _ hy) (fun y hy hp => ?_) fun x hx => ?_
      · exact (List.mem_append.mp hy).resolve_right fun hU => apart _ hp ⟨y, hU, rfl⟩
      · have hf := hin.detour x (Traced.departs_append.mpr (.inl hx))
        exact rest.through hrest.sub (apart x hx) hf m rest.start
    exact (ih hfirst).append (ih' hrest) first rest hfirst hrest apart

/-- A flow that is the whole: nothing departs from its end. -/
theorem Flow.inset (h : Flow enter is T s f) : Inset T.arrows f T f where
  sub _ hy := List.mem_map_of_mem hy
  sole _ ha _ := List.mem_map.mp ha
  exit := h.finish
  detour _ hx := .done fun heq => h.finish (heq ▸ hx)

end MicroFlow.Source
