import MicroFlow.Proofs.Lowering.Origin

/-!
# Layouts are structured

What a program is laid out to is a flow of arrows that is nested as its blocks are: single
arrows, one flow after another, and flows behind the guards of a condition.  `Flow` says this of
arrows and the items that they come from, without the numbers that points have.  A flow is entered
at its first point only, and left for its last point only; parts of a flow share no point of
departure.

What else is known of the arrows of a program is shown by induction on its flow.
-/

namespace MicroFlow.Source

/-- Arrows with their origins. -/
abbrev Traced := List (Origin × Arrow)

namespace Traced

/-- One of the arrows leaves the point. -/
def Departs (T : Traced) (p : Nat) : Prop := ∃ x ∈ T, x.2.source = p

/-- The arrows without their origins. -/
def arrows (T : Traced) : List Arrow := T.map Prod.snd

variable {T U : Traced} {p : Nat}

theorem departs_append : (T ++ U : Traced).Departs p ↔ T.Departs p ∨ U.Departs p := by
  simp [Departs, or_and_right, exists_or]

theorem departs_cons {o : Origin} {a : Arrow} :
    Departs ((o, a) :: T) p ↔ a.source = p ∨ T.Departs p := by
  simp [Departs]

theorem not_departs_nil : ¬ Departs [] p := by
  simp [Departs]

theorem departs_enclosed {x y : Origin × Arrow} :
    Departs (x :: T ++ [y]) p ↔ x.2.source = p ∨ T.Departs p ∨ y.2.source = p := by
  simp [Departs]

theorem Departs.ne {q : Nat} (h : T.Departs p) (hq : ¬ T.Departs q) : q ≠ p := by
  rintro rfl
  exact hq h

end Traced

/-- The statements of a block, as items. -/
def Block.items : Block → Program
  | .nil => []
  | .cons s b => .stmt s :: b.items

/-- The action of an item that is laid out as one arrow. -/
def Item.action? : Item → Option Action
  | .declare _ shape name length => some (.declare (declarationOf shape name length))
  | .stmt (.assign _ target value) => some (assignment target value)
  | .stmt (.read _ target) => some { kind := .read, target := target.map Place.lower }
  | .stmt (.write _ value) => some (.write value.lower)
  | _ => none

/-- Items with an action of their own are no guards. -/
theorem Item.not_guard {i : Item} {a : Action} (h : i.action? = some a) : a.kind ≠ .boolean := by
  unfold Item.action? at h
  split at h <;> cases h <;> exact ActionKind.noConfusion

/--
Structured arrows from one point to another, and the items that they come from.  The items that
are not nested in the flow itself stand in the block behind the guard `enter`.
-/
inductive Flow : Option Origin → Program → Traced → Nat → Nat → Prop
  | plain {o : Origin} {i : Item} {a : Action} {s f : Nat} (does : i.action? = some a)
      (moves : s ≠ f) : Flow o.stmt.entrance [i] [(o, ⟨s, f, a⟩)] s f
  | ifThen {α : Address} {pos : Pos} {cond : Cond} {block : Block} {T : Traced} {s n f : Nat}
      (checked : cond.Checked) (body : Flow (some ⟨α, some true⟩) block.items T n f)
      (fresh : ¬ T.Departs s) (moves : s ≠ f) :
      Flow α.entrance [.stmt (.ifThen pos cond block)]
        ((⟨α, some true⟩, ⟨s, n, .branch cond.lower⟩) :: T ++
          [(⟨α, some false⟩, ⟨s, f, .branch cond.lower.negation⟩)]) s f
  | ifElse {α : Address} {pos : Pos} {cond : Cond} {block block' : Block} {T U : Traced}
      {s n m f : Nat} (checked : cond.Checked)
      (body : Flow (some ⟨α, some true⟩) block.items T n f)
      (other : Flow (some ⟨α, some false⟩) block'.items U m f)
      (fresh : ¬ T.Departs s ∧ ¬ U.Departs s) (apart : ∀ p, T.Departs p → ¬ U.Departs p)
      (moves : s ≠ f) :
      Flow α.entrance [.stmt (.ifElse pos cond block block')]
        ((⟨α, some true⟩, ⟨s, n, .branch cond.lower⟩) ::
          (⟨α, some false⟩, ⟨s, m, .branch cond.lower.negation⟩) :: (T ++ U)) s f
  | loop {α : Address} {pos : Pos} {cond : Cond} {block : Block} {T : Traced} {s n f : Nat}
      (checked : cond.Checked) (body : Flow (some ⟨α, some true⟩) block.items T n s)
      (leaves : ¬ T.Departs f) (moves : s ≠ f) :
      Flow α.entrance [.stmt (.loop pos cond block)]
        ((⟨α, some true⟩, ⟨s, n, .branch cond.lower⟩) :: T ++
          [(⟨α, some false⟩, ⟨s, f, .branch cond.lower.negation⟩)]) s f
  | seq {enter : Option Origin} {p q : Program} {T U : Traced} {s m f : Nat}
      (first : Flow enter p T s m) (rest : Flow enter q U m f)
      (apart : ∀ n, T.Departs n → ¬ U.Departs n) (leaves : ¬ T.Departs f) :
      Flow enter (p ++ q) (T ++ U) s f

namespace Flow

variable {enter : Option Origin} {p : Program} {T : Traced} {s f : Nat}

theorem ne_nil (h : Flow enter p T s f) : p ≠ [] := by
  induction h with
  | plain | ifThen | ifElse | loop => exact List.cons_ne_nil _ _
  | seq _ _ _ _ ih => exact List.append_ne_nil_of_left_ne_nil ih _

/-- A flow departs from its first point. -/
theorem start (h : Flow enter p T s f) : T.Departs s := by
  induction h with
  | plain | ifThen | ifElse | loop => exact Traced.departs_cons.mpr (.inl rfl)
  | seq _ _ _ _ ih => exact Traced.departs_append.mpr (.inl ih)

/-- A flow does not depart from its last point. -/
theorem finish (h : Flow enter p T s f) : ¬ T.Departs f := by
  induction h with
  | plain _ moves =>
    simp only [Traced.departs_cons, Traced.not_departs_nil, or_false]
    exact moves
  | ifThen _ _ _ moves ih =>
    rw [Traced.departs_enclosed, not_or, not_or]
    exact ⟨moves, ih, moves⟩
  | ifElse _ _ _ _ _ moves ih ih' =>
    simp only [Traced.departs_cons, Traced.departs_append, not_or]
    exact ⟨moves, moves, ih, ih'⟩
  | loop _ _ leaves moves =>
    rw [Traced.departs_enclosed, not_or, not_or]
    exact ⟨moves, leaves, moves⟩
  | seq _ _ _ leaves _ ih' =>
    rw [Traced.departs_append, not_or]
    exact ⟨leaves, ih'⟩

/-- An arrow leads to a point of departure, or to the last point. -/
theorem targets (h : Flow enter p T s f) : ∀ x ∈ T, x.2.target = f ∨ T.Departs x.2.target := by
  induction h with
  | plain =>
    intro x hx
    rw [List.mem_singleton.mp hx]
    exact .inl rfl
  | ifThen _ body _ _ ih =>
    intro x hx
    rw [Traced.departs_enclosed]
    rcases mem_enclosed.mp hx with rfl | hx | rfl
    · exact .inr (.inr (.inl body.start))
    · exact (ih x hx).imp_right fun h => .inr (.inl h)
    · exact .inl rfl
  | ifElse _ body other _ _ _ ih ih' =>
    intro x hx
    simp only [List.mem_cons, List.mem_append] at hx
    simp only [Traced.departs_cons, Traced.departs_append]
    rcases hx with rfl | rfl | hx | hx
    · exact .inr (.inr (.inr (.inl body.start)))
    · exact .inr (.inr (.inr (.inr other.start)))
    · exact (ih x hx).imp_right fun h => .inr (.inr (.inl h))
    · exact (ih' x hx).imp_right fun h => .inr (.inr (.inr h))
  | loop _ body _ _ ih =>
    intro x hx
    rw [Traced.departs_enclosed]
    rcases mem_enclosed.mp hx with rfl | hx | rfl
    · exact .inr (.inr (.inl body.start))
    · -- the body leads back to the head of the loop
      rcases ih x hx with hhead | hbody
      · exact .inr (.inl hhead.symm)
      · exact .inr (.inr (.inl hbody))
    · exact .inl rfl
  | seq _ rest _ _ ih ih' =>
    intro x hx
    rw [Traced.departs_append]
    rcases List.mem_append.mp hx with hx | hx
    · rcases ih x hx with hmid | hfirst
      · exact .inr (.inr (hmid ▸ rest.start))
      · exact .inr (.inl hfirst)
    · exact (ih' x hx).imp_right .inr

end Flow

/-! ## From layouts to flows -/

/-- The layout of items is a flow, with the given origins of its arrows, which departs from the
points that the layout owns. -/
def Flows (layed : Layed) (source next : Nat) (enter : Option Origin) (p : Program)
    (origins : List Origin) : Prop :=
  ∃ T : Traced, T.map Prod.fst = origins ∧ T.arrows = layed.arrows ∧
    Flow enter p T source layed.finish ∧ ∀ n, T.Departs n ↔ layed.Owns source next n

variable {source next : Nat} {to? : Option Nat}

/-- One arrow is a flow. -/
theorem single_flows (ho : Open source to? next) {i : Item} {a : Action} (ha : i.action? = some a)
    (α : Address) : Flows (single source to? next a) source next α.entrance [i] [⟨α, none⟩] := by
  have hne := ((single_fits source to? next a).finish_lt ho).2
  refine ⟨[(⟨α, none⟩, ⟨source, (single source to? next a).finish, a⟩)], rfl, ?_,
    .plain (o := ⟨α, none⟩) ha hne.symm, fun n => ?_⟩
  · rw [single_arrows]
    rfl
  · rw [single_owns, Traced.departs_cons, eq_comm]
    exact or_iff_left Traced.not_departs_nil

/-- Parts that are laid out one after the other own different points. -/
theorem Flows.append {first rest : Layed} {enter : Option Origin} {p q : Program}
    {os os' : List Origin} (ho : Open source to? next) (hf : first.Fits none next)
    (hg : rest.Fits to? first.next) (h : Flows first source next enter p os)
    (h' : Flows rest first.finish first.next enter q os') :
    Flows ⟨first.arrows ++ rest.arrows, rest.finish, rest.next⟩ source next enter (p ++ q)
      (os ++ os') := by
  obtain ⟨T, horigins, harrows, hflow, hown⟩ := h
  obtain ⟨U, horigins', harrows', hflow', hown'⟩ := h'
  have hsource := ho.source_lt
  have hnext := hf.next_le
  have hnext' := hg.next_le
  have hfin := hf.finish_new rfl
  have hfin' := hg.finish_lt_or ho.to_lt
  have hwhole := (hf.append hg).finish_lt ho
  -- what the two own are ranges of points, so the rest is arithmetic
  simp only [Layed.Owns] at hwhole hown hown'
  refine ⟨T ++ U, by rw [List.map_append, horigins, horigins'], ?_, .seq hflow hflow' ?_ ?_,
    fun n => ?_⟩
  · rw [Traced.arrows, List.map_append, ← harrows, ← harrows']
    rfl
  · intro n
    rw [hown, hown']
    omega
  · rw [hown]
    dsimp only
    omega
  · rw [Traced.departs_append, hown, hown', Layed.Owns]
    dsimp only
    omega

mutual

/-- The layout of a statement is a flow. -/
theorem Stmt.flows {source next : Nat} {to? : Option Nat} (ho : Open source to? next) :
    ∀ {s : Stmt}, s.Checked → ∀ α : Address,
      Flows (s.lower source to? next) source next α.entrance [.stmt s] (s.origins α)
  | .missing, h, _ => absurd h Stmt.not_checked_missing
  | .assign _ _ _, _, α | .read _ _, _, α | .write _ _, _, α => by
    rw [Stmt.lower]
    exact single_flows ho rfl α
  | .ifThen pos cond body, h, α => by
    obtain ⟨hcond, hne, hb⟩ := h.ifThen
    have hsource := ho.source_lt
    have hwhole := (Stmt.fits source next to? h).finish_lt ho
    have hf := Block.fits next (next + 1) to? hne hb
    have hnext := hf.next_le
    have hfin := hf.finish_lt_or ho.to_lt
    obtain ⟨T, horigins, harrows, hflow, hown⟩ :=
      Block.flows (ho.inner Nat.zero_lt_one) hne hb α true 0
    rw [Stmt.lower] at hwhole ⊢
    simp only [Layed.Owns] at hown
    -- the body owns `next` and later points, so that the head is none of them
    refine ⟨_, ?_, ?_, .ifThen hcond hflow ?_ hwhole.2.symm, fun n => ?_⟩
    · simp [Stmt.origins, horigins]
    · simp [Traced.arrows, ← harrows]
    · rw [hown]
      omega
    · rw [Traced.departs_enclosed, hown, Layed.Owns]
      dsimp only
      omega
  | .ifElse pos cond body other, h, α => by
    obtain ⟨hcond, ⟨hne, hb⟩, ⟨hne', hb'⟩⟩ := h.ifElse
    have hsource := ho.source_lt
    have hwhole := (Stmt.fits source next to? h).finish_lt ho
    have hf := Block.fits next (next + 2) to? hne hb
    have ho₂ := ho.other hf
    have hg := Block.fits (next + 1) (Block.lower next to? (next + 2) body).next
      (some (Block.lower next to? (next + 2) body).finish) hne' hb'
    have hfin := hf.finish_lt_or ho.to_lt
    have hnext := hf.next_le
    have hnext' := hg.next_le
    have heq := hg.finish_eq _ rfl
    obtain ⟨T, horigins, harrows, hflow, hown⟩ :=
      Block.flows (ho.inner Nat.zero_lt_two) hne hb α true 0
    obtain ⟨U, horigins', harrows', hflow', hown'⟩ := Block.flows ho₂ hne' hb' α false 0
    rw [heq] at hflow'
    rw [Stmt.lower] at hwhole ⊢
    simp only [Layed.Owns, heq] at hown hown'
    -- the blocks start at the two new points, and the second one ends where the first does
    refine ⟨_, ?_, ?_, .ifElse hcond hflow hflow' ⟨?_, ?_⟩ (fun n => ?_) hwhole.2.symm, fun n => ?_⟩
    · simp [Stmt.origins, horigins, horigins']
    · simp [Traced.arrows, ← harrows, ← harrows']
    · rw [hown]
      omega
    · rw [hown']
      omega
    · rw [hown, hown']
      omega
    · rw [Traced.departs_cons, Traced.departs_cons, Traced.departs_append, hown, hown', Layed.Owns]
      dsimp only
      omega
  | .loop pos cond body, h, α => by
    obtain ⟨hcond, hne, hb⟩ := h.loop
    have hsource := ho.source_lt
    have hwhole := (Stmt.fits source next to? h).finish_lt ho
    have hf := Block.fits next (next + 1) (some source) hne hb
    have hnext := hf.next_le
    have heq := hf.finish_eq _ rfl
    have hg := single_fits source to? (Block.lower next (some source) (next + 1) body).next
      (.branch cond.lower.negation)
    have hnext' := hg.next_le
    have hfin := hg.finish_lt_or ho.to_lt
    obtain ⟨T, horigins, harrows, hflow, hown⟩ := Block.flows ho.loopBody hne hb α true 0
    rw [heq] at hflow
    rw [Stmt.lower] at hwhole ⊢
    simp only [Layed.Owns, heq] at hown
    refine ⟨_, ?_, ?_, .loop hcond hflow ?_ hwhole.2.symm, fun n => ?_⟩
    · simp [Stmt.origins, horigins]
    · simp [Traced.arrows, ← harrows, single_arrows]
    · rw [hown]
      dsimp only
      omega
    · -- the guard that leaves the loop adds no point that is departed from
      have hlast := single_owns source to? (Block.lower next (some source) (next + 1) body).next
        (.branch cond.lower.negation) n
      rw [Layed.Owns] at hlast
      rw [Traced.departs_enclosed, hown, Layed.Owns]
      dsimp only
      omega

/-- The layout of a block that is not empty is a flow. -/
theorem Block.flows {source next : Nat} {to? : Option Nat} (ho : Open source to? next) :
    ∀ {b : Block}, b ≠ .nil → b.Checked → ∀ (outer : Address) (branch : Bool) (n : Nat),
      Flows (Block.lower source to? next b) source next (some ⟨outer, some branch⟩) b.items
        (b.origins outer branch n)
  | .nil, hne, _, _, _, _ => absurd rfl hne
  | .cons s .nil, _, h, outer, branch, n => by
    rw [Block.lower]
    simp only [Block.origins, List.append_nil]
    exact Stmt.flows ho h.cons.1 (.inner outer branch n)
  | .cons s (.cons t b), _, h, outer, branch, n => by
    have hf := Stmt.fits source next none h.cons.1
    rw [Block.lower_cons_cons]
    exact (Stmt.flows ho.first h.cons.1 (.inner outer branch n)).append ho hf
      (Block.fits _ _ to? (by simp) h.cons.2)
      (Block.flows (ho.rest hf) (by simp) h.cons.2 outer branch (n + 1))

end

theorem Item.flows (ho : Open source none next) {i : Item} (h : i.Checked) (k : Nat) :
    Flows (i.lower source next) source next none [i] (i.origins k) := by
  cases h with
  | declare => exact single_flows ho rfl (.item k)
  | stmt h => exact Stmt.flows ho h (.item k)

/-- The layout of a program that is not empty fits, and is a flow. -/
theorem lowerProgram_flows {p : Program} : ∀ {source next : Nat}, source < next → p ≠ [] →
    (∀ i ∈ p, i.Checked) → ∀ k : Nat, (lowerProgram source next p).Fits none next ∧
      Flows (lowerProgram source next p) source next none p (programOrigins k p) := by
  induction p with
  | nil =>
    intro source next _ hne
    exact absurd rfl hne
  | cons item rest ih =>
    intro source next hlt _ h k
    have ho : Open source none next := ⟨hlt, by simp, by simp⟩
    obtain ⟨hitem, hrest⟩ := List.forall_mem_cons.mp h
    have hf := Item.fits source next hitem
    have hflows := Item.flows ho hitem k
    rw [lowerProgram]
    by_cases hnil : rest = []
    · subst hnil
      simp only [lowerProgram, programOrigins, List.append_nil]
      exact ⟨hf, hflows⟩
    · obtain ⟨hg, hflows'⟩ := ih (hf.finish_new rfl).2 hnil hrest (k + 1)
      exact ⟨hf.append hg, hflows.append ho hf hg hflows'⟩

variable {p : Program}

/-- The end of a program is one of its points. -/
theorem lowerProgram_finish_lt (h : ∀ i ∈ p, i.Checked) :
    (lowerProgram 0 1 p).finish < (lowerProgram 0 1 p).next := by
  by_cases hp : p = []
  · subst hp
    exact Nat.zero_lt_one
  · exact ((lowerProgram_flows Nat.zero_lt_one hp h 0).1.finish_new rfl).2

/-- The arrows of a program are a flow from the entry, unless there are none, and every point but
the last is a point of departure. -/
theorem lowerProgram_cases (h : ∀ i ∈ p, i.Checked) : p = [] ∨ ∃ T : Traced,
    T.map Prod.fst = programOrigins 0 p ∧ T.arrows = (lowerProgram 0 1 p).arrows ∧
      Flow none p T 0 (lowerProgram 0 1 p).finish ∧
      ∀ n, T.Departs n ↔ n < (lowerProgram 0 1 p).next ∧ n ≠ (lowerProgram 0 1 p).finish := by
  by_cases hp : p = []
  · exact .inl hp
  · obtain ⟨hf, T, horigins, harrows, hflow, hown⟩ := lowerProgram_flows Nat.zero_lt_one hp h 0
    refine .inr ⟨T, horigins, harrows, hflow, fun n => ?_⟩
    have hnext := hf.next_le
    have hfin := hf.finish_new rfl
    rw [hown, Layed.Owns]
    omega

end MicroFlow.Source
