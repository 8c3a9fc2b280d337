import MicroFlow.Proofs.Dependence.Range
import MicroFlow.Proofs.Lowering.Avoidance
import MicroFlow.Proofs.Lowering.Shape

/-!
# Control dependence is nesting of blocks

The control dependences of an edge are the guards that control its starting point
(`into_control`), each of them once.  In the graph of a program these are found by looking at
the program: an edge depends on the guard that enters the innermost block around its statement,
and on nothing else (`control_dependence_is_nesting`).
-/

namespace MicroFlow

open Source

/-! ## The control dependences of one edge -/

/-- No two edges have the same identifier. -/
theorem Graph.Coherent.nodup_ids {g : Graph} (hg : g.Coherent) :
    (g.edges.toList.map Edge.id).Nodup := by
  have hids :
      g.edges.toList.map Edge.id = (List.range g.edges.size).map fun i : Nat => (i : Int) := by
    refine List.ext_getElem? fun i => ?_
    rw [List.getElem?_map, List.getElem?_map, Array.getElem?_toList]
    by_cases hi : i < g.edges.size
    · have he : g.edges[i]? = some g.edges[i] := by simp [hi]
      simp [hi, hg.valid.edge_id i _ he]
    · simp [hi]
  rw [hids]
  exact List.nodup_range.map fun i j hij => by exact_mod_cast hij

namespace DependenceGraph

variable {g : Graph} {e : Edge} {sets : DominatorSets}

/-- What is listed for the uses of an edge is a data dependence. -/
theorem kind_of_mem_data {vars : Variables} {m : Option Definitions} {x : Dependence}
    (hx : x ∈ dataDependences vars m e) : x.kind = .data := by
  cases m with
  | none => cases hx
  | some m =>
    simp only [dataDependences, List.mem_flatMap, List.mem_map] at hx
    obtain ⟨y, -, site, -, rfl⟩ := hx
    rfl

/-- What is listed for its guards is a control dependence into it. -/
theorem of_mem_control {cs : List Dependence}
    (h : controlDependences g sets e = .ok cs) {x : Dependence} (hx : x ∈ cs) :
    x.target = e.id ∧ x.kind = .control := by
  simp only [controlDependences, bind_eq_ok] at h
  obtain ⟨n, -, guards, -, h⟩ := h
  cases h
  obtain ⟨guard, -, rfl⟩ := List.mem_map.mp hx
  exact ⟨rfl, rfl⟩

/-- Among the dependences of an edge, those by control are into the edge. -/
theorem filter_dependencesOf {values : Values Definitions}
    {ds : List Dependence} (h : dependencesOf g values sets e = .ok ds) (t : Int) :
    ∃ cs, controlDependences g sets e = .ok cs ∧
      (ds.filter fun d => d.target == t && d.kind == .control) = if e.id = t then cs else [] := by
  simp only [dependencesOf, bind_eq_ok] at h
  obtain ⟨n, -, ⟨slot, value⟩, -, cs, hcs, h⟩ := h
  cases h
  refine ⟨cs, hcs, ?_⟩
  have hdata : ((dataDependences g.vars value e).filter fun d =>
      d.target == t && d.kind == .control) = [] := by
    rw [List.filter_eq_nil_iff]
    intro x hx
    simp [kind_of_mem_data hx]
  rw [List.filter_append, hdata, List.nil_append]
  split
  · rename_i heq
    rw [List.filter_eq_self]
    intro x hx
    simp [of_mem_control hcs hx, heq]
  · rename_i hne
    rw [List.filter_eq_nil_iff]
    intro x hx
    simp [of_mem_control hcs hx, hne]

/-- The dependences by control into an edge come from the list for this edge. -/
theorem filter_flatten {values : Values Definitions} {es : List Edge}
    {lists : List (List Dependence)}
    (h : List.Forall₂ (fun e ds => dependencesOf g values sets e = .ok ds) es lists) (t : Int) :
    ((∀ f ∈ es, f.id ≠ t) →
      (lists.flatten.filter fun d => d.target == t && d.kind == .control) = []) ∧
    ((es.map Edge.id).Nodup → ∀ e ∈ es, e.id = t → controlDependences g sets e =
      .ok (lists.flatten.filter fun d => d.target == t && d.kind == .control)) := by
  induction h with
  | nil => simp
  | @cons f ds es lists hf _ ih =>
    obtain ⟨cs, hcs, hfilter⟩ := filter_dependencesOf hf t
    rw [List.flatten_cons, List.filter_append, hfilter]
    refine ⟨fun hnone => ?_, fun hnodup e he hid => ?_⟩
    · rw [if_neg (hnone f (List.mem_cons_self ..)), List.nil_append]
      exact ih.1 fun e he => hnone e (List.mem_cons_of_mem _ he)
    · rw [List.map_cons, List.nodup_cons] at hnodup
      rcases List.mem_cons.mp he with rfl | he
      · have hrest : ∀ f ∈ es, f.id ≠ t := by
          intro f hf heq
          exact hnodup.1 (List.mem_map.mpr ⟨f, hf, heq.trans hid.symm⟩)
        rw [if_pos hid, ih.1 hrest, List.append_nil, hcs]
      · have hne : f.id ≠ t := by
          intro heq
          exact hnodup.1 (List.mem_map.mpr ⟨e, he, hid.trans heq.symm⟩)
        rw [if_neg hne, List.nil_append]
        exact ih.2 hnodup.2 e he hid

/-- The control dependences of an edge are those of the whole graph that point into it. -/
theorem controlDependences_eq_into (hg : g.Coherent) {d : DependenceGraph} (h : ofGraph g = .ok d)
    {i : Nat} (hi : g.edges[i]? = some e) :
    ∃ sets, g.postDominators = .ok sets ∧
    controlDependences g sets e = .ok (d.into .control i) := by
  simp only [ofGraph, bind_eq_ok] at h
  obtain ⟨solution, -, sets, hsets, lists, hlists, h⟩ := h
  cases h
  refine ⟨sets, hsets, ?_⟩
  refine (filter_flatten (mapM_eq_ok.mp hlists) i).2 hg.nodup_ids e ?_ (hg.valid.edge_id i e hi)
  simpa using Array.mem_of_getElem? hi

/-- The control dependences of an edge are the guards that control its starting point. -/
theorem into_control (hg : g.Coherent) {d : DependenceGraph} (h : ofGraph g = .ok d) {i x : Nat}
    (hi : g.edges[i]? = some e) (hs : e.source = .listed x) :
    ∃ guards : List Edge, guards.Nodup ∧
      (∀ f, f ∈ guards ↔ f.action.kind = .boolean ∧
        ∃ p q, g.Leads f p q ∧ g.PostDominates x q ∧ ¬ g.PostDominates x p) ∧
      d.into .control i = guards.map fun f => ⟨f.id, i, .control, f.action.shown⟩ := by
  have he : e ∈ g.edges := Array.mem_of_getElem? hi
  obtain ⟨sets, hsets, hinto⟩ := controlDependences_eq_into hg h hi
  obtain ⟨sets', hsets', hsize, hexact⟩ := Graph.postDominators_eq_ok hg
  cases hsets.symm.trans hsets'
  obtain ⟨y, -, ht⟩ := hg.valid.target e he
  have hx : x < g.nodes.size := (Graph.Leads.lt ⟨he, hs, ht⟩ hg).1
  obtain ⟨n, hn, -, hid⟩ := hg.endNode hx
  simp only [controlDependences, bind_eq_ok] at hinto
  obtain ⟨n', hn', guards, hguards, hinto⟩ := hinto
  rw [hs, hn] at hn'
  cases hn'
  rw [hid] at hguards
  have hnodup : g.edges.toList.Nodup := hg.nodup_ids.of_map
  refine ⟨guards, (sublist_of_filterM_eq_ok hguards).nodup (hnodup.filter _), fun f => ?_, ?_⟩
  · -- the guards are filtered by the post-dominators, which are exact
    obtain ⟨guards', hguards', hmem⟩ := exists_filterM_eq_ok (exists_controls hg hsize x)
    cases hguards.symm.trans hguards'
    rw [hmem, List.mem_filter, beq_iff_eq, Array.mem_toList_iff]
    constructor
    · rintro ⟨⟨hf, hkind⟩, hcontrols⟩
      obtain ⟨p, q, hp, hq, hsource, htarget⟩ := hg.ends_listed hf
      rw [controls_eq_ok hg hsize ⟨hf, hsource, htarget⟩] at hcontrols
      refine ⟨hkind, p, q, ⟨hf, hsource, htarget⟩, ?_⟩
      rw [← hexact q x hq hx, ← hexact p x hp hx]
      simpa using hcontrols
    · rintro ⟨hkind, p, q, hf, hq, hp⟩
      rw [← hexact q x (hf.lt hg).2 hx] at hq
      rw [← hexact p x (hf.lt hg).1 hx] at hp
      refine ⟨⟨hf.mem, hkind⟩, ?_⟩
      rw [controls_eq_ok hg hsize hf]
      simp [hq, hp]
  · rw [hg.valid.edge_id i e hi] at hinto
    exact (Except.ok.inj hinto).symm

end DependenceGraph

/-! ## Programs -/

section Ways

open MicroFlow.Graph

variable {points finish x : Nat} {arrows : List Arrow} {vars : Variables} {v : Nat}

/-- A way around a point is a path in the graph that does not visit it. -/
theorem exists_path_of_avoids (h : Avoids arrows finish x v) :
    ∃ es, (ofArrows points arrows finish vars).Path v es finish ∧ ¬ Visits es finish x := by
  induction h with
  | done ne => exact ⟨[], .nil _, by simp [Visits, ne.symm]⟩
  | step mem ne _ ih =>
    obtain ⟨es, hpath, hvisits⟩ := ih
    obtain ⟨e, he⟩ := leads_ofArrows mem
    exact ⟨e :: es, .cons he hpath, fun h => hvisits (h.tail he.source ne.symm)⟩

/-- And such a path is a way around the point. -/
theorem avoids_of_path {t : Nat} {es : List Edge}
    (h : (ofArrows points arrows finish vars).Path v es t) (ht : t = finish)
    (hvisits : ¬ Visits es t x) : Avoids arrows finish x v := by
  induction h with
  | nil p =>
    subst ht
    exact .done fun heq => hvisits (.inl heq.symm)
  | @cons e es p q r hfirst _ ih =>
    obtain ⟨i, a, ha, rfl⟩ := mem_ofArrows.mp hfirst.mem
    obtain rfl : a.source = p := Endpoint.listed.inj hfirst.source
    obtain rfl : a.target = q := Endpoint.listed.inj hfirst.target
    have hne : a.source ≠ x := by
      rintro rfl
      exact hvisits (.inr ⟨_, List.mem_cons_self .., rfl⟩)
    exact .step (List.mem_of_getElem? ha) hne (ih ht fun h => hvisits (h.cons _))

/-- A point post-dominates another if there is no way around it. -/
theorem postDominates_ofArrows :
    (ofArrows points arrows finish vars).PostDominates x v ↔ ¬ Avoids arrows finish x v := by
  constructor
  · intro h havoids
    obtain ⟨es, hpath, hvisits⟩ := exists_path_of_avoids havoids
    exact hvisits (h finish es rfl hpath)
  · intro h t es hexit hpath
    cases hexit
    by_contra hvisits
    exact h (avoids_of_path hpath rfl hvisits)

/-- The condition for a control dependence, in terms of ways. -/
theorem leads_iff_controls {f : Edge} :
    (∃ u v, (ofArrows points arrows finish vars).Leads f u v ∧
      (ofArrows points arrows finish vars).PostDominates x v ∧
      ¬ (ofArrows points arrows finish vars).PostDominates x u) ↔
    ∃ (j : Nat) (a : Arrow), arrows[j]? = some a ∧ f = edgeOf j a ∧ Controls arrows finish a x := by
  constructor
  · rintro ⟨u, v, hf, hv, hu⟩
    obtain ⟨j, a, ha, rfl⟩ := mem_ofArrows.mp hf.mem
    obtain rfl : a.source = u := Endpoint.listed.inj hf.source
    obtain rfl : a.target = v := Endpoint.listed.inj hf.target
    rw [postDominates_ofArrows] at hu hv
    exact ⟨j, a, ha, rfl, not_not.mp hu, hv⟩
  · rintro ⟨j, a, ha, rfl, hu, hv⟩
    refine ⟨a.source, a.target, ⟨mem_ofArrows.mpr ⟨j, a, ha, rfl⟩, rfl, rfl⟩, ?_, ?_⟩
    · exact postDominates_ofArrows.mpr hv
    · exact fun h => postDominates_ofArrows.mp h hu

end Ways

/-! ## The graph of a program -/

theorem map_actionAt?_ofProgram (p : Program) (vars : Variables) :
    (programOrigins 0 p).map (actionAt? p) =
      (Graph.ofProgram vars p).edges.toList.map fun e => some e.action := by
  rw [map_actionAt? 0 1 (List.drop_zero (l := p))]
  refine List.ext_getElem? fun i => ?_
  rw [List.getElem?_map, List.getElem?_map, Array.getElem?_toList, Graph.ofProgram,
    Graph.ofArrows_getElem?, Option.map_map]
  rfl

theorem length_programOrigins (p : Program) (vars : Variables) :
    (programOrigins 0 p).length = (Graph.ofProgram vars p).edges.size := by
  simpa using congrArg List.length (map_actionAt?_ofProgram p vars)

/-- The arrows of a program with their origins, and the guards that control their starts. -/
theorem exists_nests {p : Program} (h : ∀ i ∈ p, i.Checked) : ∃ T : Traced,
    T.map Prod.fst = programOrigins 0 p ∧ T.map Prod.snd = (lowerProgram 0 1 p).arrows ∧
      Nests (lowerProgram 0 1 p).arrows (lowerProgram 0 1 p).finish none T 0 := by
  rcases lowerProgram_cases h with rfl | ⟨T, horigins, harrows, hflow, -⟩
  · exact ⟨[], rfl, rfl, by simp, by simp⟩
  · exact ⟨T, horigins, harrows, harrows ▸ hflow.nests hflow.inset⟩

theorem eq_singleton_of_nodup {α : Type} {l : List α} {x : α} (hl : l.Nodup) (hx : x ∈ l)
    (h : ∀ y ∈ l, y = x) : l = [x] := by
  refine List.perm_singleton.mp ((List.perm_ext_iff_of_nodup hl (List.nodup_singleton x)).mpr ?_)
  intro y
  rw [List.mem_singleton]
  exact ⟨h y, fun hy => hy ▸ hx⟩

section Program

variable {p : Program} {vars : Variables} {d : DependenceGraph} {i : Nat} {o : Origin}

/-- The guards on which an edge of a program depends, compared with the entrance of its origin. -/
theorem exists_guards (hp : ∀ i ∈ p, i.Checked) (hg : (Graph.ofProgram vars p).Coherent)
    (hd : DependenceGraph.ofGraph (Graph.ofProgram vars p) = .ok d)
    (ho : (programOrigins 0 p)[i]? = some o) : ∃ guards : List Edge, guards.Nodup ∧
      d.into .control i = guards.map (fun f => ⟨f.id, i, .control, f.action.shown⟩) ∧
      (∀ f ∈ guards, ∃ j : Nat, (Graph.ofProgram vars p).edges[j]? = some f ∧
        o.stmt.entrance = (programOrigins 0 p)[j]?) ∧
      ∀ guard, o.stmt.entrance = some guard → ∃ (j : Nat) (a : Arrow),
        (programOrigins 0 p)[j]? = some guard ∧
        (Graph.ofProgram vars p).edges[j]? = some (Graph.edgeOf j a) ∧
        a.action.kind = .boolean ∧ Graph.edgeOf j a ∈ guards := by
  obtain ⟨T, horigins, harrows, hnests⟩ := exists_nests hp
  -- an edge stands at the same place as its origin
  have hedge : ∀ {j : Nat} {y : Origin × Arrow}, T[j]? = some y →
      (Graph.ofProgram vars p).edges[j]? = some (Graph.edgeOf j y.2) ∧
        (programOrigins 0 p)[j]? = some y.1 := by
    intro j y hy
    rw [Graph.ofProgram, Graph.ofArrows_getElem?, ← harrows, ← horigins, List.getElem?_map,
      List.getElem?_map, hy]
    exact ⟨rfl, rfl⟩
  obtain ⟨y, hy, rfl⟩ : ∃ y, T[i]? = some y ∧ y.1 = o := by
    rw [← horigins, List.getElem?_map] at ho
    exact Option.map_eq_some_iff.mp ho
  have hmem : y ∈ T := List.mem_of_getElem? hy
  -- guards that control an edge are guards around it, and the other way round
  obtain ⟨guards, hnodup, hguards, hinto⟩ :=
    DependenceGraph.into_control hg hd (hedge hy).1 (x := y.2.source) rfl
  refine ⟨guards, hnodup, hinto, fun f hf => ?_, fun guard hguard => ?_⟩
  · rw [hguards, Graph.ofProgram, leads_iff_controls] at hf
    obtain ⟨hkind, j, a, ha, rfl, hcontrols⟩ := hf
    rw [← harrows, List.getElem?_map] at ha
    obtain ⟨g, hgT, rfl⟩ := Option.map_eq_some_iff.mp ha
    refine ⟨j, (hedge hgT).1, ?_⟩
    rw [(hedge hgT).2]
    exact hnests.guarded y hmem g (List.mem_of_getElem? hgT) hkind hcontrols
  · rcases hnests.located y hmem with ⟨hnone, -⟩ | ⟨-, g, hgT, henter, hkind, hcontrols⟩
    · rw [hnone] at hguard
      cases hguard
    obtain rfl : g.1 = guard := Option.some.inj (henter.symm.trans hguard)
    obtain ⟨j, hj⟩ := List.mem_iff_getElem?.mp hgT
    refine ⟨j, g.2, (hedge hj).2, (hedge hj).1, hkind, ?_⟩
    rw [hguards, Graph.ofProgram, leads_iff_controls]
    refine ⟨hkind, j, g.2, ?_, rfl, hcontrols⟩
    rw [← harrows, List.getElem?_map, hj]
    rfl

/-- The control dependences of an edge of a program, by the origin of the edge. -/
theorem into_control_ofProgram (hp : ∀ i ∈ p, i.Checked) (hg : (Graph.ofProgram vars p).Coherent)
    (hd : DependenceGraph.ofGraph (Graph.ofProgram vars p) = .ok d)
    (ho : (programOrigins 0 p)[i]? = some o) :
    (o.stmt.entrance = none → d.into .control i = []) ∧
    ∀ guard, o.stmt.entrance = some guard → ∃ (j : Nat) (f : Edge),
      (programOrigins 0 p)[j]? = some guard ∧ (Graph.ofProgram vars p).edges[j]? = some f ∧
        f.action.kind = .boolean ∧ d.into .control i = [⟨j, i, .control, f.action.shown⟩] := by
  obtain ⟨guards, hnodup, hinto, hsound, hfound⟩ := exists_guards hp hg hd ho
  have hlt : ∀ {j : Nat} {f : Edge}, (Graph.ofProgram vars p).edges[j]? = some f →
      j < (programOrigins 0 p).length := by
    intro j f hf
    rw [length_programOrigins p vars]
    exact (Array.getElem?_eq_some_iff.mp hf).1
  refine ⟨fun hnone => ?_, fun guard hguard => ?_⟩
  · have hempty : guards = [] := by
      refine List.eq_nil_iff_forall_not_mem.mpr fun f hf => ?_
      obtain ⟨j, hj, henter⟩ := hsound f hf
      rw [hnone, List.getElem?_eq_getElem (hlt hj)] at henter
      cases henter
    rw [hinto, hempty]
    rfl
  · obtain ⟨j, a, hj, hedge, hkind, hmem⟩ := hfound guard hguard
    have hone : guards = [Graph.edgeOf j a] := by
      refine eq_singleton_of_nodup hnodup hmem fun f hf => ?_
      obtain ⟨k, hk, henter⟩ := hsound f hf
      -- the two guards have one origin, so that they are one
      have hkj : k = j := (List.getElem?_inj (hlt hk) (nodup_programOrigins p 0)).mp
        (henter.symm.trans (hguard.trans hj.symm))
      rw [hkj, hedge] at hk
      exact (Option.some.inj hk).symm
    refine ⟨j, Graph.edgeOf j a, hj, hedge, hkind, ?_⟩
    rw [hinto, hone]
    rfl

/-- A guard on which an edge depends by control is the entrance of the edge. -/
theorem entrance_of_mem_outOf (hp : ∀ i ∈ p, i.Checked) (hg : (Graph.ofProgram vars p).Coherent)
    (hd : DependenceGraph.ofGraph (Graph.ofProgram vars p) = .ok d)
    (ho : (programOrigins 0 p)[i]? = some o) {x : Dependence} (hx : x ∈ d.outOf .control i) :
    ∃ o' ∈ programOrigins 0 p, o'.stmt.entrance = some o := by
  obtain ⟨hx, hends⟩ := List.mem_filter.mp hx
  obtain ⟨hsource, hkind⟩ : x.source = i ∧ x.kind = .control := by simpa using hends
  obtain ⟨k, hk, htarget⟩ := ((DependenceGraph.ofGraph_listed hg hd).2 x hx).2
  have hinto : x ∈ d.into .control k := List.mem_filter.mpr ⟨hx, by simp [htarget, hkind]⟩
  rw [← length_programOrigins p vars] at hk
  obtain ⟨o', ho'⟩ : ∃ o', (programOrigins 0 p)[k]? = some o' := ⟨_, List.getElem?_eq_getElem hk⟩
  obtain ⟨hnone, hsome⟩ := into_control_ofProgram hp hg hd ho'
  refine ⟨o', List.mem_of_getElem? ho', ?_⟩
  cases henter : o'.stmt.entrance with
  | none =>
    rw [hnone henter] at hinto
    cases hinto
  | some guard =>
    obtain ⟨j, f, hj, -, -, hlist⟩ := hsome guard henter
    rw [hlist, List.mem_singleton] at hinto
    subst hinto
    obtain rfl : j = i := Int.ofNat.inj hsource
    exact hj.symm.trans ho

end Program

/-- What stands in a block of a statement: the statement has this block. -/
theorem exists_block_of_entrance {p : Program} {o : Origin} {a : Action}
    {α : Address} {branch : Bool}
    (ha : actionAt? p o = some a) (henter : o.stmt.entrance = some ⟨α, some branch⟩) :
    ∃ s b, stmtAt? p α = some s ∧ s.block? branch = some b := by
  obtain ⟨stmt, guard⟩ := o
  cases stmt with
  | item i => cases henter
  | inner outer branch' n =>
    cases henter
    have hpart : ∃ part, partAt? p ⟨.inner α branch n, guard⟩ = some part := by
      simpa [actionAt?, declaredAt?, Option.isSome_iff_exists] using congrArg Option.isSome ha
    obtain ⟨part, hpart⟩ := hpart
    simp only [partAt?, stmtAt?, Option.bind_eq_bind, Option.bind_eq_some_iff] at hpart
    obtain ⟨-, ⟨s, hs, b, hb, -⟩, -⟩ := hpart
    exact ⟨s, b, hs, hb⟩

/--
Control dependence is nesting of blocks.  `programOrigins` tells where the edges of the graph of
a program come from: each edge does what the program does at its origin, and no two have the same
one.  An edge whose statement stands in no block has no control dependence.  Any other edge has
one control dependence, from the edge whose origin is the entrance of the innermost block around
the statement.  The negated condition of a branch without `else` or of a loop is the source of none.
-/
theorem control_dependence_is_nesting {p : Program} {b : Built} (h : build p = .ok b) :
    ∃ d, DependenceGraph.ofGraph b.graph = .ok d ∧
      (programOrigins 0 p).map (actionAt? p) = b.graph.edges.toList.map (fun e => some e.action) ∧
      (programOrigins 0 p).Nodup ∧
      ∀ (i : Nat) (o : Origin), (programOrigins 0 p)[i]? = some o →
        (o.stmt.entrance = none → d.into .control i = []) ∧
        (∀ guard, o.stmt.entrance = some guard → ∃ (j : Nat) (f : Edge),
          (programOrigins 0 p)[j]? = some guard ∧ b.graph.edges[j]? = some f ∧
            f.action.kind = .boolean ∧ d.into .control i = [⟨j, i, .control, f.action.shown⟩]) ∧
        (∀ pos c body, (stmtAt? p o.stmt = some (.ifThen pos c body) ∨
            stmtAt? p o.stmt = some (.loop pos c body)) →
          o.guard = some false → d.outOf .control i = []) := by
  have hg := coherent_of_build h
  obtain ⟨vars, hvars, hgraph, -⟩ := build_eq_ok h
  rw [hgraph] at hg ⊢
  have hp := checked_of_checkProgram hvars
  obtain ⟨d, hd, -⟩ := DependenceGraph.ofGraph_eq_ok hg
  have hactions := map_actionAt?_ofProgram p vars
  refine ⟨d, hd, hactions, nodup_programOrigins p 0, fun i o ho => ?_⟩
  obtain ⟨hnone, hsome⟩ := into_control_ofProgram hp hg hd ho
  refine ⟨hnone, hsome, fun pos c body hstmt hguard => ?_⟩
  refine List.eq_nil_iff_forall_not_mem.mpr fun x hx => ?_
  obtain ⟨o', hmem, henter⟩ := entrance_of_mem_outOf hp hg hd ho hx
  have hact : actionAt? p o' ∈ (Graph.ofProgram vars p).edges.toList.map (fun e => some e.action) :=
    hactions ▸ List.mem_map_of_mem hmem
  obtain ⟨e, -, he⟩ := List.mem_map.mp hact
  obtain ⟨α, guard⟩ := o
  cases hguard
  -- neither statement has a block behind the negated condition
  obtain ⟨s, block, hs, hblock⟩ := exists_block_of_entrance he.symm henter
  rcases hstmt with hstmt | hstmt
  · cases hs.symm.trans hstmt
    cases hblock
  · cases hs.symm.trans hstmt
    cases hblock

/-- A loop around a branch, with another branch in the block behind `else`, and a statement behind
the loop:
`int x; while (x > 0) { if (x == 1) { x := 0; } else { if (x == 2) { write x; } } } write x;`. -/
def thicketProgram : Program :=
  let x : Arith := .access default .scalar "x" .missing ""
  let is (n : Int) : Cond := .rel default (.rel .eq) x (.num default n)
  [.declare default .scalar "x" 0,
    .stmt (.loop default (.rel default (.rel .gt) x (.num default 0))
      (.ofList [.ifElse default (is 1)
        (.ofList [.assign default (some ⟨default, .scalar, "x", .missing, ""⟩) (.num default 0)])
        (.ofList [.ifThen default (is 2) (.ofList [.write default x])])])),
    .stmt (.write default x)]

/-- In the graph of this program the edges 4 and 6 stand behind the conditions 2 and 5, and the
guards of the inner branch behind the negated condition 3.  The last edge stands in no block, and
nothing depends on the edges that skip the inner branch or leave the loop. -/
theorem control_dependence_is_nesting_thicket :
    ∃ b d, build thicketProgram = .ok b ∧ DependenceGraph.ofGraph b.graph = .ok d ∧
      (d.into .control 4).map Dependence.source = [2] ∧
      (d.into .control 5).map Dependence.source = [3] ∧
      (d.into .control 6).map Dependence.source = [5] ∧
      (d.into .control 7).map Dependence.source = [3] ∧ d.into .control 9 = [] ∧
      d.outOf .control 7 = [] ∧ d.outOf .control 8 = [] := by
  obtain ⟨b, hb⟩ : ∃ b, build thicketProgram = .ok b := ⟨_, rfl⟩
  obtain ⟨d, hd, -, hnodup, hedges⟩ := control_dependence_is_nesting hb
  have hone : ∀ {i j : Nat} {o guard : Origin}, (programOrigins 0 thicketProgram)[i]? = some o →
      o.stmt.entrance = some guard → (programOrigins 0 thicketProgram)[j]? = some guard →
      (d.into .control i).map Dependence.source = [(j : Int)] := by
    intro i j o guard ho henter hj
    obtain ⟨k, f, hk, -, -, hinto⟩ := (hedges i o ho).2.1 guard henter
    obtain rfl : k = j :=
      (List.getElem?_inj (List.getElem?_eq_some_iff.mp hk).1 hnodup).mp (hk.trans hj.symm)
    rw [hinto]
    rfl
  refine ⟨b, d, hb, hd, hone (i := 4) (j := 2) rfl rfl rfl, hone (i := 5) (j := 3) rfl rfl rfl,
    hone (i := 6) (j := 5) rfl rfl rfl, hone (i := 7) (j := 3) rfl rfl rfl,
    (hedges 9 _ rfl).1 rfl, ?_, ?_⟩
  · exact (hedges 7 _ rfl).2.2 _ _ _ (.inl rfl) rfl
  · exact (hedges 8 _ rfl).2.2 _ _ _ (.inr rfl) rfl

end MicroFlow
