import MicroFlow.Proofs.Graph.Components
import MicroFlow.Proofs.Lowering.Built
import MicroFlow.Proofs.Lowering.Figures

/-!
# The figures of a graph are those of its program

The figures of a built graph are taken from the graph alone: loops from the ranks of a depth-first
order, loop nests from strongly connected components.  They are what can be counted in the program
(`stats_of_build`), since its graph follows a course through all the points.
-/

namespace MicroFlow

namespace Graph

open Source

/-! ## Steps and ranks -/

variable {p : Nat}

namespace Coherent

variable {g : Graph} (h : g.Coherent)

include h

/-- The table of successors has the steps of a walk. -/
theorem steps_eq_ok : ∃ steps, (List.range g.nodes.size).mapM g.successors = .ok steps ∧
    steps.length = g.nodes.size ∧ ∀ p q, StepsTo steps p q ↔ g.WalkStep false p q := by
  obtain ⟨steps, hsteps⟩ := exists_mapM_eq_ok fun p hp =>
    (h.successors_eq_ok (List.mem_range.mp hp)).imp fun _ h => h.1
  have hall := mapM_eq_ok.mp hsteps
  have hlen : steps.length = g.nodes.size := by simpa using hall.length_eq.symm
  refine ⟨steps, hsteps, hlen, fun p q => ?_⟩
  unfold StepsTo
  by_cases hp : p < g.nodes.size
  · have hp' : p < steps.length := by omega
    have hget := hall.get (by simpa using hp) hp'
    obtain ⟨next, hnext, hmem⟩ := h.successors_eq_ok hp
    simp only [List.get_eq_getElem, List.getElem_range, hnext] at hget
    rw [List.getElem?_eq_getElem hp', ← Except.ok.inj hget, Option.getD_some, hmem]
  · rw [List.getElem?_eq_none (by omega)]
    refine iff_of_false (by simp) ?_
    rintro ⟨i, e, he, hs, -⟩
    obtain ⟨p', -, hp', -, hs', -⟩ := h.ends_listed (Array.mem_of_getElem? he)
    have hs : e.source = .listed p := hs
    rw [hs] at hs'
    cases hs'
    omega

end Coherent

/-! ## Graphs that follow a course -/

section

variable {F : Figures} {T : Marked} {G : List (List Nat)} {points finish : Nat} {vars : Variables}
  {arrows : List Arrow} {q : Nat} {ord : NodeOrder} {tree : List Nat}

theorem crosses_ofArrows {i : Nat} : (ofArrows points arrows finish vars).Crosses false i p q ↔
      ∃ a, arrows[i]? = some a ∧ a.source = p ∧ a.target = q := by
  simp only [Crosses, ofArrows_getElem?, Option.map_eq_some_iff]
  constructor
  · rintro ⟨_, ⟨a, ha, rfl⟩, hs, ht⟩
    exact ⟨a, ha, Endpoint.listed.inj hs, Endpoint.listed.inj ht⟩
  · rintro ⟨a, ha, rfl, rfl⟩
    exact ⟨_, ⟨a, ha, rfl⟩, rfl, rfl⟩

/-- Steps of a walk follow the arrows. -/
theorem walkStep_ofArrows :
    (ofArrows points arrows finish vars).WalkStep false p q ↔ Arrow.Links arrows p q := by
  simp only [WalkStep, crosses_ofArrows, Arrow.Links, List.mem_iff_getElem?]
  constructor
  · rintro ⟨i, a, ha, hs, ht⟩
    exact ⟨a, ⟨i, ha⟩, hs, ht⟩
  · rintro ⟨a, ⟨i, ha⟩, hs, ht⟩
    exact ⟨i, a, ha, hs, ht⟩

def rankOf (ord : NodeOrder) (p : Nat) : Nat := ord.rank[p]?.getD 0

theorem rankOf_lt (h : ord.Before p q) : rankOf ord p < rankOf ord q := by
  obtain ⟨r, s, hr, hs, hlt⟩ := h
  simpa [rankOf, hr, hs] using hlt

/-- Counting edges is counting arrows. -/
theorem count_edges (p : Action → Bool) :
    (ofArrows points arrows finish vars).edges.toList.countP (fun e => p e.action) =
      arrows.countP fun a => p a.action := by
  have hactions : (ofArrows points arrows finish vars).edges.toList.map Edge.action =
      arrows.map Arrow.action := by
    calc (ofArrows points arrows finish vars).edges.toList.map Edge.action
        = (arrows.zipIdx.map Prod.fst).map Arrow.action := by
          simp only [ofArrows, List.map_map]
          rfl
      _ = arrows.map Arrow.action := by rw [List.zipIdx_map_fst]
  have := congrArg (List.countP p) hactions
  rwa [List.countP_map, List.countP_map] at this

variable (h : Course F T G 0 finish) (hpoints : (G.flatten ++ [finish]).Perm (List.range points))

include h hpoints

/-- A course reaches all its points. -/
theorem reached_of_course (hp : p < points) :
    (ofArrows points T.arrows finish vars).Reached false p := by
  have hreach : Arrow.Reaches T.arrows 0 p := by
    rcases List.mem_append.mp (hpoints.mem_iff.mpr (List.mem_range.mpr hp)) with hG | hf
    · exact (h.reaches p hG).1
    · rw [List.mem_singleton.mp hf]
      exact (h.reaches 0 h.start_mem).2
  refine ⟨0, ⟨by simpa using (by omega : 0 < points), rfl⟩, ?_⟩
  exact Relation.ReflTransGen.mono (fun _ _ => walkStep_ofArrows.mpr) _ _ hreach

/-- The ranks are those of a depth-first walk along the course. -/
theorem depthFirst_of_course
    (hord : ord.IsReversePostorder (ofArrows points T.arrows finish vars) false tree) :
    Course.DepthFirst T G.flatten 0 (rankOf ord) := by
  have hmem : ∀ p ∈ G.flatten, p < points := fun p hp =>
    List.mem_range.mp (hpoints.mem_iff.mp (List.mem_append_left _ hp))
  have htree : ∀ {i p q : Nat}, i ∈ tree →
      (ofArrows points T.arrows finish vars).Crosses false i p q →
        Course.Ascent T (rankOf ord) p q := by
    intro i p q hi hcross
    obtain ⟨p', q', hcross', -, -, -, hbefore⟩ := hord.tree_ends i hi
    obtain ⟨rfl, rfl⟩ := hcross.unique hcross'
    obtain ⟨a, ha, rfl, rfl⟩ := crosses_ofArrows.mp hcross
    obtain ⟨x, hx, rfl⟩ := List.mem_map.mp (List.mem_of_getElem? ha)
    exact ⟨x, hx, rfl, rfl, rankOf_lt hbefore⟩
  refine ⟨fun p hp hne => ?_, fun x hx => ?_⟩
  · obtain ⟨i, ⟨hi, q, hcross⟩, -⟩ :=
      hord.entered p (reached_of_course h hpoints (hmem p hp)) fun hs => hne hs.2
    obtain ⟨x, hx, rfl, ht, hlt⟩ := htree hi hcross
    exact ⟨x, hx, ht, hlt⟩
  · obtain ⟨i, hi⟩ := List.mem_iff_getElem?.mp (show x.1 ∈ T.arrows from List.mem_map_of_mem hx)
    have hcross : (ofArrows points T.arrows finish vars).Crosses false i x.1.source x.1.target :=
      crosses_ofArrows.mpr ⟨x.1, hi, rfl, rfl⟩
    refine (hord.ascends i _ _ hcross (reached_of_course h hpoints (hmem _ (h.source_mem hx)))).imp
      rankOf_lt fun hback => ?_
    refine Relation.ReflTransGen.mono ?_ _ _ hback
    rintro p q ⟨j, hj, hpq⟩
    exact htree hj hpq

/-- A walk finishes all points. -/
theorem length_finished {w : Walk}
    (hw : w.Complete (ofArrows points T.arrows finish vars) false tree) :
    w.finished.length = points := by
  have hperm : w.finished.Perm (List.range points) := by
    rw [List.perm_ext_iff_of_nodup hw.nodup List.nodup_range]
    intro p
    rw [List.mem_range]
    exact ⟨fun hp => by simpa using hw.within p hp,
      fun hp => (hw.reached p).mpr (reached_of_course h hpoints hp)⟩
  simpa using hperm.length_eq

/-- Each loop of the course is one nest. -/
theorem nestCount_of_course {steps : List (List Nat)} (hlen : steps.length = points)
    (hsteps : ∀ p q, StepsTo steps p q ↔
      (ofArrows points T.arrows finish vars).WalkStep false p q) :
    nestCount steps = F.nests := by
  have hlinks : StepsTo steps = Arrow.Links T.arrows := by
    funext p q
    rw [hsteps, walkStep_ofArrows]
  have hinward : Inward steps := by
    intro next hnext q hq
    obtain ⟨p, hp⟩ := List.mem_iff_getElem?.mp hnext
    have hstep : StepsTo steps p q := by rwa [StepsTo, hp]
    rw [hlinks] at hstep
    obtain ⟨a, ha, -, rfl⟩ := hstep
    obtain ⟨x, hx, rfl⟩ := List.mem_map.mp ha
    rw [hlen, ← List.mem_range, ← hpoints.mem_iff, List.mem_append, List.mem_singleton]
    exact (h.targets x hx).symm
  have hperm : (G ++ [[finish]]).flatten.Perm (List.range steps.length) := by
    rw [List.flatten_append, hlen]
    exact hpoints
  have hclass : ∀ c ∈ G ++ [[finish]], ∀ p ∈ c, ∀ q, Mutual steps p q ↔ q ∈ c := by
    intro c hc p hp q
    rw [Mutual, hlinks]
    exact h.mutual_iff hc hp
  rw [nestCount_eq hinward hperm hclass, List.countP_append, h.count_groups]
  rfl

variable (hg : (ofArrows points T.arrows finish vars).Coherent)

include hg

/-- An edge leads back when its arrow has a mark. -/
theorem leadsBack_of_course
    (hord : ord.IsReversePostorder (ofArrows points T.arrows finish vars) false tree)
    {x : Arrow × Bool}
    {i : Nat} (hi : T[i]? = some x) :
    (ofArrows points T.arrows finish vars).leadsBack ord (edgeOf i x.1) = .ok x.2 := by
  have hx : x ∈ T := List.mem_of_getElem? hi
  have hget : T.arrows[i]? = some x.1 := by simp [Marked.arrows, hi]
  have he : edgeOf i x.1 ∈ (ofArrows points T.arrows finish vars).edges :=
    mem_ofArrows.mpr ⟨i, _, hget, rfl⟩
  obtain ⟨p, q, hp, hq, hs, ht⟩ := hg.ends_listed he
  obtain rfl : x.1.source = p := Endpoint.listed.inj hs
  obtain rfl : x.1.target = q := Endpoint.listed.inj ht
  have hne : ((x.1.source : Int) == x.1.target) = false := by
    have := h.moves hx
    rw [beq_eq_false_iff_ne]
    omega
  obtain ⟨r, hr, hlt⟩ := (hord.reached x.1.source).mp
    (reached_of_course h hpoints (by simpa using hp))
  have hretreats := h.retreats_iff (depthFirst_of_course h hpoints hord) hx
  simp only [leadsBack, hg.ends he hs ht, bind, Except.bind, hne, Bool.false_eq_true, if_false,
    slotOf_natCast hp, slotOf_natCast hq]
  simp only [rankOf, hr, Option.getD_some] at hretreats
  simp only [hr, Option.getD_some, pure, Except.pure, hlt, decide_true, Bool.and_true,
    Except.ok.injEq]
  exact Bool.eq_iff_iff.mpr (by rw [decide_eq_true_eq, hretreats])

/-- The edges that lead back are counted by the marks. -/
theorem back_of_course
    (hord : ord.IsReversePostorder (ofArrows points T.arrows finish vars) false tree) :
    (ofArrows points T.arrows finish vars).edges.toList.mapM
      ((ofArrows points T.arrows finish vars).leadsBack ord) = .ok (T.map Prod.snd) := by
  have hsize : (ofArrows points T.arrows finish vars).edges.size = T.length := by
    simp [ofArrows, Marked.arrows]
  rw [mapM_eq_ok, List.forall₂_iff_get]
  refine ⟨by simpa using hsize, fun i hi hi' => ?_⟩
  have hlt : i < T.length := by simpa using hi'
  have hget : T[i]? = some T[i] := List.getElem?_eq_getElem hlt
  have hedge : (ofArrows points T.arrows finish vars).edges[i]? = some (edgeOf i T[i].1) := by
    rw [ofArrows_getElem?, Marked.arrows, List.getElem?_map, hget]
    rfl
  have := leadsBack_of_course h hpoints hg hord hget
  simp only [List.get_eq_getElem, Array.getElem_toList, List.getElem_map]
  rw [(Array.getElem?_eq_some_iff.mp hedge).2]
  exact this

/-- The statistics of a graph are the figures of its course. -/
theorem stats_of_course : ∃ s, (ofArrows points T.arrows finish vars).stats = .ok s ∧
    s.guards = 2 * F.branches ∧ s.declarations = F.declared ∧
    s.cyclomaticComplexity = 1 + F.branches ∧
    s.unreachable = 0 ∧ s.loopNests = F.nests ∧ s.loops = F.closing := by
  obtain ⟨steps, hsteps, hlen, hstep⟩ := hg.steps_eq_ok
  obtain ⟨w, tree, hw, hcomplete⟩ := hg.walk_complete false
  have hord := depthFirst_of_walk hw
  have hback := back_of_course h hpoints hg hcomplete.numbering
  have hreach := length_finished h hpoints hcomplete
  have hpoints' : points = G.flatten.length + 1 := by simpa using hpoints.length_eq.symm
  have hlength := h.length_eq
  have hsize : (ofArrows points T.arrows finish vars).edges.size = T.length := by
    simp [ofArrows, Marked.arrows]
  -- edges are counted on the arrows, where the course knows their number
  have hcount : ∀ k : ActionKind, (ofArrows points T.arrows finish vars).edges.toList.countP
      (·.action.kind == k) = T.countP fun x => x.1.action.kind == k := by
    intro k
    rw [count_edges fun a => a.kind == k, Marked.arrows, List.countP_map]
    rfl
  refine ⟨_, by simp only [stats, hsteps, hord, hback, bind, Except.bind]; rfl,
    ?_, ?_, ?_, ?_, ?_, ?_⟩
  · simp only [hcount, h.count_guards]
    push_cast
    rfl
  · simp only [hcount, h.count_declared]
  · simp only [hsize, ofArrows_size]
    omega
  · simp only [ofArrows_size, Walk.numbering, hreach]
    omega
  · rw [nestCount_of_course h hpoints (by simpa using hlen) hstep]
  · rw [List.countP_map, ← h.count_closing]
    rfl

end

end Graph

/-! ## Built graphs -/

open Source

/-- The course of a program goes through all its points. -/
theorem perm_of_course {finish next : Nat} {F : Figures} {M : Marked} {G : List (List Nat)}
    (h : Course F M G 0 finish) (hfinish : finish < next)
    (hpoints : ∀ q, q ∈ G.flatten ↔ q < next ∧ q ≠ finish) :
    (G.flatten ++ [finish]).Perm (List.range next) := by
  have hnodup : (G.flatten ++ [finish]).Nodup :=
    h.nodup.append (List.nodup_singleton _) (List.disjoint_singleton.mpr h.finish)
  rw [List.perm_ext_iff_of_nodup hnodup List.nodup_range]
  intro q
  rw [List.mem_append, List.mem_singleton, List.mem_range, hpoints]
  omega

/--
The figures of a built graph are those of its program: two guards for every condition, one
declaration for every declared variable, one more linearly independent path for every condition, no
node that is not reached, a loop nest for every loop outside of other loops, and an edge back for
every way in which the body of a loop comes to its end.
-/
theorem stats_of_build {p : Program} {b : Built} (h : build p = .ok b) :
    ∃ s, b.graph.stats = .ok s ∧
      s.guards = 2 * (ifCount p + loopCount p) ∧
      s.declarations = p.countP Item.isDeclaration ∧
      s.cyclomaticComplexity = 1 + ifCount p + loopCount p ∧
      s.unreachable = 0 ∧
      s.loopNests = (programStatements false p).countP Stmt.isLoop ∧
      s.loops = closings (programStatements true p) := by
  obtain ⟨vars, hvars, hg, -⟩ := build_eq_ok h
  have hp := checked_of_checkProgram hvars
  rcases lowerProgram_cases hp with rfl | ⟨T, -, hT, hflow, hdeparts⟩
  · cases hvars
    rw [hg]
    exact ⟨_, rfl, rfl, rfl, rfl, rfl, rfl, rfl⟩
  · obtain ⟨M, G, hM, hcourse⟩ := hflow.course
    have hpoints := perm_of_course hcourse (lowerProgram_finish_lt hp)
      fun q => (hcourse.mem_iff_departs hM).trans (hdeparts q)
    have hcoherent := coherent_of_build h
    rw [hg, Graph.ofProgram, ← hT, ← hM] at hcoherent ⊢
    obtain ⟨s, hs, hguards, hdeclared, hcomplexity, hunreachable, hnests, hloops⟩ :=
      Graph.stats_of_course hcourse hpoints hcoherent
    refine ⟨s, hs, ?_, hdeclared, ?_, hunreachable, hnests, hloops⟩
    · rw [hguards, programFigures]
      push_cast
      rfl
    · rw [hcomplexity, programFigures]
      push_cast
      omega

/--
Loops in a loop and in a branch, and a branch at the end of a loop:
`int x; while (x > 0) { while (x > 1) { read x; } if (x == 1) { write x; } }`
`if (x == 0) { while (x < 9) { read x; } } else { write x; }`.
-/
def nestedProgram : Program :=
  let x : Arith := .access default .scalar "x" .missing ""
  let test (op : RelOp) (n : Int) : Cond := .rel default (.rel op) x (.num default n)
  let reads : Stmt := .read default (some ⟨default, .scalar, "x", .missing, ""⟩)
  let writes : Stmt := .write default x
  [.declare default .scalar "x" 0,
    .stmt (.loop default (test .gt 0) (.ofList
      [.loop default (test .gt 1) (.ofList [reads]),
        .ifThen default (test .eq 1) (.ofList [writes])])),
    .stmt (.ifElse default (test .eq 0) (.ofList [.loop default (test .lt 9) (.ofList [reads])])
      (.ofList [writes]))]

/-- The outer loop is closed in two ways, and of its two loops only it counts as a nest. -/
theorem stats_of_build_nested :
    ∃ b, build nestedProgram = .ok b ∧ ∃ s, b.graph.stats = .ok s ∧ s.guards = 10 ∧
      s.declarations = 1 ∧ s.cyclomaticComplexity = 6 ∧ s.unreachable = 0 ∧ s.loopNests = 2 ∧
      s.loops = 4 := by
  obtain ⟨b, hb⟩ : ∃ b, build nestedProgram = .ok b := ⟨_, rfl⟩
  exact ⟨b, hb, stats_of_build hb⟩

end MicroFlow
