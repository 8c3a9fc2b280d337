import MicroFlow.Proofs.Dependence.Control
import MicroFlow.Proofs.Flow.PathSolution

/-!
# Data dependences are exact

An edge depends by data on another when the other writes into a variable that the edge uses, and a
path leads from there to the edge that does not overwrite the variable.  In the graph of a program
these are all data dependences (`data_dependences_are_exact`).
-/

namespace MicroFlow

/-- A path can be split anywhere. -/
theorem Graph.Path.of_append {g : Graph} {p r : Nat} {es fs : List Edge}
    (h : g.Path p (es ++ fs) r) : ∃ q, g.Path p es q ∧ g.Path q fs r := by
  induction es generalizing p with
  | nil => exact ⟨p, .nil p, h⟩
  | cons e es ih =>
    cases h with
    | cons hfirst hrest =>
      obtain ⟨q, hes, hfs⟩ := ih hrest
      exact ⟨q, .cons hfirst hes, hfs⟩

/-! ## Sites -/

/-- The value that the edge gives to the variable can be there at the node: a path leads from the
edge to the node, and none of its edges assigns or reads into the variable as a scalar. -/
def Graph.Delivers (g : Graph) (f : Edge) (x : String) (q : Nat) : Prop :=
  f.action.WritesInto x ∧ ∃ u es, f.target = .listed u ∧ g.Path u es q ∧
    ∀ s ∈ es, ¬ s.action.WritesScalar x

/-- The sites of a variable at a node, where every node can be reached. -/
theorem mem_sites_iff {g : Graph} (hg : g.Coherent) (hreach : ∀ q, q < g.nodes.size → g.Reachable q)
    {V : Values Definitions} (hV : (reachingDefinitionsDomain hg).Least V) {q : Nat}
    (hq : q < g.nodes.size) {m : Definitions} (hm : V.value q = some m) {d : Declaration}
    (hd : d ∈ g.vars) {j : Nat} :
    j ∈ (m.sites g.vars d.name).1 ↔ ∃ f, g.edges[j]? = some f ∧ g.Delivers f d.name q := by
  rw [((sites_of_least hg hV hq).2 m hm d hd).1 j]
  constructor
  · rintro ⟨f, before, behind, hj, hwrites, hpath, hkeep⟩
    obtain ⟨p, -, hpath⟩ := hpath.of_append
    cases hpath with
    | cons hfirst hrest => exact ⟨f, hj, hwrites, _, behind, hfirst.target, hrest, hkeep⟩
  · rintro ⟨f, hj, hwrites, u, behind, htarget, hpath, hkeep⟩
    have hf : f ∈ g.edges := Array.mem_of_getElem? hj
    obtain ⟨p, -, hp, -, hsource, -⟩ := hg.ends_listed hf
    obtain ⟨before, hbefore⟩ := hreach p hp
    exact ⟨f, before, behind, hj, hwrites, hbefore.append (.cons ⟨hf, hsource, htarget⟩ hpath),
      hkeep⟩

namespace DependenceGraph

variable {g : Graph} {e : Edge}

/-- What is listed for one edge. -/
theorem mem_dataDependences_iff {vars : Variables} {m : Definitions} {x : Dependence} :
    x ∈ dataDependences vars (some m) e ↔ x.kind = .data ∧ x.target = e.id ∧
      e.action.Mentions x.label ∧ ∃ j : Nat, x.source = j ∧ j ∈ (m.sites vars x.label).1 := by
  simp only [dataDependences, List.mem_flatMap, List.mem_map, mem_firstNames]
  constructor
  · rintro ⟨y, ⟨use, huse, rfl⟩, j, hj, rfl⟩
    exact ⟨rfl, rfl, ⟨use, huse, rfl⟩, j, rfl, hj⟩
  · obtain ⟨source, target, kind, label⟩ := x
    rintro ⟨rfl, rfl, ⟨use, huse, rfl⟩, j, rfl, hj⟩
    exact ⟨use.name, ⟨use, huse, rfl⟩, j, hj, rfl⟩

/-- The dependences by data of a coherent graph in which every node can be reached. -/
theorem mem_dependences_iff (hg : g.Coherent) (hreach : ∀ q, q < g.nodes.size → g.Reachable q)
    {d : DependenceGraph} (h : ofGraph g = .ok d) {i j : Int} {x : String} :
    ⟨j, i, .data, x⟩ ∈ d.dependences ↔ ∃ f e, f ∈ g.edges ∧ f.id = j ∧ e ∈ g.edges ∧ e.id = i ∧
      e.action.Mentions x ∧ ∃ q, e.source = .listed q ∧ g.Delivers f x q := by
  obtain ⟨V, sets, lists, hV, hdeps, hlists⟩ := ofGraph_cases hg h
  -- the sites that reach the start of an edge, for a variable that the edge uses
  have hsites : ∀ {e : Edge} {q : Nat} {m : Definitions} {k : Nat}, e ∈ g.edges →
      q < g.nodes.size → V.value q = some m → e.action.Mentions x →
      (k ∈ (m.sites g.vars x).1 ↔ ∃ f, g.edges[k]? = some f ∧ g.Delivers f x q) := by
    rintro e q m k he hq hm ⟨use, huse, rfl⟩
    obtain ⟨v, hv⟩ := (hg.declared he).use huse
    obtain ⟨decl, hdecl, hname, -⟩ := Variables.of_eq_some hv
    rw [← hname]
    exact mem_sites_iff hg hreach hV hq hm (List.mem_of_getElem? hdecl)
  rw [hdeps, List.mem_flatten]
  constructor
  · rintro ⟨ds, hds, hmem⟩
    obtain ⟨e, he, hok⟩ := (mem_of_mapM_eq_ok hlists).1 ds hds
    rw [Array.mem_toList_iff] at he
    obtain ⟨q, cs, hq, hs, hcs, rfl⟩ := dependencesOf_cases hg hV.solves.size he hok
    rcases List.mem_append.mp hmem with hmem | hmem
    · obtain ⟨m, hm⟩ := exists_value_of_reachable hg hV (hreach q hq)
      rw [hm] at hmem
      obtain ⟨-, htarget, huse, k, hk, hsite⟩ := mem_dataDependences_iff.mp hmem
      obtain ⟨f, hf, hdelivers⟩ := (hsites he hq hm huse).mp hsite
      have hid : f.id = k := hg.valid.edge_id k f hf
      exact ⟨f, e, Array.mem_of_getElem? hf, hid.trans hk.symm, he, htarget.symm, huse, q, hs,
        hdelivers⟩
    · cases (of_mem_control hcs hmem).2
  · rintro ⟨f, e, hf, rfl, he, rfl, huse, q, hs, hdelivers⟩
    obtain ⟨ds, hds, hok⟩ := (mem_of_mapM_eq_ok hlists).2 e (by simpa using he)
    obtain ⟨p, cs, hp, hs', -, rfl⟩ := dependencesOf_cases hg hV.solves.size he hok
    cases hs.symm.trans hs'
    obtain ⟨m, hm⟩ := exists_value_of_reachable hg hV (hreach q hp)
    obtain ⟨k, -, hk, hid⟩ := hg.edge_id hf
    refine ⟨_, hds, List.mem_append_left _ ?_⟩
    rw [hm, mem_dataDependences_iff]
    exact ⟨rfl, rfl, huse, k, hid, (hsites he hp hm huse).mpr ⟨f, hk, hdelivers⟩⟩

/-! ## Nothing is listed twice -/

theorem nodup_firstNames (xs : List String) : (firstNames xs).Nodup := by
  induction xs with
  | nil => exact List.nodup_nil
  | cons x rest ih =>
    rw [firstNames, List.nodup_cons]
    exact ⟨by simp, ih.filter _⟩

/-- The sites of a variable are listed once each. -/
theorem nodup_sites (vars : Variables) (m : Definitions) (x : String) :
    (m.sites vars x).1.Nodup := by
  unfold Definitions.sites
  split
  · exact List.nodup_nil
  · refine (List.nodup_range.filter _).filterMap fun a b s ha hb => ?_
    have hsucc :
        ∀ c, (s ∈ if c = Definitions.entrySite then none else some (c - 1)) → c = s + 1 := by
      intro c hc
      split at hc
      · cases hc
      · rename_i hne
        have hs : c - 1 = s := Option.some.inj hc
        unfold Definitions.entrySite at hne
        omega
    rw [hsucc a ha, hsucc b hb]

/-- Nothing is listed twice by the names and sites of one edge. -/
theorem nodup_dataDependences (vars : Variables) (m : Option Definitions) (e : Edge) :
    (dataDependences vars m e).Nodup := by
  cases m with
  | none => exact List.nodup_nil
  | some m =>
    rw [dataDependences, List.nodup_flatMap]
    refine ⟨fun x _ => (nodup_sites vars m x).map fun i j hij => ?_,
      (nodup_firstNames _).imp fun hne y hy hy' => ?_⟩
    · exact Int.ofNat.inj (congrArg Dependence.source hij)
    · obtain ⟨_, -, rfl⟩ := List.mem_map.mp hy
      obtain ⟨_, -, heq⟩ := List.mem_map.mp hy'
      exact hne (congrArg Dependence.label heq).symm

/-- Nor by its guards. -/
theorem nodup_controlDependences (hg : g.Coherent) {sets : DominatorSets}
    {cs : List Dependence} (h : controlDependences g sets e = .ok cs) : cs.Nodup := by
  simp only [controlDependences, bind_eq_ok] at h
  obtain ⟨n, -, guards, hguards, h⟩ := h
  cases h
  have hsub : guards.Sublist g.edges.toList :=
    (sublist_of_filterM_eq_ok hguards).trans List.filter_sublist
  have hids : (guards.map Edge.id).Nodup := (hsub.map Edge.id).nodup hg.nodup_ids
  refine List.Nodup.of_map Dependence.source ?_
  rw [List.map_map]
  exact hids

/-- The dependences of one edge are into the edge, and none is listed twice. -/
theorem nodup_dependencesOf (hg : g.Coherent) {values : Values Definitions}
    (hvalues : values.size = g.nodes.size) {sets : DominatorSets} (he : e ∈ g.edges)
    {ds : List Dependence} (h : dependencesOf g values sets e = .ok ds) :
    ds.Nodup ∧ ∀ x ∈ ds, x.target = e.id := by
  obtain ⟨p, cs, -, -, hcs, rfl⟩ := dependencesOf_cases hg hvalues he h
  refine ⟨List.nodup_append.mpr
    ⟨nodup_dataDependences _ _ _, nodup_controlDependences hg hcs, ?_⟩, ?_⟩
  · rintro x hx y hy rfl
    have hkind := kind_of_mem_data hx
    rw [(of_mem_control hcs hy).2] at hkind
    cases hkind
  · intro x hx
    rcases List.mem_append.mp hx with hx | hx
    · cases hm : values.value p with
      | none =>
        rw [hm] at hx
        cases hx
      | some m =>
        rw [hm] at hx
        exact (mem_dataDependences_iff.mp hx).2.1
    · exact (of_mem_control hcs hx).1

/-- Lists of dependences into different edges have nothing in common. -/
theorem nodup_flatten {es : List Edge} {lists : List (List Dependence)}
    (h : List.Forall₂ (fun e ds => ds.Nodup ∧ ∀ x ∈ ds, x.target = e.id) es lists)
    (hids : (es.map Edge.id).Nodup) :
    lists.flatten.Nodup ∧ ∀ x ∈ lists.flatten, x.target ∈ es.map Edge.id := by
  induction h with
  | nil => simp
  | @cons e ds es lists hds _ ih =>
    rw [List.map_cons, List.nodup_cons] at hids
    obtain ⟨hnodup, htargets⟩ := ih hids.2
    rw [List.flatten_cons]
    refine ⟨List.nodup_append.mpr ⟨hds.1, hnodup, ?_⟩, fun x hx => ?_⟩
    · rintro x hx y hy rfl
      have htarget := htargets x hy
      rw [hds.2 x hx] at htarget
      exact hids.1 htarget
    · rw [List.map_cons, List.mem_cons]
      rcases List.mem_append.mp hx with hx | hx
      · exact .inl (hds.2 x hx)
      · exact .inr (htargets x hx)

/-- Nor by different edges. -/
theorem nodup_dependences (hg : g.Coherent) {d : DependenceGraph} (h : ofGraph g = .ok d) :
    d.dependences.Nodup := by
  obtain ⟨V, sets, lists, hV, hdeps, hlists⟩ := ofGraph_cases hg h
  rw [hdeps]
  refine (nodup_flatten ?_ hg.nodup_ids).1
  have hlisted := (List.forall₂_and_left (p := (· ∈ g.edges.toList)) ..).mpr
    ⟨fun e he => he, mapM_eq_ok.mp hlists⟩
  refine hlisted.imp fun e ds hok => ?_
  exact nodup_dependencesOf hg hV.solves.size (by simpa using hok.1) hok.2

end DependenceGraph

open Source

/--
Data dependences are exact.  In the graph of a program an edge depends by data on another, with a
variable as the label, exactly when the other assigns or reads into the variable, the edge uses it,
and a path from the end of the other to the start of the edge, possibly an empty one, has no edge
that assigns or reads into the variable as a scalar.  No dependence is listed twice.
-/
theorem data_dependences_are_exact {p : Program} {b : Built} (h : build p = .ok b) :
    ∃ d, DependenceGraph.ofGraph b.graph = .ok d ∧ d.dependences.Nodup ∧
      ∀ (i j : Int) (x : String), ⟨j, i, .data, x⟩ ∈ d.dependences ↔
        ∃ f e, f ∈ b.graph.edges ∧ f.id = j ∧ e ∈ b.graph.edges ∧ e.id = i ∧
          f.action.WritesInto x ∧ e.action.Mentions x ∧
          ∃ u v es, f.target = .listed u ∧ e.source = .listed v ∧ b.graph.Path u es v ∧
            ∀ s ∈ es, ¬ s.action.WritesScalar x := by
  have hg := coherent_of_build h
  obtain ⟨d, hd, -⟩ := DependenceGraph.ofGraph_eq_ok hg
  refine ⟨d, hd, DependenceGraph.nodup_dependences hg hd, fun i j x => ?_⟩
  rw [DependenceGraph.mem_dependences_iff hg (fun q hq => (between_of_build h hq).1) hd]
  constructor
  · rintro ⟨f, e, hf, hj, he, hi, huse, v, hs, hwrites, u, es, ht, hpath, hkeep⟩
    exact ⟨f, e, hf, hj, he, hi, hwrites, huse, u, v, es, ht, hs, hpath, hkeep⟩
  · rintro ⟨f, e, hf, hj, he, hi, hwrites, huse, u, v, es, ht, hs, hpath, hkeep⟩
    exact ⟨f, e, hf, hj, he, hi, huse, v, hs, hwrites, u, es, ht, hpath, hkeep⟩

/-- Reads an index and copies an element, found by way of another, to the places below it:
`int i; int[3] A; read i; while (i > 0) { A[i] := A[A[0]]; i := i - 1; } write A[0];`. -/
def gatherProgram : Program :=
  let i : Arith := .access default .scalar "i" .missing ""
  let element (index : Arith) : Arith := .access default .array "A" index ""
  [.declare default .scalar "i" 0, .declare default .array "A" 3,
    .stmt (.read default (some ⟨default, .scalar, "i", .missing, ""⟩)),
    .stmt (.loop default (.rel default (.rel .gt) i (.num default 0))
      (.ofList [.assign default (some ⟨default, .array, "A", i, ""⟩)
          (element (element (.num default 0))),
        .assign default (some ⟨default, .scalar, "i", .missing, ""⟩)
          (.binary default (.arith .sub) i (.num default 1))])),
    .stmt (.write default (element (.num default 0)))]

/-- The loop of `gatherProgram`. -/
def gatherStep : Nat → Edge
  | 3 => ⟨3, .listed 3, .listed 4, .branch (.node (.rel .gt) (.scalar "i") (.literal 0))⟩
  | 4 => ⟨4, .listed 4, .listed 5, .assign (.element "A" (.scalar "i") none)
      (.element "A" (.element "A" (.literal 0) none) none)⟩
  | _ => ⟨5, .listed 5, .listed 3, .assign (.scalar "i")
      (.node (.arith .sub) (.scalar "i") (.literal 1))⟩

/-- On the way round the loop the copy depends on itself, though it uses the array twice only
once; and on the new index, which is set behind it and which its target alone uses.  The last edge
does not depend on the index. -/
theorem data_dependences_are_exact_gather :
    ∃ b d, build gatherProgram = .ok b ∧ DependenceGraph.ofGraph b.graph = .ok d ∧
      d.dependences.Nodup ∧ ⟨4, 4, .data, "A"⟩ ∈ d.dependences ∧
      ⟨5, 4, .data, "i"⟩ ∈ d.dependences ∧ ⟨5, 7, .data, "i"⟩ ∉ d.dependences := by
  obtain ⟨b, hb, h3, h4, h5, h7⟩ : ∃ b, build gatherProgram = .ok b ∧
      b.graph.edges[3]? = some (gatherStep 3) ∧ b.graph.edges[4]? = some (gatherStep 4) ∧
      b.graph.edges[5]? = some (gatherStep 5) ∧ b.graph.edges[7]? = some
        ⟨7, .listed 6, .listed 7, .write (.element "A" (.literal 0) none)⟩ :=
    ⟨_, rfl, rfl, rfl, rfl, rfl⟩
  obtain ⟨d, hd, hnodup, hiff⟩ := data_dependences_are_exact hb
  have m3 := Array.mem_of_getElem? h3
  have m4 := Array.mem_of_getElem? h4
  have m5 := Array.mem_of_getElem? h5
  have hguard : b.graph.Leads (gatherStep 3) 3 4 := ⟨m3, rfl, rfl⟩
  have hround : b.graph.Leads (gatherStep 5) 5 3 := ⟨m5, rfl, rfl⟩
  refine ⟨b, d, hb, hd, hnodup, ?_, ?_, ?_⟩
  · refine (hiff 4 4 "A").mpr ⟨gatherStep 4, gatherStep 4, m4, rfl, m4, rfl,
      ⟨.inl rfl, _, rfl, rfl⟩, ⟨_, List.mem_cons_self .., rfl⟩, 5, 4, [gatherStep 5, gatherStep 3],
      rfl, rfl, .cons hround (.cons hguard (.nil 4)), ?_⟩
    rintro s hs ⟨-, htarget⟩
    simp only [List.mem_cons, List.not_mem_nil, or_false] at hs
    rcases hs with rfl | rfl
    · exact absurd htarget (by decide)
    · exact absurd htarget (by decide)
  · refine (hiff 4 5 "i").mpr ⟨gatherStep 5, gatherStep 4, m5, rfl, m4, rfl,
      ⟨.inl rfl, _, rfl, rfl⟩, ⟨.scalar "i", by decide, rfl⟩, 3, 4, [gatherStep 3],
      rfl, rfl, .cons hguard (.nil 4), ?_⟩
    rintro s hs ⟨-, htarget⟩
    rw [List.mem_singleton.mp hs] at htarget
    exact absurd htarget (by decide)
  · rw [hiff]
    rintro ⟨f, e, -, -, he, hid, -, ⟨use, huse, hname⟩, -⟩
    -- the last edge is the only one of its number
    obtain ⟨k, -, hk, hkid⟩ := (coherent_of_build hb).edge_id he
    obtain rfl : k = 7 := by omega
    cases h7.symm.trans hk
    rw [List.mem_singleton.mp huse] at hname
    exact absurd hname (by decide)

end MicroFlow
