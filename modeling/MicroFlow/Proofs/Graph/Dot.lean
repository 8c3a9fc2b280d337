import MicroFlow.Graph.Dot
import MicroFlow.Proofs.Graph.Coherent

/-!
# Drawings of coherent graphs

A drawing joins edges between the same two nodes into one line, and breaks off at an edge from
a node to itself.  A coherent graph without such edges (`Graph.Plain`) is drawn: the text has a
head, the lines of the nodes, and for each edge a line of its own (`Graph.IsDrawing`,
`Coherent.exists_dot`).

The lines are made one after the other.  What carries the induction is that the lines so far
are those of the edges so far: the next edge differs in an end from all of them, so its label
starts a new line (`Dot.addLabel_new`).
-/

namespace MicroFlow

/-- A label for ends that have no line yet starts a line. -/
theorem Dot.addLabel_new {source target : Int} {label : String} {lines : List DotEdge}
    (h : ∀ line ∈ lines, ¬ (line.source = source ∧ line.target = target)) :
    Dot.addLabel source target label lines = lines ++ [⟨source, target, [label]⟩] := by
  induction lines with
  | nil => rfl
  | cons line rest ih =>
    rw [Dot.addLabel, if_neg (h line (List.mem_cons_self ..)), List.cons_append]
    rw [ih fun l hl => h l (List.mem_cons_of_mem _ hl)]

namespace Graph

/-- No edge leads from a node to itself, and no two edges have the same ends. -/
structure Plain (g : Graph) : Prop where
  loopless : ∀ e ∈ g.edges, e.source ≠ e.target
  distinct : ∀ (i j : Nat) (e f : Edge), g.edges[i]? = some e → g.edges[j]? = some f →
    e.source = f.source → e.target = f.target → i = j

/-- The line of an edge: it has the ends of the edge, and its action is the only label. -/
def DrawnAs (g : Graph) (e : Edge) (line : DotEdge) : Prop :=
  ∃ text, g.ends e = .ok (line.source, line.target) ∧ e.action.text? = some text ∧
    line.labels = [text]

/-- How a node is written in a drawing. -/
def IsNodeLine (n : Node) (line : String) : Prop :=
  line = "  q" ++ toString n.id ++ " [shape=" ++
    (if n.terminal then "doublecircle" else "circle") ++ "];\n"

/-- How an edge is written in a drawing: its ends, and the text of its action. -/
def IsEdgeLine (g : Graph) (e : Edge) (line : String) : Prop :=
  ∃ i j label, g.ends e = .ok (i, j) ∧ e.action.text? = some label ∧
    line = "  q" ++ toString i ++ " -> q" ++ toString j ++ " [label=" ++ Text.quote label ++ "];\n"

/--
The text of a drawing: the head with the name, a line for each node in the order of their numbers,
and a line for each edge, in some order.
-/
def IsDrawing (g : Graph) (name text : String) : Prop :=
  ∃ (nodes : List Node) (nodeLines edgeLines sorted : List String),
    g.nodes.toList = nodes.map some ∧ List.Forall₂ IsNodeLine nodes nodeLines ∧
    List.Forall₂ g.IsEdgeLine g.edges.toList edgeLines ∧ sorted.Perm edgeLines ∧
    text = "strict digraph " ++ (if name = "" then "" else Dot.identifier name ++ " ") ++
      "\x7b\n" ++
      "  // Node definitions.\n" ++ String.join nodeLines ++
      (if sorted = [] then "" else "\n  // Edge definitions.\n" ++ String.join sorted) ++ "\x7d"

/-- The number of a node is written without quotes. -/
theorem nodeId_natCast (n : Nat) : Dot.nodeId n = "q" ++ toString (n : Int) := by
  have hdigits : ∀ c ∈ (toString n).toList, c.isDigit = true := by
    intro c hc
    have hrepr : (toString n).toList = Nat.toDigits 10 n := Nat.toList_repr
    rw [hrepr] at hc
    exact Nat.isDigit_of_mem_toDigits (by decide) (by decide) hc
  have hchars : ("q" ++ toString n).toList = 'q' :: (toString n).toList := by simp
  have hname : Dot.isName ("q" ++ toString n) = true := by
    rw [Dot.isName, hchars]
    simp only [List.all_cons, List.all_eq_true, Bool.and_eq_true]
    refine ⟨rfl, rfl, fun c hc => ?_⟩
    simp [Char.isAlphanum, hdigits c hc]
  -- no word of the language starts with this letter
  have hword : Dot.keywords.contains ("q" ++ toString n).toLower = false := by
    have hfirst : ("q" ++ toString n).toLower.toList.head? = some 'q' := by
      show (String.map Char.toLower ("q" ++ toString n)).toList.head? = some 'q'
      simp
    have hothers : ∀ w ∈ Dot.keywords, w.toList.head? ≠ some 'q' := by decide
    rw [List.contains_eq_mem, decide_eq_false_iff_not]
    exact fun hmem => hothers _ hmem hfirst
  show Dot.identifier ("q" ++ toString n) = "q" ++ toString n
  rw [Dot.identifier, hname, hword]
  rfl

/-- Nodes that pass the check are drawn in their order, which is that of their numbers. -/
theorem exists_dotNodes {slot : Nat} {nodes : List (Option Node)} (seen : List Int)
    (h : checkNodes slot nodes = .ok ()) (hseen : ∀ id ∈ seen, id < slot) :
    ∃ drawn, dotNodes seen nodes = .ok drawn ∧ nodes = drawn.map some ∧
      (∀ n ∈ drawn, ∃ k : Nat, slot ≤ k ∧ n.id = k) ∧ drawn.Pairwise (·.id ≤ ·.id) := by
  induction nodes generalizing slot seen with
  | nil => exact ⟨[], rfl, rfl, by simp, .nil⟩
  | cons x rest ih =>
    cases x with
    | none => cases h
    | some n =>
      rw [checkNodes] at h
      split at h
      · rename_i hid
        -- numbers go up, so none was seen before
        have hnew : seen.contains n.id = false := by
          rw [List.contains_eq_mem, decide_eq_false_iff_not]
          intro hmem
          have := hseen n.id hmem
          omega
        obtain ⟨drawn, hdrawn, hrest, hids, hsorted⟩ := ih (n.id :: seen) h (by
          intro id hmem
          rcases List.mem_cons.mp hmem with rfl | hmem
          · omega
          · have := hseen id hmem
            omega)
        refine ⟨n :: drawn, ?_, by rw [hrest, List.map_cons], fun m hm => ?_, ?_⟩
        · rw [dotNodes, hnew, hdrawn]
          rfl
        · rcases List.mem_cons.mp hm with rfl | hm
          · exact ⟨slot, Nat.le_refl _, hid⟩
          · obtain ⟨k, hk, hmid⟩ := hids m hm
            exact ⟨k, by omega, hmid⟩
        · refine List.pairwise_cons.mpr ⟨fun m hm => ?_, hsorted⟩
          obtain ⟨k, hk, hmid⟩ := hids m hm
          omega
      · cases h

namespace Coherent

variable {g : Graph} (h : g.Coherent)

include h

/-- Edges with the same numbers have the same ends. -/
theorem ends_inj {e f : Edge} (he : e ∈ g.edges) (hf : f ∈ g.edges)
    (heq : g.ends e = g.ends f) : e.source = f.source ∧ e.target = f.target := by
  obtain ⟨p, q, -, -, hs, ht⟩ := h.ends_listed he
  obtain ⟨p', q', -, -, hs', ht'⟩ := h.ends_listed hf
  rw [h.ends he hs ht, h.ends hf hs' ht'] at heq
  have hpq := Except.ok.inj heq
  have hp : p = p' := Int.ofNat.inj (congrArg Prod.fst hpq)
  have hq : q = q' := Int.ofNat.inj (congrArg Prod.snd hpq)
  rw [hs, hs', ht, ht', hp, hq]
  exact ⟨rfl, rfl⟩

/-- The edges from some position on are drawn behind the lines of those before them. -/
theorem foldlM_dotEdge (hp : g.Plain) (rest : List Edge) :
    ∀ (done : List Edge) (lines : List DotEdge), g.edges.toList = done ++ rest →
      List.Forall₂ g.DrawnAs done lines →
      ∃ more, rest.foldlM g.dotEdge lines = .ok (lines ++ more) ∧
      List.Forall₂ g.DrawnAs rest more := by
  induction rest with
  | nil =>
    intro done lines _ _
    exact ⟨[], by rw [List.append_nil]; rfl, .nil⟩
  | cons e rest ih =>
    intro done lines hsplit hdone
    have hmem : ∀ f ∈ done ++ e :: rest, f ∈ g.edges := by
      intro f hf
      rw [← hsplit] at hf
      exact Array.mem_toList_iff.mp hf
    have he : e ∈ g.edges := hmem e (by simp)
    obtain ⟨p, q, hpn, hqn, hs, ht⟩ := h.ends_listed he
    obtain ⟨n, hn, -, hnid⟩ := h.nodeAt hpn
    obtain ⟨m, hm, -, hmid⟩ := h.nodeAt hqn
    obtain ⟨text, htext⟩ := Action.exists_text (h.valid.action e he)
    have hends := h.ends he hs ht
    have hne : ¬ n.id = m.id := by
      intro heq
      have hpq : p = q := by omega
      exact hp.loopless e he (by rw [hs, ht, hpq])
    -- no line so far has the ends of this edge
    have hnew : ∀ line ∈ lines, ¬ (line.source = n.id ∧ line.target = m.id) := by
      rintro line hline ⟨hsource, htarget⟩
      obtain ⟨k, hk, rfl⟩ := List.mem_iff_getElem.mp hline
      have hk' : k < done.length := hdone.length_eq ▸ hk
      obtain ⟨_, hfends, -, -⟩ := hdone.get hk' hk
      rw [List.get_eq_getElem, List.get_eq_getElem] at hfends
      rw [hsource, htarget, hnid, hmid, ← hends] at hfends
      obtain ⟨hss, htt⟩ := h.ends_inj (hmem done[k] (by simp)) he hfends
      have hdk : g.edges[k]? = some done[k] := by
        rw [← Array.getElem?_toList, hsplit, List.getElem?_append_left hk']
        simp
      have hde : g.edges[done.length]? = some e := by
        rw [← Array.getElem?_toList, hsplit]
        simp
      have := hp.distinct k done.length done[k] e hdk hde hss htt
      omega
    obtain ⟨more, hmore, hall⟩ := ih (done ++ [e]) (lines ++ [⟨n.id, m.id, [text]⟩])
      (by rw [hsplit]; simp)
      (List.rel_append hdone (.cons ⟨text, by rw [hends, hnid, hmid], htext, rfl⟩ .nil))
    refine ⟨⟨n.id, m.id, [text]⟩ :: more, ?_, .cons ⟨text, by rw [hends, hnid, hmid], htext, rfl⟩
      hall⟩
    have hline : g.dotEdge lines e = .ok (lines ++ [⟨n.id, m.id, [text]⟩]) := by
      rw [dotEdge, hends]
      simp only [bind, Except.bind, slotOf_natCast hpn, slotOf_natCast hqn, hn, hm, htext,
        if_neg hne, Dot.addLabel_new hnew]
      rfl
    rw [List.foldlM_cons, hline]
    show rest.foldlM g.dotEdge (lines ++ [⟨n.id, m.id, [text]⟩]) = _
    rw [hmore, List.append_assoc]
    rfl

/-- Each edge has a line of its own. -/
theorem exists_dotEdges (hp : g.Plain) :
    ∃ lines, g.dotEdges = .ok lines ∧ List.Forall₂ g.DrawnAs g.edges.toList lines := by
  obtain ⟨lines, hlines, hall⟩ := h.foldlM_dotEdge hp g.edges.toList [] [] rfl .nil
  exact ⟨lines, hlines, hall⟩

/-- A line with the ends and the label of an edge is written as such. -/
theorem isEdgeLine_of_drawnAs {e : Edge} (he : e ∈ g.edges) {line : DotEdge}
    (hline : g.DrawnAs e line) : g.IsEdgeLine e (Dot.edgeLine line) := by
  obtain ⟨label, hends, hlabel, hlabels⟩ := hline
  obtain ⟨p, q, -, -, hs, ht⟩ := h.ends_listed he
  have hpq := Except.ok.inj ((h.ends he hs ht).symm.trans hends)
  have hp : line.source = p := (congrArg Prod.fst hpq).symm
  have hq : line.target = q := (congrArg Prod.snd hpq).symm
  refine ⟨_, _, label, hends, hlabel, ?_⟩
  rw [Dot.edgeLine, hlabels, hp, hq, nodeId_natCast, nodeId_natCast]
  apply String.toList_inj.mp
  simp

/--
A coherent graph in which no two edges have the same ends is drawn, with a line for each node and
a line for each edge.
-/
theorem exists_dot (hp : g.Plain) (name : String) :
    ∃ text, g.dot name = .ok text ∧ g.IsDrawing name text := by
  have hnodes : checkNodes 0 g.nodes.toList = .ok () := by
    have hv := h.validated
    rw [validate, check_bind_eq_ok] at hv
    exact hv.1
  obtain ⟨drawn, hdrawn, hall, hids, hsorted⟩ := exists_dotNodes [] hnodes (by simp)
  obtain ⟨lines, hlines, hdrawnAs⟩ := h.exists_dotEdges hp
  refine ⟨Dot.text name drawn (lines.mergeSort DotEdge.before), ?_, drawn, drawn.map Dot.nodeLine,
    lines.map Dot.edgeLine, (lines.mergeSort DotEdge.before).map Dot.edgeLine, hall, ?_, ?_,
    (List.mergeSort_perm lines _).map Dot.edgeLine, ?_⟩
  · rw [dot, hdrawn, hlines]
    show Except.ok (Dot.text name (drawn.mergeSort _) _) = _
    rw [List.mergeSort_of_pairwise (by simpa using hsorted)]
  · rw [List.forall₂_map_right_iff, List.forall₂_same]
    intro n hn
    obtain ⟨k, -, hk⟩ := hids n hn
    rw [IsNodeLine, Dot.nodeLine, hk, nodeId_natCast]
    apply String.toList_inj.mp
    simp
  · rw [List.forall₂_map_right_iff]
    exact List.forall₂_iff_get.mpr ⟨hdrawnAs.length_eq, fun i hi hi' =>
      h.isEdgeLine_of_drawnAs (Array.mem_toList_iff.mp (List.get_mem ..)) (hdrawnAs.get hi hi')⟩
  · simp only [Dot.text, Dot.head, beq_iff_eq, List.isEmpty_iff, List.map_eq_nil_iff,
      String.append_assoc]

end Coherent

end Graph

end MicroFlow
