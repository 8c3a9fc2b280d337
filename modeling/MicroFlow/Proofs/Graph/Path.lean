import MicroFlow.Proofs.Graph.Coherent

/-!
# Paths and post-dominance

A path is the list of its edges.  A node post-dominates another when every path from the
other to the exit visits it (`PostDominates`); of a node that cannot reach the exit every
node is a post-dominator.
-/

namespace MicroFlow.Graph

/-- The edge belongs to the graph and leads from the node at `p` to the node at `q`. -/
structure Leads (g : Graph) (e : Edge) (p q : Nat) : Prop where
  mem : e ∈ g.edges
  source : e.source = .listed p
  target : e.target = .listed q

/-- A path through the graph, as the list of its edges. -/
inductive Path (g : Graph) : Nat → List Edge → Nat → Prop
  | nil (p : Nat) : Path g p [] p
  | cons {e : Edge} {es : List Edge} {p q r : Nat} (first : g.Leads e p q)
      (rest : Path g q es r) : Path g p (e :: es) r

/-- A node on a path that ends at `r`: its last node, or the source of one of its edges. -/
def Visits (es : List Edge) (r x : Nat) : Prop := x = r ∨ ∃ e ∈ es, e.source = .listed x

/-- A path from the entry leads to the node. -/
def Reachable (g : Graph) (p : Nat) : Prop := ∃ es, g.Path 0 es p

/-- A path leads from the node to the exit. -/
def ReachesExit (g : Graph) (p : Nat) : Prop := ∃ t es, g.exit = .listed t ∧ g.Path p es t

/-- Every path from the node `v` to the exit visits `x`. -/
def PostDominates (g : Graph) (x v : Nat) : Prop :=
  ∀ t es, g.exit = .listed t → g.Path v es t → Visits es t x

variable {g : Graph} {e : Edge} {p q r x : Nat} {es : List Edge}

/-- Edges lead from a node to a node. -/
theorem Leads.lt (h : g.Leads e p q) (hg : g.Coherent) : p < g.nodes.size ∧ q < g.nodes.size := by
  obtain ⟨p', q', hp, hq, hs, ht⟩ := hg.ends_listed h.mem
  rw [h.source] at hs
  rw [h.target] at ht
  cases hs
  cases ht
  exact ⟨hp, hq⟩

theorem Visits.cons (h : Visits es r x) (e : Edge) : Visits (e :: es) r x := by
  rcases h with hx | ⟨f, hf, hfx⟩
  · exact .inl hx
  · exact .inr ⟨f, List.mem_cons_of_mem _ hf, hfx⟩

/-- A path visits a node other than its start after its first edge. -/
theorem Visits.tail (h : Visits (e :: es) r x)
    (hs : e.source = .listed p) (hne : x ≠ p) : Visits es r x := by
  rcases h with hx | ⟨f, hf, hfx⟩
  · exact .inl hx
  · rcases List.mem_cons.mp hf with rfl | hf
    · rw [hs] at hfx
      cases hfx
      exact absurd rfl hne
    · exact .inr ⟨f, hf, hfx⟩

namespace Path

theorem append {fs : List Edge} (h : g.Path p es q) (k : g.Path q fs r) :
    g.Path p (es ++ fs) r := by
  induction h with
  | nil p => exact k
  | cons hfirst _ ih => exact .cons hfirst (ih k)

/-- A path can be split at every node that it visits. -/
theorem split (h : g.Path p es r) (hx : Visits es r x) :
    ∃ as bs, es = as ++ bs ∧ g.Path p as x ∧ g.Path x bs r := by
  induction h with
  | nil p =>
    rcases hx with rfl | ⟨e, he, -⟩
    · exact ⟨[], [], rfl, .nil x, .nil x⟩
    · cases he
  | @cons e es p q r hfirst hrest ih =>
    by_cases hp : x = p
    · subst hp
      exact ⟨[], e :: es, rfl, .nil x, .cons hfirst hrest⟩
    · obtain ⟨as, bs, rfl, has, hbs⟩ := ih (hx.tail hfirst.source hp)
      exact ⟨e :: as, bs, rfl, .cons hfirst has, hbs⟩

end Path

theorem Reachable.snoc (h : g.Reachable p) (he : g.Leads e p q) : g.Reachable q := by
  obtain ⟨es, hes⟩ := h
  exact ⟨es ++ [e], hes.append (.cons he (.nil q))⟩

namespace PostDominates

theorem refl (v : Nat) : g.PostDominates v v := by
  intro t es _ hpath
  cases hpath with
  | nil => exact .inl rfl
  | @cons e _ _ _ _ hfirst => exact .inr ⟨e, List.mem_cons_self .., hfirst.source⟩

variable {v : Nat}

/-- Post-dominance along an edge, from the source to the target. -/
theorem forward {w : Nat} (h : g.PostDominates x v) (he : g.Leads e v w)
    (hxv : x ≠ v) : g.PostDominates x w := by
  intro t es hexit hpath
  exact (h t (e :: es) hexit (.cons he hpath)).tail he.source hxv

/-- Post-dominance along an edge, from all targets to the source. -/
theorem backward (hv : g.exit ≠ .listed v)
    (h : ∀ e w, g.Leads e v w → g.PostDominates x w) : g.PostDominates x v := by
  intro t es hexit hpath
  cases hpath with
  | nil => exact absurd hexit hv
  | @cons e es _ w _ hfirst hrest => exact (h e w hfirst t es hexit hrest).cons e

/-- What post-dominates a node that reaches the exit reaches it too. -/
theorem reachesExit (h : g.PostDominates x v) (hv : g.ReachesExit v) : g.ReachesExit x := by
  obtain ⟨t, es, hexit, hpath⟩ := hv
  obtain ⟨_, bs, _, _, hbs⟩ := hpath.split (h t es hexit hpath)
  exact ⟨t, bs, hexit, hbs⟩

/-- Two nodes that reach the exit do not post-dominate each other. -/
theorem antisymm (hx : g.PostDominates x v) (hv : g.PostDominates v x)
    (hreach : g.ReachesExit v) : x = v := by
  obtain ⟨t, es, hexit, hpath⟩ := hreach
  -- a path from either node visits the other one, and goes on from there with fewer edges
  induction hn : es.length using Nat.strongRecOn generalizing x v es with
  | ind n ih =>
    obtain ⟨as, bs, rfl, has, hbs⟩ := hpath.split (hx t es hexit hpath)
    cases has with
    | nil => rfl
    | cons =>
      refine (ih bs.length ?_ hv hx bs hbs rfl).symm
      rw [← hn, List.length_append, List.length_cons]
      omega

end PostDominates

end MicroFlow.Graph
