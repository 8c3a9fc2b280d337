import MicroFlow.Proofs.Graph.Path
import MicroFlow.Proofs.Semantics.Run

/-!
# What a closed set of nodes sees of a run

Two runs of a graph from one store receive different input.  Which nodes cannot tell them
apart?  A set of nodes is closed (`Closed`) when it has, with a node, the source of every edge
on which an action at the node depends: of a definition whose value can reach a use at the
node, and of a guard that decides whether the node is passed.

From a node a run gets to the set at one place only (`Next.unique`): a guard on which the place
depended would belong to the set.  So when a run is outside the set, everything that is still
to be seen is settled by the next place and by the variables that are relevant there
(`Relevant`).  Two runs that have this in common are `Aligned`, and they observe the same.
-/

namespace MicroFlow

/-! ## Dependence by paths -/

variable {p q i : Nat} {e : Edge}

namespace Graph

/-- An action on an edge that leaves the node uses the variable. -/
def UsedAt (g : Graph) (x : String × Kind) (n : Nat) : Prop :=
  ∃ e ∈ g.edges, e.source = .listed n ∧ ∃ u ∈ e.action.uses, u.var = x

/-- A value that the variable has at `p` can still be there at `q`. -/
def Carries (g : Graph) (x : String × Kind) (p q : Nat) : Prop :=
  ∃ es, g.Path p es q ∧ ∀ e ∈ es, ¬ e.action.Replaces x

/-- A set of nodes with the sources of all edges that its nodes depend on. -/
structure Closed (g : Graph) (O : Nat → Prop) : Prop where
  data : ∀ {f : Edge} {p q n : Nat} {x : String × Kind}, g.Leads f p q → g.Reachable p →
    f.action.Writes x → g.Carries x q n → g.UsedAt x n → O n → O p
  control : ∀ {f : Edge} {p q m : Nat}, g.Leads f p q → f.action.kind = .boolean →
    g.PostDominates m q → ¬ g.PostDominates m p → O m → O p

/-- A path leads from `p` to the node `m` of the set, and to none before. -/
def Next (g : Graph) (O : Nat → Prop) (p m : Nat) : Prop :=
  O m ∧ ∃ es, g.Path p es m ∧ ∀ e ∈ es, ∀ k, e.source = .listed k → ¬ O k

/-- The value that the variable has at `m` can be used at a node of the set. -/
def Relevant (g : Graph) (O : Nat → Prop) (x : String × Kind) (m : Nat) : Prop :=
  ∃ n, O n ∧ g.UsedAt x n ∧ g.Carries x m n

variable {g : Graph} {O : Nat → Prop}

theorem Carries.refl (x : String × Kind) (p : Nat) : g.Carries x p p := ⟨[], .nil p, by simp⟩

/-- A variable is carried over an edge that does not replace it. -/
theorem Carries.cons {e : Edge} {p q r : Nat} {x : String × Kind} (he : g.Leads e p q)
    (hx : ¬ e.action.Replaces x) (h : g.Carries x q r) : g.Carries x p r := by
  obtain ⟨es, hpath, hes⟩ := h
  refine ⟨e :: es, .cons he hpath, fun f hf => ?_⟩
  rcases List.mem_cons.mp hf with rfl | hf
  · exact hx
  · exact hes f hf

/-! ## The next node of the set -/

variable {m : Nat}

namespace Next

theorem refl (h : O p) : g.Next O p p := ⟨h, [], .nil p, by simp⟩

/-- Outside of the set, the next node is that of the target. -/
theorem cons {e : Edge} {p q m : Nat} (he : g.Leads e p q) (hp : ¬ O p) (h : g.Next O q m) :
    g.Next O p m := by
  obtain ⟨hm, es, hpath, hes⟩ := h
  refine ⟨hm, e :: es, .cons he hpath, fun f hf k hk => ?_⟩
  rcases List.mem_cons.mp hf with rfl | hf
  · rw [he.source] at hk
    cases hk
    exact hp
  · exact hes f hf k hk

/-- A node of the set is its own next node. -/
theorem eq_of_mem (hp : O p) (h : g.Next O p m) : m = p := by
  obtain ⟨-, es, hpath, hes⟩ := h
  cases hpath with
  | nil => rfl
  | @cons e _ _ _ _ hfirst =>
    exact absurd hp (hes e (List.mem_cons_self ..) p hfirst.source)

/-- A path to a node of the set meets a first one. -/
theorem exists_of_path {es : List Edge} (hpath : g.Path p es m) (hm : O m) :
    ∃ m', g.Next O p m' := by
  induction hpath with
  | nil p => exact ⟨p, refl hm⟩
  | @cons e es p q m hfirst _ ih =>
    by_cases hp : O p
    · exact ⟨p, refl hp⟩
    · obtain ⟨m', hm'⟩ := ih hm
      exact ⟨m', hm'.cons hfirst hp⟩

theorem eq_of_exit (hb : g.Branching) {t : Nat} (hexit : g.exit = .listed t)
    (h : g.Next O t m) : m = t := by
  obtain ⟨-, es, hpath, -⟩ := h
  cases hpath with
  | nil => rfl
  | cons hfirst => exact absurd (hfirst.source.trans hexit.symm) (hb.exit _ hfirst.mem)

/-- The next node post-dominates, or a guard on the way would be in the set. -/
theorem postDominates (hc : g.Closed O) (hb : g.Branching) (h : g.Next O p m) :
    g.PostDominates m p := by
  obtain ⟨hm, es, hpath, hes⟩ := h
  induction hpath with
  | nil p => exact .refl p
  | @cons e es p q m hfirst _ ih =>
    have hq : g.PostDominates m q := ih hm fun f hf => hes f (List.mem_cons_of_mem _ hf)
    have hp : ¬ O p := hes e (List.mem_cons_self ..) p hfirst.source
    by_contra hnot
    -- a guard would put its source into the set, and any other edge is the only way on
    have hkind : e.action.kind ≠ .boolean := fun hkind =>
      hp (hc.control hfirst hkind hq hnot hm)
    refine hnot (.backward ?_ fun f w hf => ?_)
    · rw [← hfirst.source]
      exact (hb.exit e hfirst.mem).symm
    · obtain ⟨i, hi⟩ := Array.mem_iff_getElem?.mp hfirst.mem
      obtain ⟨j, hj⟩ := Array.mem_iff_getElem?.mp hf.mem
      have hij : i = j := hb.only hi hj hfirst.source hf.source hkind
      subst hij
      rw [hi] at hj
      cases hj
      have hw := hf.target
      rw [hfirst.target] at hw
      cases hw
      exact hq

/-- A node of the set that post-dominates the start of a path outside the set does so to its end. -/
theorem postDominates_of_outside {es : List Edge} (hm : O m)
    (hpath : g.Path p es q) (hes : ∀ e ∈ es, ∀ k, e.source = .listed k → ¬ O k)
    (h : g.PostDominates m p) : g.PostDominates m q := by
  induction hpath with
  | nil => exact h
  | @cons e es p q r hfirst _ ih =>
    have hne : m ≠ p := by
      rintro rfl
      exact hes e (List.mem_cons_self ..) m hfirst.source hm
    exact ih (fun f hf => hes f (List.mem_cons_of_mem _ hf)) (h.forward hfirst hne)

/-- So there is one next node. -/
theorem unique (hc : g.Closed O) (hb : g.Branching) {m' : Nat} (h : g.Next O p m)
    (h' : g.Next O p m') (hreach : g.ReachesExit p) : m = m' := by
  have hm := h.postDominates hc hb
  have hm' := h'.postDominates hc hb
  obtain ⟨hOm, es, hpath, hes⟩ := h
  obtain ⟨hOm', es', hpath', hes'⟩ := h'
  exact (postDominates_of_outside hOm hpath' hes' hm).antisymm
    (postDominates_of_outside hOm' hpath hes hm') (hm'.reachesExit hreach)

/-- Steps outside of the set do not change it. -/
theorem step_iff (hc : g.Closed O) (hb : g.Branching)
    (he : g.Leads e p q) (hp : ¬ O p) (hreach : g.ReachesExit q) :
    g.Next O p m ↔ g.Next O q m := by
  refine ⟨fun h => ?_, fun h => h.cons he hp⟩
  obtain ⟨t, es, hexit, hpath⟩ := hreach
  have hne : m ≠ p := by
    rintro rfl
    exact hp h.1
  -- the way from `q` to the exit visits `m`, so it gets to the set, and that can only be at `m`
  have hm : g.PostDominates m q := (h.postDominates hc hb).forward he hne
  obtain ⟨as, bs, -, has, -⟩ := hpath.split (hm t es hexit hpath)
  obtain ⟨m', hm'⟩ := exists_of_path has h.1
  have heq : m = m' := h.unique hc hb (hm'.cons he hp) ⟨t, e :: es, hexit, .cons he hpath⟩
  exact heq ▸ hm'

end Next

/-! ## Relevant variables -/

namespace Relevant

theorem of_use {u : Access} (hp : O p) (he : e ∈ g.edges)
    (hs : e.source = .listed p) (hu : u ∈ e.action.uses) : g.Relevant O u.var p :=
  ⟨p, hp, ⟨e, he, hs, u, hu, rfl⟩, .refl _ p⟩

theorem cons {e : Edge} {p q : Nat} {x : String × Kind} (he : g.Leads e p q)
    (hx : ¬ e.action.Replaces x) (h : g.Relevant O x q) : g.Relevant O x p := by
  obtain ⟨n, hn, huse, hcarry⟩ := h
  exact ⟨n, hn, huse, hcarry.cons he hx⟩

/-- What writes a relevant variable is in the set. -/
theorem mem_of_writes (hc : g.Closed O) {x : String × Kind}
    (he : g.Leads e p q) (hp : g.Reachable p) (h : g.Relevant O x q) (hx : e.action.Writes x) :
    O p := by
  obtain ⟨n, hn, huse, hcarry⟩ := h
  exact hc.data he hp hx hcarry huse hn

/-- What is relevant at the next node is relevant now. -/
theorem of_next (hc : g.Closed O) {x : String × Kind} (hp : g.Reachable p)
    (h : g.Relevant O x m) (hnext : g.Next O p m) : g.Relevant O x p := by
  obtain ⟨-, es, hpath, hes⟩ := hnext
  induction hpath with
  | nil => exact h
  | @cons e es p q m hfirst _ ih =>
    have hq : g.Relevant O x q :=
      ih (hp.snoc hfirst) h fun f hf => hes f (List.mem_cons_of_mem _ hf)
    refine hq.cons hfirst fun hreplaces => ?_
    exact hes e (List.mem_cons_self ..) p hfirst.source
      (hq.mem_of_writes hc hfirst hp hreplaces.writes)

end Relevant

end Graph

/-! ## Two runs -/

variable {V : Type} {A : Arithmetic V} {g : Graph} {O : Nat → Prop}

/-- A run follows a path. -/
theorem Graph.Trace.path {feed : Nat → Nat → Int} {t : Nat} {s : Store V} {counts : Nat → Nat}
    {events : List (Event V)} (h : g.Trace A feed p s counts events t) : ∃ es, g.Path p es t := by
  induction h with
  | stop p => exact ⟨[], .nil p⟩
  | @step e _ _ _ _ _ _ _ _ edge source target _ _ ih =>
    obtain ⟨es, hes⟩ := ih
    exact ⟨e :: es, .cons ⟨Array.mem_of_getElem? edge, source, target⟩ hes⟩

/-- Where a run is: the node, the store and how often each edge was executed. -/
structure Position (V : Type) where
  node : Nat
  store : Store V
  counts : Nat → Nat

/--
Two runs are the same as far as a set of nodes can tell: both get to the set at the same node
next, and what is relevant there has the same values; so have the counts of the edges that
leave nodes of the set.
-/
structure Aligned (g : Graph) (O : Nat → Prop) (a b : Position V) : Prop where
  left : g.Reachable a.node
  right : g.Reachable b.node
  next : ∀ m, g.Next O a.node m ↔ g.Next O b.node m
  store : ∀ m x, g.Next O a.node m → g.Relevant O x m → a.store.AgreeOn x b.store
  counts : ∀ (i : Nat) (e : Edge) (n : Nat), g.edges[i]? = some e → e.source = .listed n → O n →
    a.counts i = b.counts i

namespace Aligned

variable {a b : Position V}

theorem symm (h : Aligned g O a b) : Aligned g O b a where
  left := h.right
  right := h.left
  next m := (h.next m).symm
  store m x hm hx l hl := (h.store m x ((h.next m).mpr hm) hx l hl).symm
  counts i e n he hs hn := (h.counts i e n he hs hn).symm

theorem refl (h : g.Reachable a.node) : Aligned g O a a where
  left := h
  right := h
  next _ := .rfl
  store _ _ _ _ _ _ := rfl
  counts _ _ _ _ _ _ := rfl

/-- Aligned runs that are both in the set are at the same node. -/
theorem node_eq (h : Aligned g O a b) (ha : O a.node) (hb : O b.node) : a.node = b.node :=
  ((h.next a.node).mp (.refl ha)).eq_of_mem hb

/-- A step outside the set keeps the runs aligned. -/
theorem advance (hc : g.Closed O) (hbr : g.Branching) (h : Aligned g O a b) (ha : ¬ O a.node)
      {n : Int} {t : Store V} (hi : g.edges[i]? = some e)
    (he : g.Leads e a.node q) (hreach : g.ReachesExit q)
    (hperform : e.action.perform? A g.vars n a.store = some t) :
    Aligned g O ⟨q, t, countUp a.counts i⟩ b where
  left := h.left.snoc he
  right := h.right
  next m := by
    rw [← h.next m]
    exact (Graph.Next.step_iff hc hbr he ha hreach).symm
  store m x hm hx := by
    have hx' : g.Relevant O x q := hx.of_next hc (h.left.snoc he) hm
    -- the action does not write to a relevant variable, or its source would be in the set
    have hframe : a.store.AgreeOn x t := Action.perform?_frame hperform fun d hd hdx =>
      ha (hx'.mem_of_writes hc he h.left ⟨d, hd, hdx⟩)
    intro l hl
    have hbefore : a.store l = b.store l := h.store m x (hm.cons he ha) hx l hl
    exact (hframe l hl).symm.trans hbefore
  counts j f k hf hs hk := by
    have hne : j ≠ i := by
      rintro rfl
      rw [hi] at hf
      cases hf
      rw [he.source] at hs
      cases hs
      exact ha hk
    exact (countUp_of_ne a.counts hne).trans (h.counts j f k hf hs hk)

theorem uses (h : Aligned g O a b) (ha : O a.node) {e : Edge} (he : e ∈ g.edges)
    (hs : e.source = .listed a.node) : ∀ u ∈ e.action.uses, a.store.AgreeOn u.var b.store :=
  fun _ hu => h.store a.node _ (.refl ha) (.of_use ha he hs hu)

/-- Two runs at a node of the set take the same edge, and are aligned behind it. -/
theorem together (hc : g.Closed O) (hbr : g.Branching) (h : Aligned g O a b) (ha : O a.node)
    (hb : O b.node) {j q' : Nat} {f : Edge} {s t : Store V} {feed feed' : Nat → Nat → Int}
    (hi : g.edges[i]? = some e) (hj : g.edges[j]? = some f) (he : g.Leads e a.node q)
    (hf : g.Leads f b.node q') (hfeed : e.action.kind = .read → ∀ k, feed i k = feed' i k)
    (hs : e.action.perform? A g.vars (feed i (a.counts i)) a.store = some s)
    (ht : f.action.perform? A g.vars (feed' j (b.counts j)) b.store = some t) :
    i = j ∧ Aligned g O ⟨q, s, countUp a.counts i⟩ ⟨q', t, countUp b.counts j⟩ := by
  have hab : a.node = b.node := h.node_eq ha hb
  obtain ⟨t', ht', hagree⟩ := Action.perform?_congr (h.uses ha he.mem he.source) hs
  -- in the store of the other run both edges can be taken, so they are one
  have hij : i = j := hbr.enabled_unique hi hj he.source (hab ▸ hf.source)
    (Action.enabled_of_perform? ht') (Action.enabled_of_perform? ht)
  subst hij
  rw [hi] at hj
  cases hj
  have hqq : q = q' := by
    have hq := he.target
    rw [hf.target] at hq
    cases hq
    rfl
  subst hqq
  have hcounts : a.counts i = b.counts i := h.counts i e a.node hi he.source ha
  have hreceived : e.action.perform? A g.vars (feed i (a.counts i)) b.store = some t := by
    by_cases hkind : e.action.kind = .read
    · rw [hfeed hkind, hcounts]
      exact ht
    · rw [Action.perform?_of_ne_read hkind _ (feed' i (b.counts i))]
      exact ht
  rw [hreceived] at ht'
  cases ht'
  refine ⟨rfl, h.left.snoc he, h.right.snoc hf, fun _ => .rfl, fun m x hm hx => ?_, ?_⟩
  · refine hagree x ?_
    by_cases hreplaces : e.action.Replaces x
    · exact .inr hreplaces
    · have hq : g.Relevant O x q := hx.of_next hc (h.left.snoc he) hm
      exact .inl (h.store a.node x (.refl ha) (hq.cons he hreplaces))
  · intro k f n hk hsf hn
    have hbefore : a.counts k = b.counts k := h.counts k f n hk hsf hn
    simp only [countUp, hbefore]

variable {feed feed' : Nat → Nat → Int} {events events' : List (Event V)} {t : Nat}

/-- A run outside the set takes a step that shows nothing at an edge that leaves the set. -/
theorem skip (hc : g.Closed O) (hbr : g.Branching) (hexit : g.exit = .listed t) {n : Nat}
    (hi : g.edges[i]? = some e) (hs : e.source = .listed n) (hn : O n)
    (h : Aligned g O a b) (htrace : g.Trace A feed a.node a.store a.counts events t)
    (ha : ¬ O a.node) (hne : events ≠ []) :
    ∃ a' rest, rest.length < events.length ∧ Aligned g O a' b ∧
      g.Trace A feed a'.node a'.store a'.counts rest t ∧
      observations A g.vars i e.action events = observations A g.vars i e.action rest := by
  obtain ⟨p, s, counts⟩ := a
  cases htrace with
  | stop => exact absurd rfl hne
  | @step f j _ q _ _ s' _ rest hedge hsource htarget hperform hrest =>
    have hf : g.Leads f p q := ⟨Array.mem_of_getElem? hedge, hsource, htarget⟩
    obtain ⟨es, hpath⟩ := hrest.path
    refine ⟨⟨q, s', countUp counts j⟩, rest, by simp,
      h.advance hc hbr ha hedge hf ⟨t, es, hexit, hpath⟩ hperform, hrest, ?_⟩
    have hji : j ≠ i := by
      rintro rfl
      rw [hi] at hedge
      cases hedge
      rw [hs] at hsource
      cases hsource
      exact ha hn
    rw [observations_cons, if_neg hji]

/-- If one run has ended, the other is outside of the set until it ends too. -/
theorem not_ended (hbr : g.Branching) (hexit : g.exit = .listed t) (h : Aligned g O a b)
    (ha : a.node = t) {f : Edge} (hf : g.Leads f b.node q) : ¬ O b.node := by
  intro hb
  have hnext : g.Next O t b.node := ha ▸ (h.next b.node).mpr (.refl hb)
  have hbt : b.node = t := hnext.eq_of_exit hbr hexit
  refine hbr.exit f hf.mem ?_
  rw [hf.source, hbt, hexit]

end Aligned

/-- Aligned runs to the exit show the same at every edge that leaves a node of a closed set. -/
theorem Graph.Closed.observations_eq (hc : g.Closed O) (hbr : g.Branching) {t : Nat}
    (hexit : g.exit = .listed t) {n : Nat} (hi : g.edges[i]? = some e)
    (hs : e.source = .listed n) (hn : O n) {feed feed' : Nat → Nat → Int}
    (hfeed : ∀ (r : Nat) (f : Edge) (k : Nat), g.edges[r]? = some f → f.source = .listed k → O k →
      f.action.kind = .read → feed r = feed' r)
    {a b : Position V} {events events' : List (Event V)} (h : Aligned g O a b)
    (htrace : g.Trace A feed a.node a.store a.counts events t)
    (htrace' : g.Trace A feed' b.node b.store b.counts events' t) :
    observations A g.vars i e.action events = observations A g.vars i e.action events' := by
  -- a run outside the set goes on alone; once both are in it, or at the end, they go together
  induction hsteps : events.length + events'.length using Nat.strongRecOn
    generalizing a b feed feed' events events' with
  | ind steps ih =>
    subst hsteps
    by_cases hleft : ¬ O a.node ∧ events ≠ []
    · obtain ⟨a', rest, hlt, h', hrest, hobs⟩ :=
        h.skip hc hbr hexit hi hs hn htrace hleft.1 hleft.2
      rw [hobs]
      exact ih _ (by omega) hfeed h' hrest htrace' rfl
    by_cases hright : ¬ O b.node ∧ events' ≠ []
    · obtain ⟨b', rest, hlt, h', hrest, hobs⟩ :=
        h.symm.skip hc hbr hexit hi hs hn htrace' hright.1 hright.2
      rw [hobs]
      exact ih _ (by omega) hfeed h'.symm htrace hrest rfl
    obtain ⟨p, s, counts⟩ := a
    obtain ⟨p', s', counts'⟩ := b
    cases htrace with
    | stop =>
      cases htrace' with
      | stop => rfl
      | step hedge hsource htarget =>
        have hf := h.not_ended hbr hexit rfl ⟨Array.mem_of_getElem? hedge, hsource, htarget⟩
        exact absurd ⟨hf, by simp⟩ hright
    | @step f j _ q _ _ u _ rest hedge hsource htarget hperform hrest =>
      have hf : g.Leads f p q := ⟨Array.mem_of_getElem? hedge, hsource, htarget⟩
      cases htrace' with
      | stop => exact absurd ⟨h.symm.not_ended hbr hexit rfl hf, by simp⟩ hleft
      | @step f' j' _ q' _ _ u' _ rest' hedge' hsource' htarget' hperform' hrest' =>
        have hf' : g.Leads f' p' q' := ⟨Array.mem_of_getElem? hedge', hsource', htarget'⟩
        have hp : O p := by simpa using hleft
        have hp' : O p' := by simpa using hright
        obtain ⟨rfl, h'⟩ := h.together hc hbr hp hp' hedge hedge' hf hf'
          (fun hkind k => congrFun (hfeed j f p hedge hsource hp hkind) k) hperform hperform'
        have hobs := ih _ (by simp; omega) hfeed h' hrest hrest' rfl
        rw [observations_cons, observations_cons]
        by_cases hji : j = i
        · subst hji
          rw [hi] at hedge
          cases hedge
          have hvalues : e.action.uses.map (Access.value? A g.vars s) =
              e.action.uses.map (Access.value? A g.vars s') :=
            List.map_congr_left fun u hu => Action.value?_congr (h.uses hp hf.mem hsource) hu
          rw [if_pos rfl, if_pos rfl, hvalues, hobs]
        · rw [if_neg hji, if_neg hji, hobs]

end MicroFlow
