import MicroFlow.Proofs.Flow.Fixpoint

/-!
# Least solutions are path solutions

The mappings of some analyses are sets of facts, and an edge keeps some facts and gives
others, whatever the rest of the mapping says (`Analysis.Separable`).  For such an analysis
the least solution can be read off the paths of the graph: a value is defined where a trail
from the start leads, and a fact holds there when it is carried along one of them.
-/

namespace MicroFlow

variable {M F : Type}

/-- A table with a value for each node. -/
theorem Values.exists_of_forall {n : Nat} {R : Nat → Option M → Prop}
    (h : ∀ i, i < n → ∃ x, R i x) : ∃ V : Values M, V.size = n ∧ ∀ i, i < n → R i (V.value i) := by
  choose x hx using fun i : Fin n => h i.1 i.2
  refine ⟨Array.ofFn x, by simp, fun i hi => ?_⟩
  have hvalue : Values.value (Array.ofFn x) i = x ⟨i, hi⟩ := by simp [Values.value, hi]
  rw [hvalue]
  exact hx ⟨i, hi⟩

namespace Analysis

/-- A path in the direction of the analysis, as the list of its edges. -/
inductive Trail (a : Analysis M) (g : Graph) (p : Nat) : List Edge → Nat → Prop
  | start : Trail a g p [] p
  | snoc {es : List Edge} {e : Edge} {q r : Nat} (front : Trail a g p es q) (mem : e ∈ g.edges)
      (origin : a.origin e = .listed q) (goal : a.goal e = .listed r) : Trail a g p (es ++ [e]) r

section

variable {a : Analysis M} {g : Graph} {p q : Nat} {es : List Edge}

/-- A trail goes on along a path. -/
theorem Trail.append {r : Nat} (hforward : a.reverse = false) (h : g.Path q es r) :
    ∀ {front : List Edge}, a.Trail g p front q → a.Trail g p (front ++ es) r := by
  induction h with
  | nil q =>
    intro front hfront
    rwa [List.append_nil]
  | @cons e es q q' r hfirst _ ih =>
    intro front hfront
    rw [List.append_cons]
    refine ih (.snoc hfront hfirst.mem ?_ ?_)
    · rw [origin, hforward]
      exact hfirst.source
    · rw [goal, hforward]
      exact hfirst.target

/-- Forward, trails are paths. -/
theorem trail_iff_path (hforward : a.reverse = false) : a.Trail g p es q ↔ g.Path p es q := by
  constructor
  · intro h
    induction h with
    | start => exact .nil p
    | snoc _ hmem horigin hgoal ih =>
      rw [Analysis.origin, hforward] at horigin
      rw [Analysis.goal, hforward] at hgoal
      exact ih.append (.cons ⟨hmem, horigin, hgoal⟩ (.nil _))
  · intro h
    exact Trail.append hforward h .start

/-- Backward, they are paths in reverse. -/
theorem trail_iff_path_reverse (hbackward : a.reverse = true) :
    a.Trail g p es q ↔ g.Path q es.reverse p := by
  constructor
  · intro h
    induction h with
    | start => exact .nil p
    | snoc _ hmem horigin hgoal ih =>
      rw [Analysis.origin, hbackward] at horigin
      rw [Analysis.goal, hbackward] at hgoal
      rw [List.reverse_append]
      exact .cons ⟨hmem, hgoal, horigin⟩ ih
  · intro h
    generalize hes : es.reverse = fs at h
    rw [List.reverse_eq_iff] at hes
    subst hes
    induction h with
    | nil => exact .start
    | @cons e fs q r p hfirst _ ih =>
      rw [List.reverse_cons]
      refine .snoc ih hfirst.mem ?_ ?_
      · rw [origin, hbackward]
        exact hfirst.target
      · rw [goal, hbackward]
        exact hfirst.source

end

/-- An analysis whose mappings are sets of facts, each of which an edge keeps or gives by itself. -/
structure Separable (a : Analysis M) (g : Graph) (D : a.Domain g) (F : Type) where
  holds : M → F → Prop
  /-- A fact that holds before the edge holds behind it. -/
  keeps : Edge → F → Prop
  /-- The fact holds behind the edge, whatever holds before it. -/
  gives : Edge → F → Prop
  included_iff : ∀ {m n : M}, D.Shaped m → D.Shaped n →
    (a.included m n = true ↔ ∀ f, holds m f → holds n f)
  holds_transfer : ∀ {e : Edge} {m n : M}, e ∈ g.edges → D.Shaped m → a.transfer m e = .ok n →
    ∀ f, holds n f ↔ holds m f ∧ keeps e f ∨ gives e f
  /-- Every part of a mapping is a mapping. -/
  exists_part : ∀ {m : M} (P : F → Prop), D.Shaped m →
    ∃ n, D.Shaped n ∧ ∀ f, holds n f ↔ holds m f ∧ P f

namespace Separable

variable {a : Analysis M} {g : Graph} {D : a.Domain g} (S : a.Separable g D F)

/-- The fact holds where the analysis starts, or is given by one of the edges, and all edges
behind keep it. -/
def Carried (es : List Edge) (f : F) : Prop :=
  (S.holds a.initial f ∧ ∀ e ∈ es, S.keeps e f) ∨
    ∃ before e behind, es = before ++ e :: behind ∧ S.gives e f ∧ ∀ e' ∈ behind, S.keeps e' f

variable {S} {V : Values M} {p q : Nat} {es : List Edge} {f : F}

theorem carried_nil : S.Carried [] f ↔ S.holds a.initial f := by
  simp [Carried]

/-- One more edge keeps what is carried, or gives something. -/
theorem carried_snoc {e : Edge} :
    S.Carried (es ++ [e]) f ↔ S.Carried es f ∧ S.keeps e f ∨ S.gives e f := by
  constructor
  · rintro (⟨hinit, hkeep⟩ | ⟨before, e', behind, heq, hgives, hkeep⟩)
    · exact .inl ⟨.inl ⟨hinit, fun e' he' => hkeep e' (by simp [he'])⟩, hkeep e (by simp)⟩
    · -- the edge that gives the fact is the last one, or there is a last one behind it
      rcases List.eq_nil_or_concat behind with rfl | ⟨front, last, rfl⟩
      · obtain ⟨-, hlast⟩ := List.append_inj' heq rfl
        cases hlast
        exact .inr hgives
      · have heq' : es ++ [e] = (before ++ e' :: front) ++ [last] := by simpa using heq
        obtain ⟨hes, hlast⟩ := List.append_inj' heq' rfl
        cases hlast
        refine .inl ⟨.inr ⟨before, e', front, hes, hgives, fun d hd => ?_⟩, ?_⟩
        · exact hkeep d (by simp [hd])
        · exact hkeep e (by simp)
  · rintro (⟨⟨hinit, hkeep⟩ | ⟨before, e', behind, rfl, hgives, hkeep⟩, hlast⟩ | hgives)
    · refine .inl ⟨hinit, fun d hd => ?_⟩
      rcases List.mem_append.mp hd with hd | hd
      · exact hkeep d hd
      · rw [List.mem_singleton.mp hd]
        exact hlast
    · refine .inr ⟨before, e', behind ++ [e], by simp, hgives, fun d hd => ?_⟩
      rcases List.mem_append.mp hd with hd | hd
      · exact hkeep d hd
      · rw [List.mem_singleton.mp hd]
        exact hlast
    · exact .inr ⟨es, e, [], rfl, hgives, by simp⟩

variable {n : Node}

/-- In a solution the value at the end of a trail is defined, and holds what the trail carries. -/
theorem exists_value (hV : a.Solves g V) (hshaped : D.ShapedTable V)
    (hstart : g.start a.reverse = .ok n) (h : a.Trail g n.id.toNat es q) :
    ∃ m, V.value q = some m ∧ ∀ f, S.Carried es f → S.holds m f := by
  induction h with
  | start =>
    obtain ⟨m, hm, hle⟩ := leq_some_iff.mp (hV.start n hstart)
    refine ⟨m, hm, fun f hf => ?_⟩
    have hinitial : D.Shaped a.initial := D.shaped_of_proper D.proper_initial
    exact (S.included_iff hinitial (hshaped _ m hm)).mp hle f (carried_nil.mp hf)
  | @snoc es e q r _ hmem horigin hgoal ih =>
    obtain ⟨m, hm, hcarried⟩ := ih
    obtain ⟨v, hv, hle⟩ := hV.edge e hmem q r horigin hgoal
    obtain ⟨n', hn', hshaped'⟩ := D.exists_transfer hmem (hshaped q m hm)
    have hvalue : v = some n' := by
      rw [hm] at hv
      simp only [apply, hn', bind, Except.bind, pure, Except.pure] at hv
      cases hv
      rfl
    subst hvalue
    obtain ⟨m', hm', hincl⟩ := leq_some_iff.mp hle
    refine ⟨m', hm', fun f hf => ?_⟩
    refine (S.included_iff hshaped' (hshaped r m' hm')).mp hincl f ?_
    rw [S.holds_transfer hmem (hshaped q m hm) hn']
    exact (carried_snoc.mp hf).imp_left (And.imp_left (hcarried f))

/-- What the trails from the start carry to a node. -/
def Collected (S : a.Separable g D F) (p q : Nat) (x : Option M) : Prop :=
  (x.isSome = true ↔ ∃ es, a.Trail g p es q) ∧
    ∀ m, x = some m → D.Shaped m ∧ ∀ f, S.holds m f ↔ ∃ es, a.Trail g p es q ∧ S.Carried es f

/-- What all trails carry is a part of any solution. -/
theorem exists_collected (hV : a.Solves g V) (hshaped : D.ShapedTable V)
    (hstart : g.start a.reverse = .ok n) (q : Nat) : ∃ x, S.Collected n.id.toNat q x := by
  by_cases htrail : ∃ es, a.Trail g n.id.toNat es q
  · obtain ⟨es, hes⟩ := htrail
    obtain ⟨m, hm, -⟩ := exists_value (S := S) hV hshaped hstart hes
    obtain ⟨part, hpart, hholds⟩ := S.exists_part
      (fun f => ∃ es, a.Trail g n.id.toNat es q ∧ S.Carried es f) (hshaped q m hm)
    refine ⟨some part, by simpa using ⟨es, hes⟩, ?_⟩
    rintro _ ⟨⟩
    refine ⟨hpart, fun f => ?_⟩
    rw [hholds f]
    refine and_iff_right_of_imp ?_
    rintro ⟨fs, hfs, hf⟩
    obtain ⟨m', hm', hcarried⟩ := exists_value (S := S) hV hshaped hstart hfs
    rw [hm] at hm'
    cases hm'
    exact hcarried f hf
  · refine ⟨none, by simpa using htrail, ?_⟩
    rintro _ ⟨⟩

/-- What trails carry makes a solution. -/
theorem Collected.solves (hg : g.Coherent) {T : Values M}
    (hstart : g.start a.reverse = .ok n) (hsize : T.size = g.nodes.size)
    (hlt : n.id.toNat < g.nodes.size)
    (hT : ∀ q, q < g.nodes.size → S.Collected n.id.toNat q (T.value q)) : a.Solves g T := by
  refine ⟨hsize, fun n' hn' => ?_, fun e he q r horigin hgoal => ?_⟩
  · -- the empty trail carries the facts of the start
    rw [hstart] at hn'
    cases hn'
    obtain ⟨hdefined, hholds⟩ := hT _ hlt
    obtain ⟨m, hm⟩ := Option.isSome_iff_exists.mp (hdefined.mpr ⟨[], .start⟩)
    rw [hm]
    refine (S.included_iff (D.shaped_of_proper D.proper_initial) (hholds m hm).1).mpr fun f hf => ?_
    exact ((hholds m hm).2 f).mpr ⟨[], .start, carried_nil.mpr hf⟩
  · obtain ⟨q', r', hq, hr, horigin', hgoal'⟩ := flow_listed (a := a) hg he
    rw [horigin] at horigin'
    rw [hgoal] at hgoal'
    cases horigin'
    cases hgoal'
    obtain ⟨hdefined, hholds⟩ := hT q hq
    obtain ⟨hdefined', hholds'⟩ := hT r hr
    cases hm : T.value q with
    | none => exact ⟨none, rfl, by simp⟩
    | some m =>
      obtain ⟨hshaped, hm'⟩ := hholds m hm
      obtain ⟨n', hn', hshaped'⟩ := D.exists_transfer he hshaped
      -- trails to one end of the edge go on to the other
      have hsnoc : ∀ es, a.Trail g n.id.toNat es q → a.Trail g n.id.toNat (es ++ [e]) r :=
        fun es hes => .snoc hes he horigin hgoal
      obtain ⟨es, hes⟩ := hdefined.mp (by simp [hm])
      obtain ⟨m', hr'⟩ := Option.isSome_iff_exists.mp (hdefined'.mpr ⟨_, hsnoc es hes⟩)
      refine ⟨some n', by simp only [apply, hn', bind, Except.bind, pure, Except.pure], ?_⟩
      rw [hr']
      refine (S.included_iff hshaped' (hholds' m' hr').1).mpr fun f hf => ?_
      rw [(hholds' m' hr').2]
      rcases (S.holds_transfer he hshaped hn' f).mp hf with ⟨hbefore, hkeeps⟩ | hgives
      · obtain ⟨fs, hfs, hcarried⟩ := (hm' f).mp hbefore
        exact ⟨_, hsnoc fs hfs, carried_snoc.mpr (.inl ⟨hcarried, hkeeps⟩)⟩
      · exact ⟨_, hsnoc es hes, carried_snoc.mpr (.inr hgives)⟩

/--
The least solution at a node: it is defined if a trail from the start leads there, and then
holds what such trails carry.
-/
theorem collected_of_least (hg : g.Coherent) (hV : D.Least V)
    (hstart : g.start a.reverse = .ok n) (hlt : n.id.toNat < g.nodes.size) {q : Nat}
    (hq : q < g.nodes.size) : S.Collected n.id.toNat q (V.value q) := by
  obtain ⟨T, hsize, hT⟩ := Values.exists_of_forall (n := g.nodes.size)
    fun i _ => exists_collected (S := S) hV.solves hV.shaped hstart i
  have hsolves : a.Solves g T := Collected.solves hg hstart hsize hlt hT
  have htable : D.ShapedTable T := by
    intro i m hm
    by_cases hi : i < g.nodes.size
    · exact ((hT i hi).2 m hm).1
    · have hnone : T.value i = none := by simp [Values.value, hsize, Nat.le_of_not_lt hi]
      rw [hnone] at hm
      cases hm
  -- the least solution is below what is collected, and above it since trails carry only what holds
  have hbelow := hV.below T htable hsolves q
  obtain ⟨hdefined, hholds⟩ := hT q hq
  constructor
  · constructor
    · intro hsome
      obtain ⟨m, hm⟩ := Option.isSome_iff_exists.mp hsome
      rw [hm] at hbelow
      obtain ⟨m', hm', -⟩ := leq_some_iff.mp hbelow
      exact hdefined.mp (by simp [hm'])
    · rintro ⟨es, hes⟩
      obtain ⟨m, hm, -⟩ := exists_value (S := S) hV.solves hV.shaped hstart hes
      simp [hm]
  · intro m hm
    have hshaped : D.Shaped m := hV.shaped q m hm
    refine ⟨hshaped, fun f => ?_⟩
    constructor
    · intro hf
      rw [hm] at hbelow
      obtain ⟨m', hm', hle⟩ := leq_some_iff.mp hbelow
      exact ((hholds m' hm').2 f).mp ((S.included_iff hshaped (hholds m' hm').1).mp hle f hf)
    · rintro ⟨es, hes, hf⟩
      obtain ⟨m', hm', hcarried⟩ := exists_value (S := S) hV.solves hV.shaped hstart hes
      rw [hm] at hm'
      cases hm'
      exact hcarried f hf

end Separable

end Analysis

end MicroFlow
