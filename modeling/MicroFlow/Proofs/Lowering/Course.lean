import Mathlib.Logic.Relation
import MicroFlow.Graph.Lowering
import MicroFlow.Proofs.Graph.Order

/-!
# The course of a layout

What a program is laid out to is nested as its blocks are.  A `Course` says so of a list of arrows
without the numbers that points have, and keeps account of the loops: it marks the arrows that lead
back to the head of a loop, and divides the points into groups, in the order in which they are
read.  A loop that stands in no other loop makes one group of all its points, and any other point is
a group of its own.

The groups are the strongly connected components (`Course.mutual_iff`), and the arrows that lead to
a lower rank in a depth-first order are those with a mark (`Course.retreats_iff`).
-/

namespace MicroFlow

/-- One of the arrows leads from `p` to `q`. -/
def Arrow.Links (arrows : List Arrow) (p q : Nat) : Prop :=
  ∃ a ∈ arrows, a.source = p ∧ a.target = q

/-- A way along the arrows leads from `p` to `q`. -/
abbrev Arrow.Reaches (arrows : List Arrow) : Nat → Nat → Prop :=
  Relation.ReflTransGen (Arrow.Links arrows)

namespace Arrow

theorem Reaches.mono {as bs : List Arrow} {p q : Nat} (h : Reaches as p q)
    (hsub : ∀ a ∈ as, a ∈ bs) : Reaches bs p q := by
  refine Relation.ReflTransGen.mono ?_ _ _ h
  rintro m n ⟨a, ha, hm, hn⟩
  exact ⟨a, hsub a ha, hm, hn⟩

theorem Reaches.arrow {arrows : List Arrow} {a : Arrow} (ha : a ∈ arrows) :
    Reaches arrows a.source a.target := .single ⟨a, ha, rfl, rfl⟩

end Arrow

namespace Source

open Arrow (Reaches)

/-- Arrows, each with a mark that says whether it closes a loop. -/
abbrev Marked := List (Arrow × Bool)

variable {head p : Nat} {x : Arrow × Bool}

namespace Marked

/-- Marks the arrows that lead to the head of a loop, besides those that have a mark already. -/
def close (T : Marked) (head : Nat) : Marked := T.map fun x => (x.1, x.2 || x.1.target == head)

/-- The arrows without their marks. -/
def arrows (T : Marked) : List Arrow := T.map Prod.fst

/-- The points that the arrows leave. -/
def sources (T : Marked) : List Nat := T.map fun x => x.1.source

/-- The arrows with their new marks. -/
theorem mem_close {T : Marked} :
    x ∈ T.close head ↔ ∃ y ∈ T, x = (y.1, y.2 || y.1.target == head) := by
  simp only [close, List.mem_map, eq_comm]

theorem arrows_close (T : Marked) (head : Nat) : (T.close head).arrows = T.arrows := by
  simp [close, arrows]

theorem arrows_append (T U : Marked) : arrows (T ++ U) = T.arrows ++ U.arrows := List.map_append

theorem sources_append (T U : Marked) : sources (T ++ U) = T.sources ++ U.sources := List.map_append

/-- Marks do not change where arrows start. -/
theorem sources_close (T : Marked) (head : Nat) : (T.close head).sources = T.sources := by
  simp [close, sources]

/-- A course between two arrows. -/
theorem mem_enclosed {T : Marked} {y z : Arrow × Bool} :
    x ∈ y :: T ++ [z] ↔ x = y ∨ x ∈ T ∨ x = z := by
  simp

theorem sources_enclosed {T : Marked} {s n m : Nat} {a b : Action} :
    p ∈ sources ((⟨s, n, a⟩, false) :: T ++ [(⟨s, m, b⟩, false)]) ↔ p = s ∨ p ∈ T.sources := by
  simp only [sources, List.cons_append, List.map_cons, List.map_append, List.map_nil, List.mem_cons,
    List.mem_append, List.not_mem_nil, or_false]
  tauto

end Marked

theorem mem_flatten_append {G H : List (List Nat)} :
    p ∈ (G ++ H).flatten ↔ p ∈ G.flatten ∨ p ∈ H.flatten := by
  rw [List.flatten_append, List.mem_append]

theorem mem_flatten_point {G : List (List Nat)} {s : Nat} :
    p ∈ ([s] :: G).flatten ↔ p = s ∨ p ∈ G.flatten := by
  rw [List.flatten_cons, List.mem_append, List.mem_singleton]

/-- The figures of a part of a program. -/
structure Figures where
  /-- The statements with a condition. -/
  branches : Nat
  declared : Nat
  /-- The arrows that lead to the end. -/
  ends : Nat
  /-- The arrows that close a loop. -/
  closing : Nat
  /-- The loops that stand in no other loop. -/
  nests : Nat

namespace Figures

def plain (a : Action) : Figures := ⟨0, if a.kind = .declare then 1 else 0, 1, 0, 0⟩

/-- A branch that holds no statement, and so goes to the end at once. -/
def skip : Figures := ⟨0, 0, 1, 0, 0⟩

/-- Two branches of one condition. -/
def fork (F F' : Figures) : Figures :=
  ⟨F.branches + F'.branches + 1, F.declared + F'.declared, F.ends + F'.ends, F.closing + F'.closing,
    F.nests + F'.nests⟩

/-- A loop around a body: what ends the body closes the loop, and loops in the body do not count. -/
def loop (F : Figures) : Figures := ⟨F.branches + 1, F.declared, 1, F.closing + F.ends, 1⟩

/-- One part after another. -/
def seq (F F' : Figures) : Figures :=
  ⟨F.branches + F'.branches, F.declared + F'.declared, F'.ends, F.closing + F'.closing,
    F.nests + F'.nests⟩

end Figures

/-- Marked arrows from the point `s` to the point `f`, with their points in groups. -/
inductive Course : Figures → Marked → List (List Nat) → Nat → Nat → Prop
  | plain {a : Arrow} (moves : a.source ≠ a.target) (not_guard : a.action.kind ≠ .boolean) :
      Course (.plain a.action) [(a, false)] [[a.source]] a.source a.target
  | ifThen {F : Figures} {T : Marked} {G : List (List Nat)} {s n f : Nat} {c d : Expr}
      (body : Course F T G n f) (fresh : s ∉ G.flatten) (moves : s ≠ f) :
      Course (F.fork .skip) ((⟨s, n, .branch c⟩, false) :: T ++ [(⟨s, f, .branch d⟩, false)])
        ([s] :: G) s f
  | ifElse {F F' : Figures} {T U : Marked} {G H : List (List Nat)} {s n m f : Nat} {c d : Expr}
      (body : Course F T G n f) (other : Course F' U H m f) (fresh : s ∉ G.flatten ∧ s ∉ H.flatten)
      (apart : G.flatten.Disjoint H.flatten) (moves : s ≠ f) :
      Course (F.fork F')
        ((⟨s, n, .branch c⟩, false) :: (⟨s, m, .branch d⟩, false) :: (T ++ U)) ([s] :: (G ++ H)) s f
  | loop {F : Figures} {T : Marked} {G : List (List Nat)} {s n f : Nat} {c d : Expr}
      (body : Course F T G n s) (leaves : f ∉ G.flatten) (moves : s ≠ f) :
      Course F.loop ((⟨s, n, .branch c⟩, false) :: T.close s ++ [(⟨s, f, .branch d⟩, false)])
        [s :: G.flatten] s f
  | seq {F F' : Figures} {T U : Marked} {G H : List (List Nat)} {s m f : Nat}
      (first : Course F T G s m) (rest : Course F' U H m f) (apart : G.flatten.Disjoint H.flatten)
      (leaves : f ∉ G.flatten) : Course (F.seq F') (T ++ U) (G ++ H) s f

namespace Course

variable {F : Figures} {T : Marked} {G : List (List Nat)} {s f : Nat}

/-! ## Points -/

/-- The first point that is read is the start. -/
theorem start (h : Course F T G s f) : ∃ rest, G.flatten = s :: rest := by
  induction h with
  | plain | ifThen | ifElse | loop => exact ⟨_, rfl⟩
  | seq _ _ _ _ ih =>
    obtain ⟨rest, hrest⟩ := ih
    exact ⟨_, by rw [List.flatten_append, hrest, List.cons_append]⟩

theorem start_mem (h : Course F T G s f) : s ∈ G.flatten := by
  obtain ⟨rest, hrest⟩ := h.start
  simp [hrest]

/-- The end is not one of the points, which are those that are left. -/
theorem finish (h : Course F T G s f) : f ∉ G.flatten := by
  induction h with
  | plain moves => simpa using moves.symm
  | ifThen _ _ moves ih => simpa [moves.symm] using ih
  | ifElse _ _ _ _ moves ih ih' =>
    rw [List.flatten_cons, List.flatten_append]
    simp [moves.symm, -List.mem_flatten, ih, ih']
  | loop _ leaves moves => simpa [moves.symm] using leaves
  | seq _ _ _ leaves _ ih =>
    rw [List.flatten_append, List.mem_append]
    exact not_or.mpr ⟨leaves, ih⟩

/-- No point is read twice. -/
theorem nodup (h : Course F T G s f) : G.flatten.Nodup := by
  induction h with
  | plain => simp
  | ifThen _ fresh _ ih => exact List.nodup_cons.mpr ⟨fresh, ih⟩
  | ifElse _ _ fresh apart _ ih ih' =>
    rw [List.flatten_cons, List.flatten_append]
    exact List.nodup_cons.mpr ⟨by simpa using fresh, ih.append ih' apart⟩
  | loop body _ _ ih =>
    rw [List.flatten_singleton]
    exact List.nodup_cons.mpr ⟨body.finish, ih⟩
  | seq _ _ apart _ ih ih' =>
    rw [List.flatten_append]
    exact ih.append ih' apart

/-- The points in groups are those that arrows leave. -/
theorem mem_sources (h : Course F T G s f) : p ∈ T.sources ↔ p ∈ G.flatten := by
  induction h with
  | plain => simp [Marked.sources]
  | ifThen _ _ _ ih =>
    simp only [Marked.sources_enclosed, List.flatten_cons, List.mem_append, List.mem_singleton, ih]
  | ifElse _ _ _ _ _ ih ih' => simp [Marked.sources, ← ih, ← ih']
  | loop _ _ _ ih =>
    simp only [Marked.sources_enclosed, Marked.sources_close, List.flatten_singleton, List.mem_cons,
      ih]
  | seq _ _ _ _ ih ih' => simp [Marked.sources_append, ih, ih']

theorem source_mem (h : Course F T G s f) (hx : x ∈ T) :
    x.1.source ∈ G.flatten := h.mem_sources.mp (List.mem_map_of_mem hx)

/-- Every arrow leads to the end or to a point of the course. -/
theorem targets (h : Course F T G s f) : ∀ x ∈ T, x.1.target = f ∨ x.1.target ∈ G.flatten := by
  induction h with
  | plain => simp
  | ifThen body _ _ ih =>
    have hstart := body.start_mem
    simp only [List.flatten_cons]
    grind
  | ifElse body other _ _ _ ih ih' =>
    have hstart := body.start_mem
    have hother := other.start_mem
    simp only [List.flatten_cons, List.flatten_append]
    grind
  | loop body _ _ ih =>
    have hstart := body.start_mem
    simp only [List.flatten_singleton]
    grind [Marked.mem_close]
  | seq _ rest _ _ ih ih' =>
    have hstart := rest.start_mem
    simp only [List.flatten_append]
    grind

/-- A marked arrow does not lead to the end. -/
theorem closing_target (h : Course F T G s f) :
    ∀ x ∈ T, x.2 = true → x.1.target ∈ G.flatten := by
  induction h with
  | plain => simp
  | ifThen _ _ _ ih =>
    simp only [List.flatten_cons]
    grind
  | ifElse _ _ _ _ _ ih ih' =>
    simp only [List.flatten_cons, List.flatten_append]
    grind
  | loop _ _ _ ih =>
    simp only [List.flatten_singleton]
    grind [Marked.mem_close]
  | seq _ _ _ _ ih ih' =>
    simp only [List.flatten_append]
    grind

/-! ## Numbers -/

variable {q : Nat}

/-- No arrow leads to a point outside, other than the end. -/
theorem count_targets_eq_zero (h : Course F T G s f) (hq : q ∉ G.flatten) (hne : q ≠ f) :
    T.countP (fun x => x.1.target == q) = 0 := by
  rw [List.countP_eq_zero]
  intro x hx heq
  have hq' : x.1.target = q := by simpa using heq
  rcases h.targets x hx with hf | hG
  · exact hne (hq'.symm.trans hf)
  · exact hq (hq' ▸ hG)

/-- How many arrows lead to the end. -/
theorem count_ends (h : Course F T G s f) : T.countP (fun x => x.1.target == f) = F.ends := by
  induction h with
  | plain => simp [Figures.plain]
  | @ifThen F T G s n f c d body _ _ ih =>
    have hn : n ≠ f := ne_of_mem_of_not_mem body.start_mem body.finish
    simp [List.countP_append, ih, hn, Figures.fork, Figures.skip]
  | @ifElse F F' T U G H s n m f c d body other _ _ _ ih ih' =>
    have hn : n ≠ f := ne_of_mem_of_not_mem body.start_mem body.finish
    have hm : m ≠ f := ne_of_mem_of_not_mem other.start_mem other.finish
    simp [List.countP_append, ih, ih', hn, hm, Figures.fork]
  | @loop F T G s n f c d body leaves moves _ =>
    have hn : n ≠ f := ne_of_mem_of_not_mem body.start_mem leaves
    have hbody := body.count_targets_eq_zero leaves moves.symm
    simp [List.countP_append, Marked.close, List.countP_map, Function.comp_def, hbody, hn,
      Figures.loop]
  | @seq F F' T U G H s m f first rest _ leaves _ ih =>
    have hm : f ≠ m := (ne_of_mem_of_not_mem rest.start_mem rest.finish).symm
    rw [List.countP_append, first.count_targets_eq_zero leaves hm, ih, Nat.zero_add]
    rfl

/-- Two exclusive properties are counted one by one. -/
theorem countP_or_of_disjoint {α : Type} {xs : List α} {p q : α → Bool}
    (h : ∀ x ∈ xs, p x = true → q x = false) :
    xs.countP (fun x => p x || q x) = xs.countP p + xs.countP q := by
  induction xs with
  | nil => rfl
  | cons x xs ih =>
    have hx := h x (List.mem_cons_self ..)
    rw [List.countP_cons, List.countP_cons, List.countP_cons,
      ih fun y hy => h y (List.mem_cons_of_mem _ hy)]
    cases hp : p x with
    | false => simp [Nat.add_assoc]
    | true =>
      simp [hx hp]
      omega

/-- How many arrows close a loop: in a loop, also those that end its body. -/
theorem count_closing (h : Course F T G s f) : T.countP (·.2) = F.closing := by
  induction h with
  | plain => rfl
  | ifThen _ _ _ ih => simp [List.countP_append, ih, Figures.fork, Figures.skip]
  | ifElse _ _ _ _ _ ih ih' => simp [List.countP_append, ih, ih', Figures.fork]
  | @loop F T G s n f c d body _ _ ih =>
    -- the head of a loop is not a point of its body, so the new marks are on other arrows
    have hclose : (T.close s).countP (·.2) = F.closing + F.ends := by
      rw [Marked.close, List.countP_map, Function.comp_def, countP_or_of_disjoint, ih,
        body.count_ends]
      intro x hx hmark
      have hne := ne_of_mem_of_not_mem (body.closing_target x hx hmark) body.finish
      simpa using hne
    simp [List.countP_append, hclose, Figures.loop]
  | seq _ _ _ _ ih ih' => simp [List.countP_append, ih, ih', Figures.seq]

/-- How many groups have more than one point: those of the outer loops. -/
theorem count_groups (h : Course F T G s f) : G.countP (1 < ·.length) = F.nests := by
  induction h with
  | plain => rfl
  | ifThen _ _ _ ih => simp [ih, Figures.fork, Figures.skip]
  | ifElse _ _ _ _ _ ih ih' => simp [List.countP_append, ih, ih', Figures.fork]
  | loop body _ _ _ =>
    obtain ⟨rest, hrest⟩ := body.start
    simp [hrest, Figures.loop]
  | seq _ _ _ _ ih ih' => simp [List.countP_append, ih, ih', Figures.seq]

theorem count_close (T : Marked) (head : Nat) (p : Arrow → Bool) :
    (T.close head).countP (fun x => p x.1) = T.countP fun x => p x.1 := by
  rw [Marked.close, List.countP_map]
  rfl

/-- Every condition has two guards. -/
theorem count_guards (h : Course F T G s f) :
    T.countP (fun x => x.1.action.kind == .boolean) = 2 * F.branches := by
  induction h with
  | plain _ not_guard => simpa [Figures.plain] using not_guard
  | ifThen _ _ _ ih =>
    simp [List.countP_append, ih, Figures.fork, Figures.skip, Action.branch]
    omega
  | ifElse _ _ _ _ _ ih ih' =>
    simp [List.countP_append, ih, ih', Figures.fork, Action.branch]
    omega
  | loop _ _ _ ih =>
    simp [List.countP_append, count_close _ _ (·.action.kind == .boolean), ih, Figures.loop,
      Action.branch]
    omega
  | seq _ _ _ _ ih ih' =>
    simp [List.countP_append, ih, ih', Figures.seq]
    omega

theorem count_declared (h : Course F T G s f) :
    T.countP (fun x => x.1.action.kind == .declare) = F.declared := by
  induction h with
  | @plain a => simp [Figures.plain, List.countP_cons]
  | ifThen _ _ _ ih => simp [List.countP_append, ih, Figures.fork, Figures.skip, Action.branch]
  | ifElse _ _ _ _ _ ih ih' => simp [List.countP_append, ih, ih', Figures.fork, Action.branch]
  | loop _ _ _ ih =>
    simp [List.countP_append, count_close _ _ (·.action.kind == .declare), ih, Figures.loop,
      Action.branch]
  | seq _ _ _ _ ih ih' => simp [List.countP_append, ih, ih', Figures.seq]

/-- From every point there leaves one arrow, and another one where a condition is. -/
theorem length_eq (h : Course F T G s f) : T.length = G.flatten.length + F.branches := by
  induction h with
  | plain => rfl
  | ifThen _ _ _ ih =>
    simp only [List.length_append, List.length_cons, List.flatten_cons, List.length_nil, ih,
      Figures.fork, Figures.skip]
    omega
  | ifElse _ _ _ _ _ ih ih' =>
    simp only [List.length_append, List.length_cons, List.flatten_cons, List.flatten_append,
      List.length_nil, ih, ih', Figures.fork]
    omega
  | loop _ _ _ ih =>
    simp only [List.length_append, List.length_cons, List.flatten_singleton, Marked.close,
      List.length_map, List.length_nil, ih, Figures.loop]
    omega
  | seq _ _ _ _ ih ih' =>
    simp only [List.length_append, List.flatten_append, ih, ih', Figures.seq]
    omega

/-! ## The order of reading -/

/-- What stands before another member does not stand last. -/
theorem pair_sublist_of_concat {z : Nat} {xs : List Nat} (h : [p, q].Sublist (xs ++ [z]))
    (hq : q ≠ z) : [p, q].Sublist xs := by
  obtain ⟨ys, zs, heq, hys, hzs⟩ := List.sublist_append_iff.mp h
  rcases List.sublist_singleton.mp hzs with rfl | rfl
  · rw [List.append_nil] at heq
    exact heq ▸ hys
  · have hlast := congrArg List.getLast? heq
    simp only [List.getLast?_append, List.getLast?_singleton, List.getLast?_cons_cons,
      Option.some_or, Option.some.injEq] at hlast
    exact absurd hlast hq

/-- An arrow without a mark leads to a point that is read later. -/
theorem forward (h : Course F T G s f) :
    ∀ x ∈ T, x.2 = false → [x.1.source, x.1.target].Sublist (G.flatten ++ [f]) := by
  have hhead : ∀ {p q : Nat} {xs : List Nat}, q ∈ xs → [p, q].Sublist (p :: xs) := fun hq =>
    (List.singleton_sublist.mpr hq).cons_cons _
  induction h with
  | plain => simp
  | @ifThen F T G s n f c d body _ _ ih =>
    intro x hx hmark
    rw [Marked.mem_enclosed] at hx
    rcases hx with rfl | hx | rfl
    · exact hhead (List.mem_append_left _ body.start_mem)
    · exact (ih x hx hmark).cons s
    · exact hhead (List.mem_append_right _ (List.mem_singleton_self f))
  | @ifElse F F' T U G H s n m f c d body other _ _ _ ih ih' =>
    intro x hx hmark
    have hlist : ([s] :: (G ++ H)).flatten ++ [f] = s :: (G.flatten ++ (H.flatten ++ [f])) := by
      simp
    rw [hlist]
    simp only [List.mem_cons, List.mem_append] at hx
    rcases hx with rfl | rfl | hx | hx
    · exact hhead (List.mem_append_left _ body.start_mem)
    · exact hhead (List.mem_append_right _ (List.mem_append_left _ other.start_mem))
    · -- the points of the other block stand between the first block and the end
      have hskip := (List.Sublist.refl G.flatten).append (List.sublist_append_right H.flatten [f])
      exact ((ih x hx hmark).trans hskip).cons s
    · exact ((ih' x hx hmark).trans (List.sublist_append_right _ _)).cons s
  | @loop F T G s n f c d body _ _ ih =>
    intro x hx hmark
    rw [List.flatten_singleton, List.cons_append]
    rw [Marked.mem_enclosed] at hx
    rcases hx with rfl | hx | rfl
    · exact hhead (List.mem_append_left _ body.start_mem)
    · obtain ⟨y, hy, rfl⟩ := Marked.mem_close.mp hx
      simp only [Bool.or_eq_false_iff, beq_eq_false_iff_ne] at hmark
      -- without a mark the arrow does not lead to the head, where the body ends
      have hbody := pair_sublist_of_concat (ih y hy hmark.1) hmark.2
      exact (hbody.trans (List.sublist_append_left _ _)).cons s
    · exact hhead (List.mem_append_right _ (List.mem_singleton_self f))
  | @seq F F' T U G H s m f _ rest _ _ ih ih' =>
    intro x hx hmark
    rw [List.flatten_append, List.append_assoc]
    rcases List.mem_append.mp hx with hx | hx
    · have hskip : [m].Sublist (H.flatten ++ [f]) :=
        List.singleton_sublist.mpr (List.mem_append_left _ rest.start_mem)
      exact (ih x hx hmark).trans ((List.Sublist.refl G.flatten).append hskip)
    · exact (ih' x hx hmark).trans (List.sublist_append_right _ _)

/-- The points of a loop: no arrow leads to one of them from outside, except to the head. -/
structure LoopAt (T : Marked) (G : List (List Nat)) (s head : Nat) (R : Nat → Prop) : Prop where
  points : ∀ p, R p → p ∈ G.flatten
  /-- A course that starts in a loop starts at its head. -/
  start : R s → head = s
  entered : ∀ x ∈ T, R x.1.target → x.1.target = head ∨ R x.1.source

/-- A loop of one part is a loop of the whole, which enters the part at its start only. -/
theorem LoopAt.widen {T' : Marked} {G' : List (List Nat)} {s' : Nat} {R : Nat → Prop}
    (h : LoopAt T G s head R) (points : ∀ p ∈ G.flatten, p ∈ G'.flatten) (start : R s' → head = s')
    (within : ∀ x ∈ T', x.1.target ∈ G.flatten → x.1.target = s ∨ ∃ y ∈ T, y.1 = x.1) :
    LoopAt T' G' s' head R where
  points p hp := points p (h.points p hp)
  start := start
  entered x hx htarget := by
    rcases within x hx (h.points _ htarget) with hs | ⟨y, hy, hxy⟩
    · rw [hs] at htarget ⊢
      exact .inl (h.start htarget).symm
    · rw [← hxy] at htarget ⊢
      exact h.entered y hy htarget

/-- A marked arrow closes a loop: its source is a point of a loop, at whose head it ends and which
is entered there only. -/
theorem loop_of_closing (h : Course F T G s f) : ∀ x ∈ T, x.2 = true →
    x.1.source ≠ x.1.target ∧ ∃ R, R x.1.source ∧ LoopAt T G s x.1.target R := by
  have hkeep := h
  induction h with
  | plain => simp
  | @ifThen F T G s n f c d body fresh _ ih =>
    intro x hx hmark
    have hold : x ∈ T := by grind
    -- the loop of the body is still entered at its head only, since the guard enters the body at
    -- its start
    obtain ⟨hne, R, hsource, hR⟩ := ih body x hold hmark
    refine ⟨hne, R, hsource, hR.widen (fun p => List.mem_cons_of_mem s)
      (fun hs => absurd (hR.points s hs) fresh) fun y hy htarget => ?_⟩
    rw [Marked.mem_enclosed] at hy
    rcases hy with rfl | hy | rfl
    · exact .inl rfl
    · exact .inr ⟨y, hy, rfl⟩
    · exact absurd htarget body.finish
  | @ifElse F F' T U G H s n m f c d body other fresh apart _ ih ih' =>
    intro x hx hmark
    have hold : x ∈ T ∨ x ∈ U := by grind
    rcases hold with hx | hx
    · -- nothing leads from one block into the other
      obtain ⟨hne, R, hsource, hR⟩ := ih body x hx hmark
      refine ⟨hne, R, hsource, hR.widen (fun p hp => ?_) (fun hs => absurd (hR.points s hs) fresh.1)
        fun y hy htarget => ?_⟩
      · exact mem_flatten_point.mpr (.inr (mem_flatten_append.mpr (.inl hp)))
      · simp only [List.mem_cons, List.mem_append] at hy
        rcases hy with rfl | rfl | hy | hy
        · exact .inl rfl
        · exact absurd other.start_mem (apart htarget)
        · exact .inr ⟨y, hy, rfl⟩
        · rcases other.targets y hy with hf | hH
          · exact absurd (hf ▸ htarget) body.finish
          · exact absurd hH (apart htarget)
    · obtain ⟨hne, R, hsource, hR⟩ := ih' other x hx hmark
      refine ⟨hne, R, hsource, hR.widen (fun p hp => ?_) (fun hs => absurd (hR.points s hs) fresh.2)
        fun y hy htarget => ?_⟩
      · exact mem_flatten_point.mpr (.inr (mem_flatten_append.mpr (.inr hp)))
      · simp only [List.mem_cons, List.mem_append] at hy
        rcases hy with rfl | rfl | hy | hy
        · exact absurd htarget (apart body.start_mem)
        · exact .inl rfl
        · rcases body.targets y hy with hf | hG
          · exact absurd (hf ▸ htarget) other.finish
          · exact absurd htarget (apart hG)
        · exact .inr ⟨y, hy, rfl⟩
  | @loop F T G s n f c d body leaves _ ih =>
    intro x hx hmark
    have hold : x ∈ T.close s := by grind
    obtain ⟨y, hy, rfl⟩ := Marked.mem_close.mp hold
    rcases Bool.or_eq_true_iff.mp hmark with hinner | hhead
    · -- a mark of the body is on a loop inside it
      obtain ⟨hne, R, hsource, hR⟩ := ih body y hy hinner
      refine ⟨hne, R, hsource, hR.widen (fun p hp => ?_) (fun hs =>
        absurd (hR.points s hs) body.finish)
        fun z hz htarget => ?_⟩
      · rw [List.flatten_singleton]
        exact List.mem_cons_of_mem s hp
      · rw [Marked.mem_enclosed] at hz
        rcases hz with rfl | hz | rfl
        · exact .inl rfl
        · obtain ⟨w, hw, rfl⟩ := Marked.mem_close.mp hz
          exact .inr ⟨w, hw, rfl⟩
        · exact absurd htarget leaves
    · -- the loop of a new mark is the whole course
      have hhead : y.1.target = s := beq_iff_eq.mp hhead
      have hne : y.1.source ≠ s := ne_of_mem_of_not_mem (body.source_mem hy) body.finish
      exact ⟨hhead.symm ▸ hne, (· ∈ [s :: G.flatten].flatten), hkeep.source_mem hx, fun _ hp => hp,
        fun _ => hhead, fun z hz _ => .inr (hkeep.source_mem hz)⟩
  | @seq F F' T U G H s m f first rest apart leaves ih ih' =>
    intro x hx hmark
    rcases List.mem_append.mp hx with hx | hx
    · -- the second course leads nowhere into the first
      obtain ⟨hne, R, hsource, hR⟩ := ih first x hx hmark
      refine ⟨hne, R, hsource, hR.widen (fun p hp => ?_) hR.start fun y hy htarget => ?_⟩
      · exact mem_flatten_append.mpr (.inl hp)
      · rcases List.mem_append.mp hy with hy | hy
        · exact .inr ⟨y, hy, rfl⟩
        · rcases rest.targets y hy with hf | hH
          · exact absurd (hf ▸ htarget) leaves
          · exact absurd hH (apart htarget)
    · -- the first course leads to the start of the second at most
      obtain ⟨hne, R, hsource, hR⟩ := ih' rest x hx hmark
      refine ⟨hne, R, hsource, hR.widen (fun p hp => ?_)
        (fun hs => absurd (hR.points s hs) (apart first.start_mem)) fun y hy htarget => ?_⟩
      · exact mem_flatten_append.mpr (.inr hp)
      · rcases List.mem_append.mp hy with hy | hy
        · rcases first.targets y hy with hm | hG
          · exact .inl hm
          · exact absurd htarget (apart hG)
        · exact .inr ⟨y, hy, rfl⟩

/-- The step of `mem_of_suffix` for two courses, one read after the other. -/
theorem mem_of_suffix_append {F' : Figures} {U : Marked} {H A B : List (List Nat)} {m n : Nat}
    (first : Course F T G s m) (other : Course F' U H n f)
    (apart : G.flatten.Disjoint H.flatten) (goesOn : m = f ∨ m ∈ H.flatten)
    (ih : ∀ {A B : List (List Nat)}, G = A ++ B →
      ∀ x ∈ T, x.1.source ∈ B.flatten → x.1.target = m ∨ x.1.target ∈ B.flatten)
    (ih' : ∀ {A B : List (List Nat)}, H = A ++ B →
      ∀ x ∈ U, x.1.source ∈ B.flatten → x.1.target = f ∨ x.1.target ∈ B.flatten)
    (hsplit : G ++ H = A ++ B) :
    ∀ x ∈ T ++ U, x.1.source ∈ B.flatten → x.1.target = f ∨ x.1.target ∈ B.flatten := by
  intro x hx hsource
  rcases List.append_eq_append_iff.mp hsplit with ⟨C, rfl, rfl⟩ | ⟨C, rfl, rfl⟩
  · -- the suffix starts in the second course
    rcases List.mem_append.mp hx with hx | hx
    · have hH : x.1.source ∈ (C ++ B).flatten := mem_flatten_append.mpr (.inr hsource)
      exact absurd hH (apart (first.source_mem hx))
    · exact ih' rfl x hx hsource
  · -- the suffix has all of the second course, and the first leads there
    rw [mem_flatten_append] at hsource ⊢
    rcases List.mem_append.mp hx with hx | hx
    · have hC : x.1.source ∈ C.flatten := hsource.resolve_right (apart (first.source_mem hx))
      rcases ih rfl x hx hC with hm | hC
      · rw [hm]
        exact goesOn.imp_right .inr
      · exact .inr (.inl hC)
    · exact (other.targets x hx).imp_right .inr

/-- The course does not return to an earlier group. -/
theorem mem_of_suffix (h : Course F T G s f) : ∀ {A B : List (List Nat)}, G = A ++ B →
    ∀ x ∈ T, x.1.source ∈ B.flatten → x.1.target = f ∨ x.1.target ∈ B.flatten := by
  have hkeep := h
  induction h with
  | plain =>
    intro A B hsplit x hx hsource
    rw [List.mem_singleton.mp hx]
    exact .inl rfl
  | @ifThen F T G s n f c d body fresh _ ih =>
    intro A B hsplit x hx hsource
    rcases List.cons_eq_append_iff.mp hsplit with ⟨rfl, rfl⟩ | ⟨A, rfl, rfl⟩
    · exact hkeep.targets x hx
    · -- the suffix is one of the body, without the guards
      have hs : s ∉ B.flatten := fun hs => fresh (mem_flatten_append.mpr (.inr hs))
      rw [Marked.mem_enclosed] at hx
      rcases hx with rfl | hx | rfl
      · exact absurd hsource hs
      · exact ih body rfl x hx hsource
      · exact .inl rfl
  | @ifElse F F' T U G H s n m f c d body other fresh apart _ ih ih' =>
    intro A B hsplit x hx hsource
    rcases List.cons_eq_append_iff.mp hsplit with ⟨rfl, rfl⟩ | ⟨A, rfl, hrest⟩
    · exact hkeep.targets x hx
    · have hs : s ∉ B.flatten := fun hs => by
        have hGH : s ∈ (G ++ H).flatten := hrest ▸ mem_flatten_append.mpr (.inr hs)
        exact (mem_flatten_append.mp hGH).elim fresh.1 fresh.2
      simp only [List.mem_cons] at hx
      rcases hx with rfl | rfl | hx
      · exact absurd hsource hs
      · exact absurd hsource hs
      · exact mem_of_suffix_append body other apart (.inl rfl) (ih body) (ih' other) hrest x hx
          hsource
  | @loop F T G s n f c d body leaves _ ih =>
    intro A B hsplit x hx hsource
    rcases List.singleton_eq_append_iff.mp hsplit with ⟨rfl, rfl⟩ | ⟨rfl, rfl⟩
    · exact hkeep.targets x hx
    · cases hsource
  | @seq F F' T U G H s m f first rest apart leaves ih ih' =>
    intro A B hsplit x hx hsource
    exact mem_of_suffix_append first rest apart (.inr rest.start_mem) (ih first) (ih' rest)
      hsplit x hx hsource

/-! ## Components -/

/-- The start leads to every point, and every point to the end. -/
theorem reaches (h : Course F T G s f) :
    ∀ p ∈ G.flatten, Reaches T.arrows s p ∧ Reaches T.arrows p f := by
  induction h with
  | plain =>
    intro p hp
    rw [List.flatten_singleton, List.mem_singleton] at hp
    rw [hp]
    exact ⟨.refl, .arrow (List.mem_singleton_self _)⟩
  | @ifThen F T G s n f c d body _ _ ih =>
    intro p hp
    set U : Marked := (⟨s, n, .branch c⟩, false) :: T ++ [(⟨s, f, .branch d⟩, false)] with hU
    have hin : Reaches U.arrows s n := .arrow (a := ⟨s, n, .branch c⟩) (by simp [hU, Marked.arrows])
    have hskip : Reaches U.arrows s f :=
      .arrow (a := ⟨s, f, .branch d⟩) (by simp [hU, Marked.arrows])
    have hbody : ∀ {p q : Nat}, Reaches T.arrows p q → Reaches U.arrows p q := fun h =>
      h.mono fun a ha => by simp_all [Marked.arrows]
    rcases mem_flatten_point.mp hp with rfl | hp
    · exact ⟨.refl, hskip⟩
    · exact ⟨hin.trans (hbody (ih p hp).1), hbody (ih p hp).2⟩
  | @ifElse F F' T U G H s n m f c d body other _ _ _ ih ih' =>
    intro p hp
    set V : Marked := (⟨s, n, .branch c⟩, false) :: (⟨s, m, .branch d⟩, false) :: (T ++ U) with hV
    have hthen : Reaches V.arrows s n :=
      .arrow (a := ⟨s, n, .branch c⟩) (by simp [hV, Marked.arrows])
    have helse : Reaches V.arrows s m :=
      .arrow (a := ⟨s, m, .branch d⟩) (by simp [hV, Marked.arrows])
    have hbody : ∀ {p q : Nat}, Reaches T.arrows p q → Reaches V.arrows p q := fun h =>
      h.mono fun a ha => by simp_all [Marked.arrows]
    have hother : ∀ {p q : Nat}, Reaches U.arrows p q → Reaches V.arrows p q := fun h =>
      h.mono fun a ha => by simp_all [Marked.arrows]
    rcases mem_flatten_point.mp hp with rfl | hp
    · exact ⟨.refl, hthen.trans (hbody (ih n body.start_mem).2)⟩
    · -- through the point between the two courses
      rcases mem_flatten_append.mp hp with hp | hp
      · exact ⟨hthen.trans (hbody (ih p hp).1), hbody (ih p hp).2⟩
      · exact ⟨helse.trans (hother (ih' p hp).1), hother (ih' p hp).2⟩
  | @loop F T G s n f c d body _ _ ih =>
    intro p hp
    set U : Marked := (⟨s, n, .branch c⟩, false) :: T.close s ++
      [(⟨s, f, .branch d⟩, false)] with hU
    have hin : Reaches U.arrows s n := .arrow (a := ⟨s, n, .branch c⟩) (by simp [hU, Marked.arrows])
    have hskip : Reaches U.arrows s f :=
      .arrow (a := ⟨s, f, .branch d⟩) (by simp [hU, Marked.arrows])
    have hbody : ∀ {p q : Nat}, Reaches T.arrows p q → Reaches U.arrows p q := fun h =>
      h.mono fun a ha => by simp_all [Marked.arrows, Marked.close]
    rw [List.flatten_singleton, List.mem_cons] at hp
    rcases hp with rfl | hp
    · exact ⟨.refl, hskip⟩
    · exact ⟨hin.trans (hbody (ih p hp).1), (hbody (ih p hp).2).trans hskip⟩
  | @seq F F' T U G H s m f first rest _ _ ih ih' =>
    intro p hp
    rw [Marked.arrows_append]
    have hfirst : ∀ {p q : Nat}, Reaches T.arrows p q → Reaches (T.arrows ++ U.arrows) p q :=
      fun h => h.mono fun a ha => List.mem_append_left _ ha
    have hrest : ∀ {p q : Nat}, Reaches U.arrows p q → Reaches (T.arrows ++ U.arrows) p q :=
      fun h => h.mono fun a ha => List.mem_append_right _ ha
    rcases mem_flatten_append.mp hp with hp | hp
    · exact ⟨hfirst (ih p hp).1, (hfirst (ih p hp).2).trans (hrest (ih' m rest.start_mem).2)⟩
    · exact ⟨(hfirst (ih s first.start_mem).2).trans (hrest (ih' p hp).1), hrest (ih' p hp).2⟩

/-- Within a group every point leads to every other. -/
theorem reaches_in_group (h : Course F T G s f) :
    ∀ c ∈ G, ∀ p ∈ c, ∀ q ∈ c, Reaches T.arrows p q := by
  have hkeep := h
  induction h with
  | plain => simp_all [Relation.ReflTransGen.refl]
  | @ifThen F T G s n f c d body _ _ ih =>
    intro c hc p hp q hq
    rcases List.mem_cons.mp hc with rfl | hc
    · rw [List.mem_singleton.mp hp, List.mem_singleton.mp hq]
    · exact (ih body c hc p hp q hq).mono fun x hx => by simp_all [Marked.arrows]
  | @ifElse F F' T U G H s n m f c d body other _ _ _ ih ih' =>
    intro c hc p hp q hq
    rcases List.mem_cons.mp hc with rfl | hc
    · rw [List.mem_singleton.mp hp, List.mem_singleton.mp hq]
    · rcases List.mem_append.mp hc with hc | hc
      · exact (ih body c hc p hp q hq).mono fun x hx => by simp_all [Marked.arrows]
      · exact (ih' other c hc p hp q hq).mono fun x hx => by simp_all [Marked.arrows]
  | @loop F T G s n f c d body _ _ _ =>
    intro c hc p hp q hq
    rw [List.mem_singleton.mp hc] at hp hq
    -- along the body back to the head, and from the head to any point
    have hq : q ∈ [s :: G.flatten].flatten := by rwa [List.flatten_singleton]
    refine .trans ?_ (hkeep.reaches q hq).1
    rcases List.mem_cons.mp hp with rfl | hp
    · exact .refl
    · exact (body.reaches p hp).2.mono fun x hx => by simp_all [Marked.arrows, Marked.close]
  | @seq F F' T U G H s m f first rest _ _ ih ih' =>
    intro c hc p hp q hq
    rw [Marked.arrows_append]
    rcases List.mem_append.mp hc with hc | hc
    · exact (ih first c hc p hp q hq).mono fun x hx => List.mem_append_left _ hx
    · exact (ih' rest c hc p hp q hq).mono fun x hx => List.mem_append_right _ hx

/-- Nor does any way along the arrows return to an earlier group. -/
theorem reaches_suffix (h : Course F T G s f) {A B : List (List Nat)} (hsplit : G = A ++ B)
    (hp : p = f ∨ p ∈ B.flatten) (hreach : Reaches T.arrows p q) :
    q = f ∨ q ∈ B.flatten := by
  induction hreach with
  | refl => exact hp
  | tail _ hlast ih =>
    obtain ⟨a, ha, rfl, rfl⟩ := hlast
    obtain ⟨x, hx, rfl⟩ := List.mem_map.mp ha
    rcases ih with hf | hB
    · exact absurd (hf ▸ h.source_mem hx) h.finish
    · exact h.mem_of_suffix hsplit x hx hB

/-- The groups are the strongly connected components, and so is the end on its own. -/
theorem mutual_iff (h : Course F T G s f) {c : List Nat} (hc : c ∈ G ++ [[f]])
    (hp : p ∈ c) : (Reaches T.arrows p q ∧ Reaches T.arrows q p) ↔ q ∈ c := by
  rcases List.mem_append.mp hc with hG | hc
  · refine ⟨fun ⟨hgo, hback⟩ => ?_, fun hq =>
      ⟨h.reaches_in_group c hG p hp q hq, h.reaches_in_group c hG q hq p hp⟩⟩
    obtain ⟨A, B, hsplit⟩ := List.append_of_mem hG
    have hflat : G.flatten = A.flatten ++ (c ++ B.flatten) := by
      rw [hsplit, List.flatten_append, List.flatten_cons]
    have hnodup := h.nodup
    rw [hflat] at hnodup
    have hpf : p ≠ f := ne_of_mem_of_not_mem (List.mem_flatten_of_mem hG hp) h.finish
    -- `q` is in the group or behind it; from behind it there is no way back to `p`
    have hq := h.reaches_suffix hsplit (.inr (List.mem_append_left _ hp)) hgo
    have hno : ¬ (q = f ∨ q ∈ B.flatten) := fun hq => by
      have hsplit : G = (A ++ [c]) ++ B := by rw [hsplit, List.append_assoc, List.singleton_append]
      rcases h.reaches_suffix hsplit hq hback with hf | hB
      · exact hpf hf
      · exact (List.disjoint_of_nodup_append (List.nodup_append.mp hnodup).2.1) hp hB
    rw [List.flatten_cons, List.mem_append] at hq
    tauto
  · rw [List.mem_singleton.mp hc, List.mem_singleton] at hp ⊢
    rw [hp]
    refine ⟨fun ⟨hgo, _⟩ => ?_, fun hq => hq ▸ ⟨.refl, .refl⟩⟩
    have hnil : G = G ++ [] := (List.append_nil G).symm
    simpa using h.reaches_suffix hnil (.inl rfl) hgo

/-! ## Depth-first ranks -/

/-- An arrow leads from the one point to the other, which has the higher rank. -/
def Ascent (T : Marked) (rank : Nat → Nat) (p q : Nat) : Prop :=
  ∃ x ∈ T, x.1.source = p ∧ x.1.target = q ∧ rank p < rank q

/--
What is asked of ranks: every point but the start is entered from one of lower rank, and an arrow
leads to a higher rank or back to a point from which its source was reached by ascents.
-/
structure DepthFirst (T : Marked) (points : List Nat) (s : Nat) (rank : Nat → Nat) : Prop where
  entered : ∀ p ∈ points, p ≠ s → ∃ x ∈ T, x.1.target = p ∧ rank x.1.source < rank p
  ascends : ∀ x ∈ T, rank x.1.source < rank x.1.target ∨
    Relation.ReflTransGen (Ascent T rank) x.1.target x.1.source

variable {rank : Nat → Nat}

/-- The head of a loop has the lowest rank in it. -/
theorem LoopAt.head_lt {R : Nat → Prop} (h : LoopAt T G s head R)
    (hrank : DepthFirst T G.flatten s rank) : ∀ p, R p → p ≠ head → rank head < rank p := by
  intro p
  -- a point of the loop other than the head is entered from a point of the loop of lower rank
  induction hn : rank p using Nat.strongRecOn generalizing p with
  | ind n ih =>
    intro hp hne
    have hs : p ≠ s := by
      rintro rfl
      exact hne (h.start hp).symm
    obtain ⟨x, hx, rfl, hlt⟩ := hrank.entered p (h.points p hp) hs
    have hsource : R x.1.source := (h.entered x hx hp).resolve_left hne
    by_cases hhead : x.1.source = head
    · rw [← hhead]
      omega
    · have := ih (rank x.1.source) (by omega) _ rfl hsource hhead
      omega

/-- So a marked arrow leads to a lower rank. -/
theorem lt_of_closing (h : Course F T G s f) (hrank : DepthFirst T G.flatten s rank)
    (hx : x ∈ T) (hmark : x.2 = true) : rank x.1.target < rank x.1.source := by
  obtain ⟨hne, R, hsource, hR⟩ := h.loop_of_closing x hx hmark
  exact hR.head_lt hrank _ hsource hne

/-- An arrow without a mark leads on in the order of reading. -/
theorem place_lt (h : Course F T G s f) (hx : x ∈ T) (hmark : x.2 = false) :
    (G.flatten ++ [f]).idxOf x.1.source < (G.flatten ++ [f]).idxOf x.1.target := by
  have hnodup : (G.flatten ++ [f]).Nodup :=
    h.nodup.append (List.nodup_singleton f) (List.disjoint_singleton.mpr h.finish)
  exact idxOf_lt_of_sublist hnodup (h.forward x hx hmark)

/-- No arrow ends where it starts. -/
theorem moves (h : Course F T G s f) (hx : x ∈ T) : x.1.source ≠ x.1.target := by
  cases hmark : x.2 with
  | false =>
    intro heq
    have := h.place_lt hx hmark
    rw [heq] at this
    omega
  | true => exact (h.loop_of_closing x hx hmark).1

/-- Ascents go along arrows without a mark, so they go forward in the order of reading. -/
theorem place_le_of_ascents (h : Course F T G s f) (hrank : DepthFirst T G.flatten s rank)
    (hpq : Relation.ReflTransGen (Ascent T rank) p q) :
    (G.flatten ++ [f]).idxOf p ≤ (G.flatten ++ [f]).idxOf q := by
  induction hpq with
  | refl => exact Nat.le_refl _
  | tail _ hlast ih =>
    obtain ⟨x, hx, rfl, rfl, hlt⟩ := hlast
    have hmark : x.2 = false := by
      rw [← Bool.not_eq_true]
      intro hmark
      have := h.lt_of_closing hrank hx hmark
      omega
    have := h.place_lt hx hmark
    omega

/-- The arrows to a lower rank are those with a mark. -/
theorem retreats_iff (h : Course F T G s f) (hrank : DepthFirst T G.flatten s rank)
    (hx : x ∈ T) : rank x.1.target < rank x.1.source ↔ x.2 = true := by
  refine ⟨fun hlt => ?_, h.lt_of_closing hrank hx⟩
  by_contra hmark
  have hplace := h.place_lt hx (Bool.eq_false_iff.mpr hmark)
  -- an arrow back to an ancestor would go forward and backward at once
  rcases hrank.ascends x hx with hup | hback
  · omega
  · have := h.place_le_of_ascents hrank hback
    omega

end Course

end Source

end MicroFlow
