import MicroFlow.Proofs.Lowering.Course
import MicroFlow.Proofs.Lowering.Nesting

/-!
# Figures of a program

What can be counted in a program without its graph: the statements at any depth, or only those
outside of loops, and in how many ways a block comes to its end.
-/

namespace MicroFlow.Source

/-! ## Counting in programs -/

def Stmt.isIf : Stmt → Bool
  | .ifThen _ _ _ => true
  | .ifElse _ _ _ _ => true
  | _ => false

def Stmt.isLoop : Stmt → Bool
  | .loop _ _ _ => true
  | _ => false

mutual

/-- A statement and the statements inside it, those inside loops only if `deep`. -/
def Stmt.statements (deep : Bool) : Stmt → List Stmt
  | .ifThen pos cond body => .ifThen pos cond body :: body.statements deep
  | .ifElse pos cond body other =>
    .ifElse pos cond body other :: (body.statements deep ++ other.statements deep)
  | .loop pos cond body => .loop pos cond body :: (if deep then body.statements deep else [])
  | s => [s]

/-- The statements of a block and those inside them, those inside loops only if `deep`. -/
def Block.statements (deep : Bool) : Block → List Stmt
  | .nil => []
  | .cons s b => s.statements deep ++ b.statements deep

end

mutual

/-- In how many ways a statement comes to its end. -/
def Stmt.ends : Stmt → Nat
  | .missing => 0
  | .assign _ _ _ => 1
  | .read _ _ => 1
  | .write _ _ => 1
  | .ifThen _ _ body => body.ends + 1
  | .ifElse _ _ body other => body.ends + other.ends
  | .loop _ _ _ => 1

/-- A block ends in the ways of its last statement. -/
def Block.ends : Block → Nat
  | .nil => 0
  | .cons s .nil => s.ends
  | .cons _ b => b.ends

end

/-- In how many ways the body of a loop comes to its end. -/
def Stmt.bodyEnds : Stmt → Nat
  | .loop _ _ body => body.ends
  | _ => 0

def programStatements (deep : Bool) : Program → List Stmt
  | [] => []
  | .stmt s :: rest => s.statements deep ++ programStatements deep rest
  | _ :: rest => programStatements deep rest

/-- The number of conditions that are decided once. -/
def ifCount (p : Program) : Nat := (programStatements true p).countP Stmt.isIf

/-- The number of loops, at any depth. -/
def loopCount (p : Program) : Nat := (programStatements true p).countP Stmt.isLoop

/-- An item of a program that declares a variable. -/
def Item.isDeclaration : Item → Bool
  | .declare _ _ _ _ => true
  | _ => false

/-- How often statements of the list bring a loop back to its head. -/
def closings (ss : List Stmt) : Nat := (ss.map Stmt.bodyEnds).foldr (· + ·) 0

theorem closings_append (ss ts : List Stmt) : closings (ss ++ ts) = closings ss + closings ts := by
  induction ss with
  | nil => simp [closings]
  | cons s ss ih =>
    simp only [closings, List.cons_append, List.map_cons, List.foldr_cons] at ih ⊢
    omega

/-! ## Figures -/

/-- In how many ways an item comes to its end. -/
def Item.ends : Item → Nat
  | .declare _ _ _ _ => 1
  | .stmt s => s.ends
  | _ => 0

/-- A program ends in the ways of its last item. -/
def programEnds (p : Program) : Nat := (p.getLast?.map Item.ends).getD 0

/-- The figures of a program. -/
def programFigures (p : Program) : Figures where
  branches := ifCount p + loopCount p
  declared := p.countP Item.isDeclaration
  ends := programEnds p
  closing := closings (programStatements true p)
  nests := (programStatements false p).countP Stmt.isLoop

variable {p q : Program} {deep : Bool}

theorem programStatements_append :
    programStatements deep (p ++ q) = programStatements deep p ++ programStatements deep q := by
  induction p with
  | nil => rfl
  | cons i p ih => cases i <;> simp [programStatements, ih]

/-- A body as a program has the same statements. -/
theorem programStatements_items (b : Block) :
    programStatements deep b.items = b.statements deep := by
  cases b with
  | nil => rfl
  | cons s b => rw [Block.items, programStatements, Block.statements, programStatements_items b]

theorem programEnds_items : ∀ b : Block, programEnds b.items = b.ends
  | .nil => rfl
  | .cons _ .nil => rfl
  | .cons _ (.cons t b) => programEnds_items (.cons t b)

theorem countP_items (b : Block) : b.items.countP Item.isDeclaration = 0 := by
  cases b with
  | nil => rfl
  | cons s b =>
    rw [Block.items, List.countP_cons, countP_items b]
    rfl

/-- A block declares nothing, so its figures are those of its statements. -/
theorem programFigures_items (b : Block) : programFigures b.items =
    ⟨(b.statements true).countP Stmt.isIf + (b.statements true).countP Stmt.isLoop, 0, b.ends,
      closings (b.statements true), (b.statements false).countP Stmt.isLoop⟩ := by
  simp only [programFigures, ifCount, loopCount, programStatements_items, programEnds_items,
    countP_items]

/-- Figures of two programs, one after the other. -/
theorem programFigures_append (hq : q ≠ []) :
    programFigures (p ++ q) = (programFigures p).seq (programFigures q) := by
  simp only [programFigures, Figures.seq, ifCount, loopCount, programStatements_append,
    List.countP_append, closings_append, programEnds, List.getLast?_append_of_ne_nil p hq,
    Figures.mk.injEq, and_true]
  omega

theorem programFigures_plain {i : Item} {a : Action} (h : i.action? = some a) :
    programFigures [i] = .plain a := by
  unfold Item.action? at h
  split at h <;> cases h <;> rfl

section

variable (pos : Pos) (cond : Cond) (body other : Block)

/-- A branch without an alternative forks into its body and nothing. -/
theorem programFigures_ifThen : programFigures [.stmt (.ifThen pos cond body)] =
    (programFigures body.items).fork .skip := by
  rw [programFigures_items]
  simp [programFigures, ifCount, loopCount, programStatements, programEnds, Item.ends,
    Item.isDeclaration, Figures.fork, Figures.skip, Stmt.statements, Stmt.isIf, Stmt.isLoop,
    Stmt.ends, closings, Stmt.bodyEnds, List.countP_cons]
  omega

theorem programFigures_ifElse : programFigures [.stmt (.ifElse pos cond body other)] =
    (programFigures body.items).fork (programFigures other.items) := by
  have hclosings := closings_append (body.statements true) (other.statements true)
  rw [programFigures_items, programFigures_items]
  simp [programFigures, ifCount, loopCount, programStatements, programEnds, Item.ends,
    Item.isDeclaration, Figures.fork, Stmt.statements, Stmt.isIf, Stmt.isLoop, Stmt.ends, closings,
    Stmt.bodyEnds, List.countP_cons] at hclosings ⊢
  omega

/-- The figures of a loop are those of its body, as a loop. -/
theorem programFigures_loop : programFigures [.stmt (.loop pos cond body)] =
    (programFigures body.items).loop := by
  rw [programFigures_items]
  simp [programFigures, ifCount, loopCount, programStatements, programEnds, Item.ends,
    Item.isDeclaration, Figures.loop, Stmt.statements, Stmt.isIf, Stmt.isLoop, Stmt.ends, closings,
    Stmt.bodyEnds, List.countP_cons]
  omega

end

/-! ## From flows to courses -/

/-- The points in the groups of a course are those that its arrows leave. -/
theorem Course.mem_iff_departs {F : Figures} {M : Marked} {G : List (List Nat)} {T : Traced}
    {s f n : Nat} (h : Course F M G s f) (harrows : M.arrows = T.arrows) :
    n ∈ G.flatten ↔ T.Departs n := by
  have hsources : M.sources = T.map fun x => x.2.source := by
    have hmap := congrArg (List.map Arrow.source) harrows
    simpa [Marked.arrows, Traced.arrows, Marked.sources, Function.comp_def] using hmap
  rw [← h.mem_sources, hsources, List.mem_map]
  rfl

/-- A flow is a course: it has the figures of its items. -/
theorem Flow.course {enter : Option Origin} {T : Traced} {s f : Nat} (h : Flow enter p T s f) :
    ∃ (M : Marked) (G : List (List Nat)), M.arrows = T.arrows ∧
      Course (programFigures p) M G s f := by
  induction h with
  | @plain o i a s f does moves =>
    rw [programFigures_plain does]
    exact ⟨_, _, rfl, .plain (a := ⟨s, f, a⟩) moves (Item.not_guard does)⟩
  | @ifThen _ _ cond _ _ _ _ _ _ _ fresh moves ih =>
    obtain ⟨M, G, harrows, hcourse⟩ := ih
    rw [programFigures_ifThen]
    refine ⟨_, _, ?_, .ifThen (c := cond.lower) (d := cond.lower.negation) hcourse ?_ moves⟩
    · simp only [Marked.arrows, Traced.arrows] at harrows
      simp [Marked.arrows, Traced.arrows, harrows]
    · rwa [hcourse.mem_iff_departs harrows]
  | @ifElse _ _ cond _ _ _ _ _ _ _ _ _ _ _ fresh apart moves ih ih' =>
    obtain ⟨M, G, harrows, hcourse⟩ := ih
    obtain ⟨N, H, harrows', hcourse'⟩ := ih'
    rw [programFigures_ifElse]
    refine ⟨_, _, ?_, .ifElse (c := cond.lower) (d := cond.lower.negation) hcourse hcourse'
      ⟨?_, ?_⟩ ?_ moves⟩
    · simp only [Marked.arrows, Traced.arrows] at harrows harrows'
      simp [Marked.arrows, Traced.arrows, harrows, harrows']
    · rw [hcourse.mem_iff_departs harrows]
      exact fresh.1
    · rw [hcourse'.mem_iff_departs harrows']
      exact fresh.2
    · intro n
      rw [hcourse.mem_iff_departs harrows, hcourse'.mem_iff_departs harrows']
      exact apart n
  | @loop _ _ cond _ _ s _ _ _ _ leaves moves ih =>
    obtain ⟨M, G, harrows, hcourse⟩ := ih
    rw [programFigures_loop]
    refine ⟨_, _, ?_, .loop (c := cond.lower) (d := cond.lower.negation) hcourse ?_ moves⟩
    · -- marks on arrows that close the loop leave the arrows as they are
      have hclose := M.arrows_close s
      simp only [Marked.arrows, Traced.arrows] at harrows hclose
      simp [Marked.arrows, Traced.arrows, hclose, harrows]
    · rwa [hcourse.mem_iff_departs harrows]
  | seq _ rest apart leaves ih ih' =>
    obtain ⟨M, G, harrows, hcourse⟩ := ih
    obtain ⟨N, H, harrows', hcourse'⟩ := ih'
    rw [programFigures_append rest.ne_nil]
    refine ⟨_, _, ?_, .seq hcourse hcourse' ?_ ?_⟩
    · rw [Marked.arrows_append, harrows, harrows', Traced.arrows, Traced.arrows, Traced.arrows,
        List.map_append]
    · intro n
      rw [hcourse.mem_iff_departs harrows, hcourse'.mem_iff_departs harrows']
      exact apart n
    · rwa [hcourse.mem_iff_departs harrows]

/-- The entry of a program leads to every point, and every point leads to the last one. -/
theorem lowerProgram_reaches (h : ∀ i ∈ p, i.Checked) {n : Nat}
    (hn : n < (lowerProgram 0 1 p).next) :
    Arrow.Reaches (lowerProgram 0 1 p).arrows 0 n ∧
      Arrow.Reaches (lowerProgram 0 1 p).arrows n (lowerProgram 0 1 p).finish := by
  rcases lowerProgram_cases h with rfl | ⟨T, -, hT, hflow, hdeparts⟩
  · obtain rfl : n = 0 := Nat.lt_one_iff.mp hn
    exact ⟨.refl, .refl⟩
  · obtain ⟨M, G, hM, hcourse⟩ := hflow.course
    have hreaches := hcourse.reaches
    rw [hM, hT] at hreaches
    by_cases hfin : n = (lowerProgram 0 1 p).finish
    · rw [hfin]
      exact ⟨(hreaches 0 hcourse.start_mem).2, .refl⟩
    · exact hreaches n ((hcourse.mem_iff_departs hM).mpr ((hdeparts n).mpr ⟨hn, hfin⟩))

end MicroFlow.Source
