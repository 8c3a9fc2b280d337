import MicroFlow.Proofs.Lowering.Parts
import MicroFlow.Proofs.Source.Grammar

/-!
# The parts of a written program

A program that was read from a text has no gaps: its parts are written as the grammar says, with
lexemes of the text (`Part.Spelled`, `Derives.spelled`), and so are its declarations
(`Derives.declared`).  What is known of all lexemes of a text, `ok`, is carried along.
-/

namespace MicroFlow.Source

open Grammar

/-- The part is written as the grammar says, with good lexemes. -/
inductive Part.Spelled (ok : Located → Prop) : Part → Prop
  | assign {x : Place} {e : Arith} {a b c d : Rest} (good : ∀ t ∈ a, ok t)
      (target : Expression .place a x.toArith b) (good' : ∀ t ∈ c, ok t)
      (value : Expression .sum c e d) : Part.Spelled ok (.assign (some x) e)
  | read {x : Place} {a b : Rest} (good : ∀ t ∈ a, ok t)
      (target : Expression .place a x.toArith b) : Part.Spelled ok (.read (some x))
  | write {e : Arith} {a b : Rest} (good : ∀ t ∈ a, ok t) (value : Expression .sum a e b) :
      Part.Spelled ok (.write e)
  | guard {x : Cond} {holds : Bool} {a b : Rest} (good : ∀ t ∈ a, ok t)
      (cond : Condition .disjunction a x b) : Part.Spelled ok (.guard x holds)

namespace Grammar

variable {ok : Located → Prop}

/-- What is behind a part is a part of the text. -/
theorem Behind.good {a b : Rest} (h : Behind b a) (good : ∀ t ∈ a, ok t) : ∀ t ∈ b, ok t :=
  fun t ht => good t (h.suffix.subset ht)

/-- Both guards of a condition are written once. -/
theorem Guard.spelled {a b : Rest} {x : Cond} (h : Guard a x b) (good : ∀ t ∈ a, ok t)
    (holds : Bool) : Part.Spelled ok (.guard x holds) := by
  cases h with
  | parens h => exact .guard (fun t ht => good t (List.mem_cons_of_mem _ ht)) h

mutual

/-- The parts of a statement are written among its lexemes. -/
theorem Statement.spelled : ∀ {a b : Rest} {s : Stmt}, Statement a s b → (∀ t ∈ a, ok t) →
    ∀ q ∈ s.parts, q.Spelled ok
  | _, _, _, .assign h g, good => by
    intro q hq
    rw [List.mem_singleton.mp hq]
    exact .assign good h (h.behind.tail.good good) g
  | _, _, _, .read h, good => by
    intro q hq
    rw [List.mem_singleton.mp hq]
    exact .read (fun t ht => good t (List.mem_cons_of_mem _ ht)) h
  | _, _, _, .write h, good => by
    intro q hq
    rw [List.mem_singleton.mp hq]
    exact .write (fun t ht => good t (List.mem_cons_of_mem _ ht)) h
  | _, _, _, .ifThen h g, good | _, _, _, .loop h g, good => by
    have hgood := (behind_cons _ _).good good
    intro q hq
    simp only [Stmt.parts, List.cons_append, List.mem_cons, List.mem_append, List.not_mem_nil,
      or_false] at hq
    rcases hq with rfl | hq | rfl
    · exact h.spelled hgood true
    · exact g.spelled (h.behind.good hgood) q hq
    · exact h.spelled hgood false
  | _, _, _, .ifElse h g g', good => by
    have hgood := (behind_cons _ _).good good
    intro q hq
    simp only [Stmt.parts, List.mem_cons, List.mem_append] at hq
    rcases hq with rfl | rfl | hq | hq
    · exact h.spelled hgood true
    · exact h.spelled hgood false
    · exact g.spelled (h.behind.good hgood) q hq
    · exact g'.spelled ((g.behind.tail.trans h.behind).good hgood) q hq

theorem Block.spelled : ∀ {a b : Rest} {body : Source.Block}, Block a body b → (∀ t ∈ a, ok t) →
    ∀ q ∈ body.parts, q.Spelled ok
  | _, _, _, .braces h, good => h.spelled ((behind_cons _ _).good good)

theorem Statements.spelled : ∀ {a b : Rest} {body : Source.Block}, Statements a body b →
    (∀ t ∈ a, ok t) → ∀ q ∈ body.parts, q.Spelled ok
  | _, _, _, .nil, _ => by simp [Block.parts]
  | _, _, _, .cons h g, good => by
    intro q hq
    rcases List.mem_append.mp hq with hq | hq
    · exact h.spelled good q hq
    · exact g.spelled (h.behind.good good) q hq

end

/-- So are the parts of a program. -/
theorem Derives.spelled {a : Rest} {p : Program} (h : Derives a p) (good : ∀ t ∈ a, ok t) :
    ∀ s, Item.stmt s ∈ p → ∀ q ∈ s.parts, q.Spelled ok := by
  induction h with
  | nil => simp
  | declaration hi _ ih =>
    intro s hs
    rcases List.mem_cons.mp hs with rfl | hs
    · cases hi
    · exact ih (hi.behind.good good) s hs
  | statement hi _ ih =>
    intro s hs
    rcases List.mem_cons.mp hs with hs | hs
    · cases hs
      exact hi.spelled good
    · exact ih (hi.behind.good good) s hs

/-- The declarations of a written program are written. -/
theorem Derives.declared {a : Rest} {p : Program} (h : Derives a p) (good : ∀ t ∈ a, ok t)
    {pos : Pos} {shape : Shape} {name : String} {length : Int}
    (hi : Item.declare pos shape name length ∈ p) :
    ∃ c b, (∀ t ∈ c, ok t) ∧ Declaration c (.declare pos shape name length) b := by
  induction h with
  | nil => cases hi
  | declaration hd _ ih =>
    rcases List.mem_cons.mp hi with rfl | hi
    · exact ⟨_, _, good, hd⟩
    · exact ih (hd.behind.good good) hi
  | statement hs _ ih =>
    rcases List.mem_cons.mp hi with hi | hi
    · cases hi
    · exact ih (hs.behind.good good) hi

end Grammar

end MicroFlow.Source
