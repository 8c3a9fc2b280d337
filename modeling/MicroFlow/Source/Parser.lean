import MicroFlow.Source.Lexeme
import MicroFlow.Source.Tree
import MicroFlow.Text.Decimal

/-!
# From lexemes to a program tree

A recursive descent over the lexemes.  Sums and products associate to the left, and
so do `|` and `&`.  An opening parenthesis in a condition can start a condition or
the left side of a relation: the first is tried, and on failure the second.

Every function takes the lexemes that are left and returns a tree with the lexemes
behind it.  Each call takes one unit of `fuel`; `parse` provides enough of it for
every text.
-/

namespace MicroFlow.Source

/-- The lexemes that are left. -/
abbrev Rest := List Located

/-- What is read, or the first error. -/
abbrev Reading := Except SyntaxError

/-- Words that are no identifiers. -/
def keywords : List String :=
  ["int", "if", "else", "while", "read", "write", "true", "false", "not"]

section
variable (stop : Pos)

/-- The error for lexemes that do not start as expected. -/
def expected (what : Expectation) : Rest → SyntaxError
  | [] => ⟨stop, .expected what none⟩
  | t :: _ => ⟨t.pos, .expected what (some t.lexeme)⟩

/-- The place where the lexemes start. -/
def here : Rest → Pos
  | [] => stop
  | t :: _ => t.pos

/-- Passes over a given lexeme. -/
def expect (l : Lexeme) : Rest → Reading Rest
  | t :: rest => if t.lexeme = l then .ok rest else .error (expected stop (.lexeme l) (t :: rest))
  | [] => .error (expected stop (.lexeme l) [])

def identifier : Rest → Reading ((String × Pos) × Rest)
  | ⟨.word w, pos⟩ :: rest =>
    if w ∈ keywords then .error (expected stop .identifier (⟨.word w, pos⟩ :: rest))
    else .ok ((w, pos), rest)
  | toks => .error (expected stop .identifier toks)

/-- Reads the digits of a number that may be negated. -/
def digits (negative : Bool) : Rest → Reading (Int × Rest)
  | ⟨.number ds, pos⟩ :: rest =>
    let value : Int := Text.ofDigits ds.toList
    if Text.maxInt < value then .error ⟨pos, .tooLarge ds⟩
    else .ok (if negative then -value else value, rest)
  | toks => .error (expected stop .number toks)

/-- Reads a number.  A minus sign belongs to it when digits follow. -/
def number : Rest → Reading (Int × Rest)
  | ⟨.mark .minus, _⟩ :: ⟨.number ds, pos⟩ :: rest => digits stop true (⟨.number ds, pos⟩ :: rest)
  | toks => digits stop false toks

/-- The operator of a sum. -/
def sumOp? : Lexeme → Option ArithOp
  | .mark .plus => some .add
  | .mark .minus => some .sub
  | _ => none

/-- The operator of a product. -/
def productOp? : Lexeme → Option ArithOp
  | .mark .star => some .mul
  | .mark .slash => some .div
  | .mark .percent => some .mod
  | _ => none

/-- The operator of a relation. -/
def relOp? : Lexeme → Option RelOp
  | .mark .lt => some .lt
  | .mark .gt => some .gt
  | .mark .le => some .le
  | .mark .ge => some .ge
  | .mark .eq => some .eq
  | .mark .ne => some .ne
  | _ => none

/-! ## Expressions -/

/-- The error when the fuel is spent. -/
def spent {α : Type} (toks : Rest) : Reading (α × Rest) := .error ⟨here stop toks, .tooDeep⟩

mutual

def sum : Nat → Rest → Reading (Arith × Rest)
  | 0, toks => spent stop toks
  | fuel + 1, toks => do
    let (left, toks) ← product fuel toks
    sumTail fuel left toks

/-- Reads the summands behind the first. -/
def sumTail : Nat → Arith → Rest → Reading (Arith × Rest)
  | 0, _, toks => spent stop toks
  | _, left, [] => .ok (left, [])
  | fuel + 1, left, t :: rest =>
    match sumOp? t.lexeme with
    | some op => do
      let (right, rest) ← product fuel rest
      sumTail fuel (.binary t.pos (.arith op) left right) rest
    | none => .ok (left, t :: rest)

def product : Nat → Rest → Reading (Arith × Rest)
  | 0, toks => spent stop toks
  | fuel + 1, toks => do
    let (left, toks) ← factor fuel toks
    productTail fuel left toks

/-- Reads the factors behind the first. -/
def productTail : Nat → Arith → Rest → Reading (Arith × Rest)
  | 0, _, toks => spent stop toks
  | _, left, [] => .ok (left, [])
  | fuel + 1, left, t :: rest =>
    match productOp? t.lexeme with
    | some op => do
      let (right, rest) ← factor fuel rest
      productTail fuel (.binary t.pos (.arith op) left right) rest
    | none => .ok (left, t :: rest)

/-- Reads a number, an access or a sum in parentheses. -/
def factor : Nat → Rest → Reading (Arith × Rest)
  | 0, toks => spent stop toks
  | fuel + 1, toks =>
    match toks with
    | ⟨.number _, pos⟩ :: _ | ⟨.mark .minus, pos⟩ :: _ => do
      let (value, rest) ← number stop toks
      return (.num pos value, rest)
    | ⟨.mark .openParen, _⟩ :: rest => do
      let (e, rest) ← sum fuel rest
      let rest ← expect stop (.mark .closeParen) rest
      return (e, rest)
    | ⟨.word _, _⟩ :: _ => do
      let (p, rest) ← place fuel toks
      return (p.toArith, rest)
    | _ => .error (expected stop .arithmetic toks)

/-- Reads an access: a name, possibly with an index or a field. -/
def place : Nat → Rest → Reading (Place × Rest)
  | 0, toks => spent stop toks
  | fuel + 1, toks => do
    let ((name, pos), rest) ← identifier stop toks
    match rest with
    | ⟨.mark .openBracket, _⟩ :: rest =>
      let (index, rest) ← sum fuel rest
      let rest ← expect stop (.mark .closeBracket) rest
      return (⟨pos, .array, name, index, ""⟩, rest)
    | ⟨.mark .dot, _⟩ :: ⟨.word field, _⟩ :: rest =>
      return (⟨pos, .record, name, .missing, field⟩, rest)
    | ⟨.mark .dot, _⟩ :: rest => .error (expected stop .recordField rest)
    | rest => return (⟨pos, .scalar, name, .missing, ""⟩, rest)

end

/-- Reads a relation between two sums. -/
def relation (fuel : Nat) (toks : Rest) : Reading (Cond × Rest) := do
  let (left, rest) ← sum stop fuel toks
  match rest with
  | [] => .error (expected stop .relation rest)
  | t :: after =>
    match relOp? t.lexeme with
    | none => .error (expected stop .relation rest)
    | some op => do
      let (right, rest) ← sum stop fuel after
      return (.rel t.pos (.rel op) left right, rest)

mutual

def disjunction : Nat → Rest → Reading (Cond × Rest)
  | 0, toks => spent stop toks
  | fuel + 1, toks => do
    let (left, toks) ← conjunction fuel toks
    disjunctionTail fuel left toks

/-- Reads the alternatives behind the first. -/
def disjunctionTail : Nat → Cond → Rest → Reading (Cond × Rest)
  | 0, _, toks => spent stop toks
  | fuel + 1, left, ⟨.mark .bar, pos⟩ :: rest => do
    let (right, rest) ← conjunction fuel rest
    disjunctionTail fuel (.logic pos .or left right) rest
  | _, left, toks => .ok (left, toks)

def conjunction : Nat → Rest → Reading (Cond × Rest)
  | 0, toks => spent stop toks
  | fuel + 1, toks => do
    let (left, toks) ← negation fuel toks
    conjunctionTail fuel left toks

/-- Reads the conjuncts behind the first. -/
def conjunctionTail : Nat → Cond → Rest → Reading (Cond × Rest)
  | 0, _, toks => spent stop toks
  | fuel + 1, left, ⟨.mark .amp, pos⟩ :: rest => do
    let (right, rest) ← negation fuel rest
    conjunctionTail fuel (.logic pos .and left right) rest
  | _, left, toks => .ok (left, toks)

/-- Reads a condition behind any number of negations. -/
def negation : Nat → Rest → Reading (Cond × Rest)
  | 0, toks => spent stop toks
  | fuel + 1, ⟨.word "not", pos⟩ :: rest => do
    let (x, rest) ← negation fuel rest
    return (.not pos x, rest)
  | fuel + 1, toks => primary fuel toks

/-- Reads a truth value, a condition in parentheses or a relation. -/
def primary : Nat → Rest → Reading (Cond × Rest)
  | 0, toks => spent stop toks
  | fuel + 1, toks =>
    match toks with
    | ⟨.word "true", pos⟩ :: rest => .ok (.truth pos true, rest)
    | ⟨.word "false", pos⟩ :: rest => .ok (.truth pos false, rest)
    | ⟨.mark .openParen, _⟩ :: rest =>
      match disjunction fuel rest with
      | .ok (c, ⟨.mark .closeParen, _⟩ :: rest) => .ok (c, rest)
      | _ => relation stop fuel toks
    | _ => relation stop fuel toks

end

/-- Reads a condition in parentheses. -/
def condition (fuel : Nat) (toks : Rest) : Reading (Cond × Rest) := do
  let rest ← expect stop (.mark .openParen) toks
  let (c, rest) ← disjunction stop fuel rest
  let rest ← expect stop (.mark .closeParen) rest
  return (c, rest)

/-! ## Statements and declarations -/

mutual

def statement : Nat → Rest → Reading (Stmt × Rest)
  | 0, toks => spent stop toks
  | fuel + 1, toks =>
    match toks with
    | ⟨.word "read", pos⟩ :: rest => do
      let (target, rest) ← place stop fuel rest
      let rest ← expect stop (.mark .semicolon) rest
      return (.read pos (some target), rest)
    | ⟨.word "write", pos⟩ :: rest => do
      let (value, rest) ← sum stop fuel rest
      let rest ← expect stop (.mark .semicolon) rest
      return (.write pos value, rest)
    | ⟨.word "if", pos⟩ :: rest => do
      let (cond, rest) ← condition stop fuel rest
      let (body, rest) ← block fuel rest
      match rest with
      | ⟨.word "else", _⟩ :: rest =>
        let (other, rest) ← block fuel rest
        return (.ifElse pos cond body other, rest)
      | rest => return (.ifThen pos cond body, rest)
    | ⟨.word "while", pos⟩ :: rest => do
      let (cond, rest) ← condition stop fuel rest
      let (body, rest) ← block fuel rest
      return (.loop pos cond body, rest)
    | ⟨.word w, pos⟩ :: _ =>
      if w ∈ keywords then .error (expected stop .statement toks)
      else do
        let (target, rest) ← place stop fuel toks
        let rest ← expect stop (.mark .assign) rest
        let (value, rest) ← sum stop fuel rest
        let rest ← expect stop (.mark .semicolon) rest
        return (.assign pos (some target) value, rest)
    | _ => .error (expected stop .statement toks)

/-- Reads a block in braces. -/
def block : Nat → Rest → Reading (Block × Rest)
  | 0, toks => spent stop toks
  | fuel + 1, toks => do
    let rest ← expect stop (.mark .openBrace) toks
    statements fuel rest

/-- Reads statements up to the closing brace. -/
def statements : Nat → Rest → Reading (Block × Rest)
  | 0, toks => spent stop toks
  | _ + 1, [] => .error ⟨stop, .unterminatedBlock⟩
  | _ + 1, ⟨.mark .closeBrace, _⟩ :: rest => .ok (.nil, rest)
  | fuel + 1, t :: rest => do
    let (s, rest) ← statement fuel (t :: rest)
    let (b, rest) ← statements fuel rest
    return (.cons s b, rest)

end

/-- Passes over the fields of a record declaration. -/
def recordFields (toks : Rest) : Reading Rest := do
  let toks ← expect stop (.word "int") toks
  let toks ← expect stop (.word "fst") toks
  let toks ← expect stop (.mark .semicolon) toks
  let toks ← expect stop (.word "int") toks
  let toks ← expect stop (.word "snd") toks
  expect stop (.mark .closeBrace) toks

/-- Reads the name that a declaration ends with. -/
def declared (pos : Pos) (shape : Shape) (length : Int) (toks : Rest) : Reading (Item × Rest) := do
  let ((name, _), rest) ← identifier stop toks
  let rest ← expect stop (.mark .semicolon) rest
  return (.declare pos shape name length, rest)

/-- Reads a declaration or a statement. -/
def item (fuel : Nat) (toks : Rest) : Reading (Item × Rest) :=
  match toks with
  | ⟨.mark .openBrace, pos⟩ :: rest => do
    let rest ← recordFields stop rest
    declared stop pos .record 0 rest
  | ⟨.word "int", pos⟩ :: ⟨.mark .openBracket, _⟩ :: rest => do
    let (length, rest) ← number stop rest
    let rest ← expect stop (.mark .closeBracket) rest
    declared stop pos .array length rest
  | ⟨.word "int", pos⟩ :: rest => declared stop pos .scalar 0 rest
  | _ => do
    let (s, rest) ← statement stop fuel toks
    return (.stmt s, rest)

/-- Reads items up to the end of the text. -/
def program : Nat → Rest → Reading Program
  | _, [] => .ok []
  | 0, toks => .error ⟨here stop toks, .tooDeep⟩
  | fuel + 1, toks => do
    let (first, rest) ← item stop fuel toks
    return first :: (← program fuel rest)

end

/-- Enough fuel for a number of lexemes: every level of nesting takes a bounded number of calls. -/
def fuelFor (lexemes : Nat) : Nat := 16 * (lexemes + 1)

def parse (src : Text.Bytes) : Reading Program := do
  let lexed ← lex src
  program lexed.stop (fuelFor lexed.lexemes.length) lexed.lexemes

end MicroFlow.Source
