import MicroFlow.Source.Position
import MicroFlow.Text.Quoted

/-!
# Lexemes of microC

A source text is a sequence of numbers, words and punctuation marks, separated by
blanks and by comments that run from `//` to the end of the line.  Each lexeme is
as long as it can be.  Words are made of ASCII letters, digits and underscores.
-/

namespace MicroFlow.Source

open MicroFlow.Text (Bytes)

/-- Punctuation marks. -/
inductive Punct where
  | assign | le | ge | eq | ne
  | semicolon | comma | openBrace | closeBrace | openBracket | closeBracket
  | openParen | closeParen | dot
  | plus | minus | star | slash | percent | lt | gt | amp | bar
deriving DecidableEq, Repr, Inhabited

/-- How a mark is written. -/
def Punct.text : Punct → String
  | assign => ":="
  | le => "<="
  | ge => ">="
  | eq => "=="
  | ne => "!="
  | semicolon => ";"
  | comma => ","
  | openBrace => "\x7b"
  | closeBrace => "\x7d"
  | openBracket => "["
  | closeBracket => "]"
  | openParen => "("
  | closeParen => ")"
  | dot => "."
  | plus => "+"
  | minus => "-"
  | star => "*"
  | slash => "/"
  | percent => "%"
  | lt => "<"
  | gt => ">"
  | amp => "&"
  | bar => "|"

/-- A unit of the source text. -/
inductive Lexeme where
  | number (digits : String)
  | word (letters : String)
  | mark (p : Punct)
deriving DecidableEq, Repr, Inhabited

/-- The characters of a lexeme. -/
def Lexeme.text : Lexeme → String
  | number digits => digits
  | word letters => letters
  | mark p => p.text

/-- How a lexeme is named in a message: marks are quoted. -/
def Lexeme.shown : Lexeme → String
  | mark p => Text.quote p.text
  | l => l.text

/-- A lexeme and the place where it starts. -/
structure Located where
  lexeme : Lexeme
  pos : Pos
deriving DecidableEq, Repr, Inhabited

/-- What a text should have had at a place. -/
inductive Expectation where
  | lexeme (l : Lexeme)
  | identifier
  | number
  | statement
  | recordField
  | arithmetic
  | relation
deriving DecidableEq, Repr

/-- The expectation in words. -/
def Expectation.shown : Expectation → String
  | lexeme l => Text.quote l.text
  | identifier => "identifier"
  | number => "number"
  | statement => "statement"
  | recordField => "record field"
  | arithmetic => "arithmetic expression"
  | relation => "relational operator"

/-- Why a text is no program. -/
inductive SyntaxCause where
  /-- A byte that starts no lexeme. -/
  | unexpected (byte : UInt8)
  /-- Something else than expected; `none` is the end of the text. -/
  | expected (what : Expectation) (found : Option Lexeme)
  /-- A number that does not fit into 64 bits. -/
  | tooLarge (digits : String)
  | unterminatedBlock
  /-- The nesting exceeds what was allowed for. -/
  | tooDeep
deriving DecidableEq, Repr

/-- The cause in words. -/
def SyntaxCause.shown : SyntaxCause → String
  | unexpected byte => "unexpected character " ++ Text.quoteChar (Char.ofNat byte.toNat)
  | expected what found =>
    "expected " ++ what.shown ++ ", found " ++
      (match found with
        | some l => l.shown
        | none => "end of input")
  | tooLarge digits => "invalid number " ++ digits
  | unterminatedBlock => "unterminated block"
  | tooDeep => "nesting too deep"

/-- A text that is no program: the place and the cause. -/
structure SyntaxError where
  pos : Pos
  cause : SyntaxCause
deriving DecidableEq, Repr

def SyntaxError.message (e : SyntaxError) : String :=
  "syntax error at " ++ e.pos.text ++ ": " ++ e.cause.shown

/-! ## Bytes -/

/-- The byte of an ASCII character. -/
def ascii (c : Char) : UInt8 := c.toNat.toUInt8

def isDigit (b : UInt8) : Bool := ascii '0' ≤ b && b ≤ ascii '9'

def isLetter (b : UInt8) : Bool :=
  b == ascii '_' || (ascii 'a' ≤ b && b ≤ ascii 'z') || (ascii 'A' ≤ b && b ≤ ascii 'Z')

def isWordByte (b : UInt8) : Bool := isLetter b || isDigit b

def isSpace (b : UInt8) : Bool :=
  b == ascii ' ' || b == ascii '\t' || b == ascii '\r' || b == ascii '\n'

def asciiText (bytes : Bytes) : String := String.ofList (bytes.map fun b => Char.ofNat b.toNat)

/-- The mark of two characters, if they form one. -/
def doubleMark? (a b : UInt8) : Option Punct :=
  if b != ascii '=' then none
  else match Char.ofNat a.toNat with
    | ':' => some .assign
    | '<' => some .le
    | '>' => some .ge
    | '=' => some .eq
    | '!' => some .ne
    | _ => none

/-- The mark of one character, if it is one. -/
def singleMark? (a : UInt8) : Option Punct :=
  match Char.ofNat a.toNat with
  | ';' => some .semicolon
  | ',' => some .comma
  | '\x7b' => some .openBrace
  | '\x7d' => some .closeBrace
  | '[' => some .openBracket
  | ']' => some .closeBracket
  | '(' => some .openParen
  | ')' => some .closeParen
  | '.' => some .dot
  | '+' => some .plus
  | '-' => some .minus
  | '*' => some .star
  | '/' => some .slash
  | '%' => some .percent
  | '<' => some .lt
  | '>' => some .gt
  | '&' => some .amp
  | '|' => some .bar
  | _ => none

/-! ## Cutting a text into pieces -/

/-- A stretch of text: a lexeme, or a blank or comment, with its width in bytes. -/
structure Piece where
  lexeme? : Option Lexeme
  width : Nat
deriving DecidableEq, Repr

/-- The longest mark at the head of a text. -/
def markAt (a : UInt8) (rest : Bytes) : Option Piece :=
  match rest.head?.bind (doubleMark? a) with
  | some p => some ⟨some (.mark p), 2⟩
  | none => (singleMark? a).map fun p => ⟨some (.mark p), 1⟩

/-- The piece that starts with byte `a` and continues in `rest`, if there is one. -/
def pieceAt (a : UInt8) (rest : Bytes) : Option Piece :=
  if isSpace a then some ⟨none, 1⟩
  else if a == ascii '/' && rest.head? == some (ascii '/') then
    some ⟨none, 1 + (rest.takeWhile (· != ascii '\n')).length⟩
  else if isDigit a then
    let run := a :: rest.takeWhile isDigit
    some ⟨some (.number (asciiText run)), run.length⟩
  else if isLetter a then
    let run := a :: rest.takeWhile isWordByte
    some ⟨some (.word (asciiText run)), run.length⟩
  else markAt a rest

/-- The lexemes of a text and the place of its end. -/
structure Lexed where
  lexemes : List Located
  stop : Pos
deriving DecidableEq, Repr

/--
Cuts a text that stands at `pos` into lexemes.  The first `skip` bytes belong to a
piece that was already taken; `pos` is the place after that piece.
-/
def lexFrom (skip : Nat) (pos : Pos) : Bytes → Except SyntaxError Lexed
  | [] => .ok ⟨[], pos⟩
  | a :: rest =>
    match skip with
    | k + 1 => lexFrom k pos rest
    | 0 =>
      match pieceAt a rest with
      | none => .error ⟨pos, .unexpected a⟩
      | some piece => do
        let passed := a :: rest.take (piece.width - 1)
        let tail ← lexFrom (piece.width - 1) (pos.after passed) rest
        match piece.lexeme? with
        | some l => return { tail with lexemes := ⟨l, pos⟩ :: tail.lexemes }
        | none => return tail

/-- Cuts a source text into lexemes. -/
def lex (src : Bytes) : Except SyntaxError Lexed := lexFrom 0 .first src

end MicroFlow.Source
