import MicroFlow.Expr.Basic

/-!
# Written expressions

`flatten` writes a tree as a token sequence, with parentheses only where binding
strength or association to the left asks for them.  `text` writes it as a text:
tokens are separated by one space, except after an opening and before a closing
parenthesis.
-/

namespace MicroFlow

/-- What is printed for one token. -/
inductive Word where
  | opening
  | closing
  | text (s : String)
deriving DecidableEq, Repr, Inhabited

namespace Word

/-- The characters of a word. -/
def chars : Word → String
  | opening => "("
  | closing => ")"
  | text s => s

/-- No space separates a word from what precedes it directly. -/
def glued : Word → Word → Bool
  | opening, _ => true
  | _, closing => true
  | _, _ => false

/-- Words behind another word, with the spaces between them. -/
def joinAfter (previous : Word) : List Word → String
  | [] => ""
  | w :: rest => (if glued previous w then "" else " ") ++ w.chars ++ joinAfter w rest

/-- Words with the spaces between them. -/
def join : List Word → String
  | [] => ""
  | w :: rest => w.chars ++ joinAfter w rest

/-- The word is no parenthesis. -/
def isText : Word → Bool
  | text _ => true
  | _ => false

/-- Puts words in the places of a layout. -/
def weave : List Mark → List Word → List Word
  | [], _ => []
  | .opening :: marks, words => opening :: weave marks words
  | .closing :: marks, words => closing :: weave marks words
  | .token :: marks, w :: words => w :: weave marks words
  | .token :: marks, [] => weave marks []

/-- The text of words that are written in the given layout. -/
def joinIn (layout : Layout) (words : List Word) : String :=
  match layout with
  | none => join words
  | some marks => join (weave marks (words.filter isText))

end Word

namespace Symbol

/-- What is printed for a token that is no operand. -/
def word : Symbol → Word
  | operator op => .text op.symbol
  | opening => .opening
  | closing => .closing
  | unknown => .text "?"

end Symbol

namespace Expr

/-- How tightly a tree holds together: leaves more than any operator. -/
def binding : Expr → Nat
  | node op _ _ => op.precedence
  | _ => 7

/-- Puts a sequence in parentheses when `needed`. -/
def enclose {α : Type} (opening closing : α) (needed : Bool) (inner : List α) : List α :=
  if needed then opening :: inner ++ [closing] else inner

/-- The words of a tree. -/
def words : Expr → List Word
  | missing => []
  | literal n => [.text (toString n)]
  | truth b => [.text (if b then "true" else "false")]
  | scalar x => [.text x]
  | element x missing _ => [.text (x ++ "[?]")]
  | element x i l => [.text (x ++ "[" ++ Word.joinIn l i.words ++ "]")]
  | field x s => [.text (x ++ "." ++ s.name)]
  | odd x => [.text x]
  | symbol s => [s.word]
  | node .not _ r =>
    .text Operator.not.symbol ::
      enclose .opening .closing (r.binding < Operator.not.precedence) r.words
  | node op l r =>
    enclose .opening .closing (l.binding < op.precedence) l.words ++
      .text op.symbol :: enclose .opening .closing (r.binding ≤ op.precedence) r.words

/-- The tokens of a tree. -/
def flatten : Expr → List Token
  | missing => []
  | literal n => [.literal n]
  | truth b => [.truth b]
  | scalar x => [.access (.scalar x)]
  | element x i l => [.access (.element x i l)]
  | field x s => [.access (.field x s)]
  | odd x => [.access (.odd x)]
  | symbol s => [.symbol s]
  | node .not _ r =>
    .symbol (.operator .not) ::
      enclose (.symbol .opening) (.symbol .closing) (r.binding < Operator.not.precedence) r.flatten
  | node op l r =>
    enclose (.symbol .opening) (.symbol .closing) (l.binding < op.precedence) l.flatten ++
      .symbol (.operator op) ::
        enclose (.symbol .opening) (.symbol .closing) (r.binding ≤ op.precedence) r.flatten

/-- How a tree is written. -/
def text (e : Expr) : String := Word.join e.words

end Expr

namespace Access

/-- How an access is written. -/
def text (a : Access) : String := a.toExpr.text

end Access

namespace Token

/-- What is printed for a token. -/
def word : Token → Word
  | literal n => .text (toString n)
  | truth b => .text (if b then "true" else "false")
  | access a => .text a.text
  | symbol s => s.word

/-- How a token is written. -/
def text (t : Token) : String := t.word.chars

/-- How a token sequence is written. -/
def join (tokens : List Token) : String := Word.join (tokens.map word)

/-- The token can stand alone as a leaf. -/
def isOperand : Token → Bool
  | symbol _ => false
  | _ => true

/-- The place of a token in a layout. -/
def mark : Token → Mark
  | symbol .opening => .opening
  | symbol .closing => .closing
  | _ => .token

/-- Puts tokens in the places of a layout. -/
def weave : List Mark → List Token → List Token
  | [], _ => []
  | .opening :: marks, tokens => symbol .opening :: weave marks tokens
  | .closing :: marks, tokens => symbol .closing :: weave marks tokens
  | .token :: marks, t :: tokens => t :: weave marks tokens
  | .token :: marks, [] => weave marks []

end Token

namespace Access

/-- The index of an array access as it was written. -/
def indexTokens : Access → List Token
  | element _ i none => i.flatten
  | element _ i (some marks) => Token.weave marks (i.flatten.filter fun t => t.mark == .token)
  | _ => []

end Access

end MicroFlow
