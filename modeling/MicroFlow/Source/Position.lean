import MicroFlow.Text.Utf8

/-!
# Places in a source text

A place is a line and a column, both counted from 1.  Columns count code points; a
malformed byte counts as one.
-/

namespace MicroFlow

/-- A place in a source text. -/
structure Pos where
  line : Int := 0
  col : Int := 0
deriving DecidableEq, Repr, Inhabited

namespace Pos

/-- The first place of a text. -/
def first : Pos := ⟨1, 1⟩

/-- How a place is written. -/
def text (p : Pos) : String := toString p.line ++ ":" ++ toString p.col

/-- The place after one code point. -/
def step (p : Pos) (c : Option Char) : Pos :=
  if c = some '\n' then ⟨p.line + 1, 1⟩ else ⟨p.line, p.col + 1⟩

/-- The place after a stretch of text. -/
def after (p : Pos) (passed : Text.Bytes) : Pos := (Text.decode passed).foldl step p

end Pos

end MicroFlow
