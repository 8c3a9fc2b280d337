/-!
# Data

The values that the formats for structured output have in common.  A record keeps
its fields in order.
-/

namespace MicroFlow

/-- A structured value. -/
inductive Data where
  | null
  | bool (b : Bool)
  | int (n : Int)
  | text (s : String)
  | list (items : List Data)
  | record (fields : List (String × Data))
deriving Repr, Inhabited

namespace Data

/-- A field that is left out when its value is zero. -/
def intUnlessZero (key : String) (n : Int) : List (String × Data) :=
  if n = 0 then [] else [(key, .int n)]

/-- A field that is left out when it is false. -/
def flagIfSet (key : String) (b : Bool) : List (String × Data) :=
  if b then [(key, .bool true)] else []

/-- A field that is left out when the text is empty. -/
def textUnlessEmpty (key : String) (s : String) : List (String × Data) :=
  if s == "" then [] else [(key, .text s)]

/-- A field that is left out when the list is empty. -/
def listUnlessEmpty (key : String) (items : List Data) : List (String × Data) :=
  if items.isEmpty then [] else [(key, .list items)]

end Data

end MicroFlow
