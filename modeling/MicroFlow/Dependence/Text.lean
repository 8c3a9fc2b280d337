import MicroFlow.Data.Basic
import MicroFlow.Dependence.Slice

/-!
# Slices as text and data
-/

namespace MicroFlow

/-- A slice with the question it answers. -/
structure SliceAnswer where
  graph : DependenceGraph
  edge : Int
  direction : DependenceGraph.Direction
  /-- Only data dependences on this variable were followed. -/
  only : Option String
  edges : List Int

def DependenceGraph.Direction.name : DependenceGraph.Direction → String
  | backward => "backward"
  | forward => "forward"

namespace SliceAnswer

/-- The slice as a structured value; an empty restriction is left out. -/
def toData (s : SliceAnswer) : Data :=
  .record ([("edge", .int s.edge), ("direction", .text s.direction.name)] ++
    Data.textUnlessEmpty "variable" (s.only.getD "") ++
    [("slice_edges", .list (s.edges.map .int))])

/-- The line for an edge of the slice. -/
def edgeLine (g : Graph) (id : Int) : Except Fault String := do
  let e ← g.edgeAt id.toNat
  return "  e" ++ toString id ++ "  " ++ (← g.edgeText e) ++ "\n"

/-- The text form of a slice, with the direct dependences of its edge. -/
def text (s : SliceAnswer) : Except Fault String := do
  let name := "e" ++ toString s.edge
  let lines ← s.edges.mapM (edgeLine s.graph.program)
  let into := s.graph.into .data s.edge ++ s.graph.into .control s.edge
  return "=== Slice from " ++ name ++ " (" ++ s.direction.name ++ ") ===\n" ++
    (match s.only with
      | some x => "Variable: " ++ x ++ "\n"
      | none => "") ++
    "\nEdges (" ++ toString lines.length ++ "):\n" ++ String.join lines ++
    (if into.isEmpty then ""
      else "\nDirect dependences of " ++ name ++ ":\n" ++
        String.join (into.map fun d => "  " ++ d.text ++ "\n"))

end SliceAnswer

end MicroFlow
