import MicroFlow.Dependence.Graph

/-!
# Slices

The backward slice of an edge holds the edges that can affect its action, the forward
slice those that its action can affect.  A slice can be restricted to the data
dependences on one variable; control dependences are always followed.
-/

namespace MicroFlow

namespace DependenceGraph

inductive Direction where
  | backward
  | forward
deriving DecidableEq, Repr

/-- The dependence counts in a slice restricted to a variable, if one is given. -/
def follows (only : Option String) (d : Dependence) : Bool :=
  match only, d.kind with
  | some x, .data => d.label == x
  | _, _ => true

/-- The edges that one step of a slice leads to. -/
def neighbours (p : DependenceGraph) (dir : Direction) (only : Option String) (edge : Int) :
    List Int :=
  (p.dependences.filter (follows only)).filterMap fun d =>
    match dir with
    | .backward => if d.target = edge then some d.source else none
    | .forward => if d.source = edge then some d.target else none

/-- The edges among `candidates` that are not visited yet, each once. -/
def fresh (visited : List Int) : List Int → List Int
  | [] => []
  | e :: rest => if visited.contains e then fresh visited rest else e :: fresh (e :: visited) rest

/--
Breadth-first search.  `visited` holds the edges that were found, `queue` those that
have not been looked at.  Every edge is looked at once, which bounds `fuel`.
-/
def search (step : Int → List Int) : Nat → List Int → List Int → List Int
  | 0, visited, _ => visited
  | _ + 1, visited, [] => visited
  | fuel + 1, visited, e :: queue =>
    let found := fresh visited (step e)
    search step fuel (found ++ visited) (queue ++ found)

/-- The slice of an edge in increasing order; an edge that does not exist has none. -/
def slice (p : DependenceGraph) (dir : Direction) (only : Option String) (edge : Int) :
    Option (List Int) :=
  if edge < 0 ∨ p.program.edges.size ≤ edge then none
  else
    let fuel := 2 * p.dependences.length + 2
    some ((search (p.neighbours dir only) fuel [edge] [edge]).mergeSort)

end DependenceGraph

end MicroFlow
