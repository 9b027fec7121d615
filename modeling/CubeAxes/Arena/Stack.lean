import CubeAxes.Arena

/-!
# Walking an arena with a stack

The sets of members below a node can be met by a loop that keeps the nodes to be visited on a stack. In each step the node on top is taken off;
a set of members is met, and the nodes that any other node refers to are put on the stack, the last of them first, so that the first comes to
lie on top. The loop ends when the stack is empty. Nothing is checked on the way: a number that no node has stops it.
-/

namespace CubeAxes.Arena

/-- Puts numbers on a stack one after the other, so that the last of them lies on top. The top of a stack is its head. -/
def putOn (stack ids : List Nat) : List Nat := ids.foldl (fun stack id => id :: stack) stack

/-- Numbers that are put on a stack from the last to the first lie on it in their order. -/
theorem putOn_reverse (stack ids : List Nat) : putOn stack ids.reverse = ids ++ stack := by
  rw [putOn, List.foldl_reverse]
  exact List.foldr_cons_eq_append'

/-- How far a walk has come: the nodes to be visited, and the sets of members that were met, in the order in which they were. -/
structure Walk where
  stack : List Nat
  met : List (List Member) := []
  deriving DecidableEq, Repr

namespace Walk

/-- The walk from a root, before its first step. Without a root nothing is to be visited. -/
def start (root : Option Nat) : Walk := { stack := root.toList }

/-- Takes the node off the top of the stack and visits it. There is no step when nothing is left on the stack, and none when the number on top
is not that of a node. -/
def step (nodes : Arena) : Walk → Option Walk
  | ⟨[], _⟩ => none
  | ⟨id :: stack, met⟩ =>
    match nodes[id]? with
    | none => none
    | some (.members ms) => some ⟨stack, met ++ [ms]⟩
    | some (.join _ left right) => some ⟨putOn stack [right, left], met⟩
    | some (.union branches) => some ⟨putOn stack branches.reverse, met⟩

/-- How far a walk has come after a number of steps, if it comes to so many. -/
def steps (nodes : Arena) : Nat → Walk → Option Walk
  | 0, w => some w
  | n + 1, w => (w.step nodes).bind (steps nodes n)

/-- The walk ends: after some steps nothing is left on the stack, and the sets of members are those that were met. -/
def EndsIn (nodes : Arena) (w : Walk) (sets : List (List Member)) : Prop := ∃ n, w.steps nodes n = some ⟨[], sets⟩

variable {nodes : Arena}

/-- In a step the nodes that a node refers to take its place on the stack, in their order, and its own members are met. -/
theorem step_cons {id : Nat} {node : Node} (h : nodes[id]? = some node) (stack : List Nat) (met : List (List Member)) :
    step nodes ⟨id :: stack, met⟩ = some ⟨node.children ++ stack, met ++ node.memberSets⟩ := by
  rw [step, h]
  cases node with
  | members ms => rfl
  | join form left right => simp [putOn, Node.children, Node.memberSets]
  | union branches => simp [putOn_reverse, Node.children, Node.memberSets]

/-- A walk does not go on from a number that no node has. -/
theorem step_eq_none_of_size_le {id : Nat} (h : nodes.size ≤ id) (stack : List Nat) (met : List (List Member)) :
    step nodes ⟨id :: stack, met⟩ = none := by
  rw [step, Array.getElem?_eq_none h]

end Walk

end CubeAxes.Arena
