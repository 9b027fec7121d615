import CubeAxes.TupleSet

/-!
# Arenas: tuple sets laid out as nodes

A tuple set is kept as nodes that refer to one another by number. A node is numbered by how many were there before it, and refers
to earlier ones only, so a set that two others use can be kept once. From a node the set it stands for is read back
(`Arena.tuples`); a reference that is not to an earlier node stands for no tuples, so the reading ends whatever the nodes are.
-/

namespace CubeAxes

/-- A set whose parts are given by number. -/
inductive Node where
  | members (ms : List Member)
  | join (form : JoinForm) (left right : Nat)
  | union (branches : List Nat)
  deriving DecidableEq, Repr

namespace Node

/-- The nodes that a node refers to, from left to right. -/
def children : Node → List Nat
  | members _ => []
  | join _ left right => [left, right]
  | union branches => branches

/-- The references of the node of a number that are to earlier nodes. -/
def earlierChildren (node : Node) (id : Nat) : List Nat := node.children.filter fun child => decide (child < id)

/-- The set that a node stands for, its parts being read by `part`. -/
def read (part : Nat → TupleSet) : Node → TupleSet
  | members ms => .members ms
  | join form left right => .join form (part left) (part right)
  | union branches => .union (branches.map part)

/-- The members that a node holds itself. -/
def memberSets : Node → List (List Member)
  | members ms => [ms]
  | _ => []

end Node

/-- Nodes in the order in which they were added. -/
abbrev Arena : Type := Array Node

namespace Arena

/-- Adds a node and says its number. -/
def add (nodes : Arena) (node : Node) : Arena × Nat := (nodes.push node, nodes.size)

/-- Joins nodes in a form, nested to the right, and says the number of the outermost join; no nodes have no join. -/
def chain (form : JoinForm) (nodes : Arena) : List Nat → Option (Arena × Nat)
  | [] => none
  | [id] => some (nodes, id)
  | id :: ids => (chain form nodes ids).map fun (nodes, right) => add nodes (.join form id right)

/-- Joins nodes by calls. -/
def joinChain (nodes : Arena) (ids : List Nat) : Option (Arena × Nat) := nodes.chain .call ids

/-- The set that the node of a number stands for. -/
def tuples (nodes : Arena) (id : Nat) : TupleSet :=
  match nodes[id]? with
  | none => .union []
  | some node => node.read fun child => if _ : child < id then tuples nodes child else .union []
termination_by id

/-- The set of a node is read from the sets of the earlier nodes that it refers to. -/
theorem tuples_of_getElem? {nodes : Arena} {id : Nat} {node : Node} (h : nodes[id]? = some node) :
    nodes.tuples id = node.read fun child => if child < id then nodes.tuples child else .union [] := by
  rw [tuples, h]
  rfl

/-- A number that no node has stands for no tuples. -/
theorem tuples_of_size_le {nodes : Arena} {id : Nat} (h : nodes.size ≤ id) : nodes.tuples id = .union [] := by
  rw [tuples, Array.getElem?_eq_none h]

/-- A node added later does not change what an earlier one stands for. -/
theorem tuples_push_of_lt (nodes : Arena) (node : Node) {id : Nat} (h : id < nodes.size) :
    tuples (nodes.push node) id = nodes.tuples id := by
  induction id using Nat.strongRecOn with
  | ind id ih =>
    have here : nodes[id]? = some nodes[id] := Array.getElem?_eq_getElem h
    have there : (nodes.push node)[id]? = some nodes[id] := by
      rw [Array.getElem?_push_lt h]
    rw [tuples_of_getElem? here, tuples_of_getElem? there]
    congr 1
    funext child
    split
    · next hc => exact ih child hc (Nat.lt_trans hc h)
    · rfl

mutual

/-- Adds the nodes of a set, its parts before it and from left to right, and says its number. -/
def lay (nodes : Arena) : TupleSet → Arena × Nat
  | .members ms => add nodes (.members ms)
  | .join form left right =>
    let (nodes, l) := lay nodes left
    let (nodes, r) := lay nodes right
    add nodes (.join form l r)
  | .union branches =>
    let (nodes, ids) := layAll nodes branches
    add nodes (.union ids)

/-- Adds the nodes of several sets one after the other and says their numbers. -/
def layAll (nodes : Arena) : List TupleSet → Arena × List Nat
  | [] => (nodes, [])
  | t :: ts =>
    let (nodes, id) := lay nodes t
    let (nodes, ids) := layAll nodes ts
    (nodes, id :: ids)

end

end Arena

end CubeAxes
