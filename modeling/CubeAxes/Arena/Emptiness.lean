import CubeAxes.Arena

/-!
# Emptiness in an arena

Whether a node stands for any tuples can be told from the nodes alone, going down from it along the references. What is told is what the
set says that the node stands for (`Arena.selectsNothing_eq`).
-/

namespace CubeAxes

/-- Whether a node has no tuples, if `part` says so of the nodes that it refers to: a join has none if either side has none, a union if every
branch has none. -/
def Node.selectsNothing (part : Nat → Bool) : Node → Bool
  | members ms => ms.isEmpty
  | join _ left right => part left || part right
  | union branches => branches.all part

/-- A node says of the sets of its parts what the set says that is read from them. -/
theorem Node.selectsNothing_read (node : Node) (part : Nat → TupleSet) :
    node.selectsNothing (fun child => (part child).selectsNothing) = (node.read part).selectsNothing := by
  cases node with
  | members ms => rfl
  | join form left right => rfl
  | union branches =>
    rw [read, TupleSet.selectsNothing, TupleSet.allSelectNothing_eq, List.all_map]
    rfl

namespace Arena

/-- Whether the node of a number has no tuples. -/
def selectsNothing (nodes : Arena) (id : Nat) : Bool :=
  match nodes[id]? with
  | none => true
  | some node => node.selectsNothing fun child => if _ : child < id then selectsNothing nodes child else true
termination_by id

/-- A node has no tuples when the set that it stands for has none. -/
theorem selectsNothing_eq (nodes : Arena) (id : Nat) : nodes.selectsNothing id = (nodes.tuples id).selectsNothing := by
  induction id using Nat.strongRecOn with
  | ind id ih =>
    rw [selectsNothing]
    cases hnode : nodes[id]? with
    | none =>
      rw [tuples_of_size_le (Array.getElem?_eq_none_iff.1 hnode)]
      rfl
    | some node =>
      rw [tuples_of_getElem? hnode, ← Node.selectsNothing_read]
      refine congrArg node.selectsNothing (funext fun child => ?_)
      by_cases hlt : child < id
      · rw [dif_pos hlt, if_pos hlt, ih child hlt]
      · rw [dif_neg hlt, if_neg hlt]
        rfl

end Arena

end CubeAxes
