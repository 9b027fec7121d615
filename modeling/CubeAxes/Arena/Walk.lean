import CubeAxes.Arena

/-!
# The walk over an arena

The sets of members below a node are found by a walk that keeps a list of the nodes still to be visited. It ends because a node
weighs more than the nodes that take its place in the list, and it meets the sets of members in the order in which they stand in
the tuple set (`Arena.visit_eq`), a set that is used twice once for each use.
-/

namespace CubeAxes.Arena

/-- What nodes weigh together: the number of sets that their sets are built from. -/
def weight (nodes : Arena) (ids : List Nat) : Nat := TupleSet.sizeAll (ids.map nodes.tuples)

/-- A node weighs as much as its set is large, and a list of nodes as much as all of them. -/
theorem weight_cons (nodes : Arena) (id : Nat) (ids : List Nat) :
    nodes.weight (id :: ids) = (nodes.tuples id).size + nodes.weight ids := rfl

/-- The nodes of two lists weigh what each list weighs. -/
theorem weight_append (nodes : Arena) (ids jds : List Nat) : nodes.weight (ids ++ jds) = nodes.weight ids + nodes.weight jds := by
  rw [weight, List.map_append, TupleSet.sizeAll_append]
  rfl

/-- The earlier nodes among references weigh no more than all the parts that are read from the references. -/
theorem weight_filter_le (nodes : Arena) (id : Nat) (children : List Nat) :
    nodes.weight (children.filter fun child => decide (child < id)) ≤
      TupleSet.sizeAll (children.map fun child => if child < id then nodes.tuples child else .union []) := by
  induction children with
  | nil => exact Nat.le_refl _
  | cons child children ih =>
    rw [List.filter_cons, List.map_cons, TupleSet.sizeAll]
    by_cases h : child < id
    · rw [if_pos h, if_pos (decide_eq_true h), weight_cons]
      exact Nat.add_le_add_left ih _
    · rw [if_neg h, if_neg (by simpa using h)]
      exact Nat.le_trans ih (Nat.le_add_left _ _)

/-- A node weighs more than the earlier nodes that it refers to. -/
theorem weight_earlierChildren_lt {nodes : Arena} {id : Nat} {node : Node} (h : nodes[id]? = some node) :
    nodes.weight (node.earlierChildren id) < (nodes.tuples id).size := by
  refine Nat.lt_of_le_of_lt (weight_filter_le nodes id node.children) ?_
  rw [tuples_of_getElem? h]
  cases node <;> simp [Node.children, Node.read, TupleSet.size, TupleSet.sizeAll]

/-- The sets of members found from the nodes of a list, the first node first. -/
def visit (nodes : Arena) : List Nat → List (List Member)
  | [] => []
  | id :: pending =>
    match _ : nodes[id]? with
    | none => visit nodes pending
    | some node => node.memberSets ++ visit nodes (node.earlierChildren id ++ pending)
termination_by pending => nodes.weight pending
decreasing_by
  · have := (nodes.tuples id).one_le_size
    rw [weight_cons]
    omega
  · have := weight_earlierChildren_lt ‹_›
    rw [weight_append, weight_cons]
    omega

/-! ## What the walk meets -/

/-- The parts of a node that are not earlier nodes hold no members. -/
theorem flatMap_memberSets_filter (nodes : Arena) (id : Nat) (children : List Nat) :
    (children.flatMap fun child => (if child < id then nodes.tuples child else .union []).memberSets) =
      (children.filter fun child => decide (child < id)).flatMap fun child => (nodes.tuples child).memberSets := by
  induction children with
  | nil => rfl
  | cons child children ih =>
    rw [List.flatMap_cons, List.filter_cons, ih]
    by_cases h : child < id
    · rw [if_pos h, if_pos (decide_eq_true h), List.flatMap_cons]
    · rw [if_neg h, if_neg (by simpa using h)]
      rfl

/-- The sets of members below a node are its own and those below the earlier nodes that it refers to. -/
theorem memberSets_tuples {nodes : Arena} {id : Nat} {node : Node} (h : nodes[id]? = some node) :
    (nodes.tuples id).memberSets =
      node.memberSets ++ (node.earlierChildren id).flatMap fun child => (nodes.tuples child).memberSets := by
  rw [tuples_of_getElem? h, Node.earlierChildren, ← flatMap_memberSets_filter]
  cases node <;> simp [Node.read, Node.memberSets, Node.children, TupleSet.memberSets, TupleSet.memberSetsAll_eq,
    List.flatMap_map]

/-- The walk meets the sets of members of each pending node in turn, in the order of the tuple set it stands for. -/
theorem visit_eq (nodes : Arena) (pending : List Nat) :
    nodes.visit pending = pending.flatMap fun id => (nodes.tuples id).memberSets := by
  fun_induction visit nodes pending with
  | case1 => rfl
  | case2 id pending h ih =>
    rw [ih, List.flatMap_cons, tuples_of_size_le (Array.getElem?_eq_none_iff.1 h)]
    rfl
  | case3 id pending node h ih =>
    rw [ih, List.flatMap_append, List.flatMap_cons, memberSets_tuples h, List.append_assoc]

end CubeAxes.Arena
