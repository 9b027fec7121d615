import CubeAxes.Proofs.Arena.Reached

/-!
# References in an arena

Laying a set uses each node that it adds once: a new node is referred to by one other, or it is handed on as the number of the set
(`Arena.uses_lay`). So in an arena that holds one set every node is referred to once, but the root, and is reached from the root
(`Arena.Uses.count_eq`, `Arena.Ordered.reaches_of_uses`).
-/

namespace CubeAxes

namespace Arena

/-- The numbers that the nodes refer to, once for each reference. -/
def references (nodes : Arena) : List Nat := nodes.toList.flatMap Node.children

/-- The numbers of the nodes by which an arena is larger than another. -/
def fresh (nodes nodes' : Arena) : List Nat := List.range' nodes.size (nodes'.size - nodes.size)

/-- An arena goes over into a larger one in which each new node is referred to once, or handed on to be referred to later. What was referred
to before is so as often, but for the references that are to nodes handed on before. -/
structure Uses (nodes : Arena) (ids : List Nat) (nodes' : Arena) : Prop where
  size_le : nodes.size ≤ nodes'.size
  perm : (nodes'.references ++ ids).Perm (nodes.references ++ nodes.fresh nodes')

variable {a b c nodes : Arena} {ids jds : List Nat}

/-- A node that is added refers to its parts. -/
theorem references_add (nodes : Arena) (node : Node) : (nodes.add node).1.references = nodes.references ++ node.children := by
  rw [references, add, Array.toList_push, List.flatMap_append, List.flatMap_singleton, references]

/-- The new nodes of two steps are those of each. -/
theorem fresh_append (hab : a.size ≤ b.size) (hbc : b.size ≤ c.size) : a.fresh b ++ b.fresh c = a.fresh c := by
  have hb : b.size = a.size + 1 * (b.size - a.size) := by omega
  have hc : c.size - a.size = (b.size - a.size) + (c.size - b.size) := by omega
  rw [fresh, fresh, fresh, hc, ← List.range'_append, ← hb]

theorem Uses.refl (nodes : Arena) : nodes.Uses [] nodes := by
  refine ⟨Nat.le_refl _, ?_⟩
  rw [fresh, Nat.sub_self]
  exact List.Perm.refl _

/-- What two steps hand on is handed on by both together. -/
theorem Uses.trans (hab : a.Uses ids b) (hbc : b.Uses jds c) : a.Uses (ids ++ jds) c := by
  refine ⟨Nat.le_trans hab.size_le hbc.size_le, ?_⟩
  calc
    List.Perm (c.references ++ (ids ++ jds)) ((c.references ++ jds) ++ ids) := by
      rw [List.append_assoc]
      exact List.perm_append_comm.append_left _
    List.Perm _ ((b.references ++ b.fresh c) ++ ids) := hbc.perm.append_right _
    List.Perm _ ((b.references ++ ids) ++ b.fresh c) := by
      rw [List.append_assoc, List.append_assoc]
      exact List.perm_append_comm.append_left _
    List.Perm _ ((a.references ++ a.fresh b) ++ b.fresh c) := hab.perm.append_right _
    List.Perm _ (a.references ++ a.fresh c) := by rw [List.append_assoc, fresh_append hab.size_le hbc.size_le]

/-- A node that refers to all that was handed on is handed on itself. -/
theorem Uses.add {node : Node} (h : a.Uses node.children b) : a.Uses [(b.add node).2] (b.add node).1 := by
  have hlarger : b.size ≤ (b.add node).1.size := (extends_add b node).1
  have hnew : b.fresh (b.add node).1 = [b.size] := by
    rw [fresh, Arena.add, Array.size_push, Nat.add_sub_cancel_left, List.range'_one]
  refine ⟨Nat.le_trans h.size_le hlarger, ?_⟩
  rw [references_add, ← fresh_append h.size_le hlarger, hnew, ← List.append_assoc]
  exact h.perm.append_right _

mutual

/-- Laying a set uses each new node once and hands on the number of the set. -/
theorem uses_lay (nodes : Arena) : (t : TupleSet) → nodes.Uses [(nodes.lay t).2] (nodes.lay t).1
  | .members ms => by
    rw [lay]
    exact (Uses.refl nodes).add
  | .join form left right => by
    rw [lay]
    exact ((uses_lay nodes left).trans (uses_lay (nodes.lay left).1 right)).add
  | .union branches => by
    rw [lay]
    exact (uses_layAll nodes branches).add

/-- Laying several sets uses each new node once and hands on the numbers of the sets. -/
theorem uses_layAll (nodes : Arena) : (ts : List TupleSet) → nodes.Uses (nodes.layAll ts).2 (nodes.layAll ts).1
  | [] => Uses.refl nodes
  | t :: ts => by
    rw [layAll]
    exact (uses_lay nodes t).trans (uses_layAll (nodes.lay t).1 ts)

end

/-! ## Arenas that hold one set -/

variable {root : Nat}

/-- The references and the root are all the nodes, each of them once. -/
theorem Uses.perm_range (h : Uses #[] [root] nodes) : (nodes.references ++ [root]).Perm (List.range nodes.size) := by
  have hnodes : references #[] ++ fresh #[] nodes = List.range nodes.size := by
    rw [List.range_eq_range']
    rfl
  exact hnodes ▸ h.perm

/-- Each node is referred to once, but for the root, to which no node refers. -/
theorem Uses.count_eq (h : Uses #[] [root] nodes) {id : Nat} (hid : id < nodes.size) :
    nodes.references.count id = if id = root then 0 else 1 := by
  have hcount := h.perm_range.count_eq id
  rw [List.count_append, List.nodup_range.count, if_pos (List.mem_range.2 hid), List.count_singleton] at hcount
  by_cases hroot : id = root
  · rw [if_pos hroot]
    rw [if_pos (beq_iff_eq.2 hroot.symm)] at hcount
    omega
  · rw [if_neg hroot]
    rw [if_neg (by simpa using Ne.symm hroot)] at hcount
    omega

/-- In an ordered arena that holds one set every node is reached from the root. -/
theorem Ordered.reaches_of_uses (ho : nodes.Ordered) (h : Uses #[] [root] nodes) {id : Nat} (hid : id < nodes.size) :
    nodes.Reaches root id := by
  induction hrest : nodes.size - id using Nat.strongRecOn generalizing id with
  | ind rest ih =>
    by_cases hroot : id = root
    · rw [hroot]
      exact .refl
    · have hone : nodes.references.count id = 1 := by rw [h.count_eq hid, if_neg hroot]
      have hmem : id ∈ nodes.references := List.count_pos_iff.1 (by omega)
      -- the node that refers to this one is a later one
      obtain ⟨node, hnode, hchild⟩ := List.mem_flatMap.1 hmem
      obtain ⟨j, hj, rfl⟩ := Array.getElem_of_mem (Array.mem_toList_iff.1 hnode)
      have hlater := ho j _ (Array.getElem?_eq_getElem hj) id hchild
      exact .child (ih _ (by omega) hj rfl) (Array.getElem?_eq_getElem hj) hchild

end Arena

end CubeAxes
