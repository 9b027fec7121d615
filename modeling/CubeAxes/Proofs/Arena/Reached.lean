import Mathlib.Data.List.Induction
import CubeAxes.Proofs.Arena.Operands

/-!
# What is reached in an arena

The ordered arenas are those that are built by adding nodes one by one, each of which refers to nodes that are there
(`Arena.Ordered.built`). However the nodes of such an arena are joined and shared, the sets of members that are reached from a node are
those in its tuple set (`Arena.Ordered.mem_memberSets_iff`). So the members that are reached on an axis (`Axis.Reached`) are the members on
it (`Axis.mem_members_iff_reached`), and they come as they are read from its tuple set from left to right (`Axis.members_eq_reading`).
-/

namespace CubeAxes

namespace Arena

variable {nodes : Arena}

/-- The arenas that come of adding nodes one by one, each of which refers to nodes that are there. -/
inductive Built : Arena → Prop
  | empty : Built #[]
  | add {nodes : Arena} (node : Node) : Built nodes → (∀ child ∈ node.children, child < nodes.size) → Built (nodes.add node).1

/-- An arena that was built is ordered. -/
theorem Built.ordered (h : nodes.Built) : nodes.Ordered := by
  induction h with
  | empty => exact ordered_empty
  | add node _ hchildren ih => exact ih.push hchildren

/-- An ordered arena can be built by adding its nodes one by one. -/
theorem Ordered.built (h : nodes.Ordered) : nodes.Built := by
  obtain ⟨l⟩ := nodes
  induction l using List.reverseRecOn with
  | nil => exact .empty
  | append_singleton l node ih =>
    have hbefore : Ordered ⟨l⟩ := by
      intro id n hn
      refine h id n ?_
      simp only [List.getElem?_toArray] at hn ⊢
      rw [List.getElem?_append_left (List.getElem?_eq_some_iff.1 hn).1, hn]
    have hlast : ∀ child ∈ node.children, child < l.length := h l.length node (by simp)
    have hadd := Built.add node (ih hbefore) hlast
    rwa [add, List.push_toArray] at hadd

/-- An arena is ordered when the references of its nodes, one node after the other, are to earlier ones. -/
theorem ordered_iff : nodes.Ordered ↔ ∀ id : Fin nodes.size, ∀ child ∈ nodes[id].children, child < id.val := by
  constructor
  · intro h id
    exact h id _ (Array.getElem?_eq_getElem id.2)
  · intro h id node hnode
    obtain ⟨hid, rfl⟩ := Array.getElem?_eq_some_iff.1 hnode
    exact h ⟨id, hid⟩

/-- Whether an arena is ordered can be told from the references of its nodes. -/
instance decidableOrdered (nodes : Arena) : Decidable nodes.Ordered := decidable_of_iff _ ordered_iff.symm

/-- Every set of members in the tuple set of a node is itself a node that is reached. -/
theorem exists_reaches_of_mem_memberSets {root : Nat} {ms : List Member} (h : ms ∈ (nodes.tuples root).memberSets) :
    ∃ id, nodes.Reaches root id ∧ nodes[id]? = some (.members ms) := by
  induction root using Nat.strongRecOn with
  | ind root ih =>
    cases hnode : nodes[root]? with
    | none =>
      rw [tuples_of_size_le (Array.getElem?_eq_none_iff.1 hnode)] at h
      exact absurd h List.not_mem_nil
    | some node =>
      rw [memberSets_tuples hnode] at h
      rcases List.mem_append.1 h with hown | hbelow
      · cases node with
        | members ms' =>
          obtain rfl := List.mem_singleton.1 hown
          exact ⟨root, .refl, hnode⟩
        | join _ _ _ => exact absurd hown List.not_mem_nil
        | union _ => exact absurd hown List.not_mem_nil
      · obtain ⟨child, hchild, hms⟩ := List.mem_flatMap.1 hbelow
        obtain ⟨hchild, hlt⟩ := List.mem_filter.1 hchild
        obtain ⟨id, hr, hid⟩ := ih child (of_decide_eq_true hlt) hms
        exact ⟨id, hr.head hnode hchild, hid⟩

/-- In an ordered arena the tuple set of a node has all the sets of members of the nodes that are reached. -/
theorem Ordered.memberSets_subset (h : nodes.Ordered) {root id : Nat} (hr : nodes.Reaches root id) :
    (nodes.tuples id).memberSets ⊆ (nodes.tuples root).memberSets := by
  induction hr with
  | refl => exact List.Subset.refl _
  | @child id child node _ hnode hchild ih =>
    refine List.Subset.trans (fun ms hms => ?_) ih
    have hearlier : child ∈ node.earlierChildren id := List.mem_filter.2 ⟨hchild, decide_eq_true (h id node hnode child hchild)⟩
    rw [memberSets_tuples hnode]
    exact List.mem_append_right _ (List.mem_flatMap.2 ⟨child, hearlier, hms⟩)

/-- In an ordered arena the sets of members in the tuple set of a node are those that are reached from the node. -/
theorem Ordered.mem_memberSets_iff (h : nodes.Ordered) {root : Nat} {ms : List Member} :
    ms ∈ (nodes.tuples root).memberSets ↔ ∃ id, nodes.Reaches root id ∧ nodes[id]? = some (.members ms) := by
  refine ⟨exists_reaches_of_mem_memberSets, ?_⟩
  rintro ⟨id, hr, hid⟩
  refine h.memberSets_subset hr ?_
  rw [h.tuples_eq hid]
  exact List.mem_singleton_self ms

end Arena

namespace Axis

variable {axis : Axis}

/-- An axis whose arena was built by adding nodes, and whose set is one of the nodes, if it has one. -/
structure Built (axis : Axis) : Prop where
  nodes : axis.nodes.Built
  root : ∀ id, axis.root = some id → id < axis.nodes.size

/-- A member is reached on an axis: it is in a set of members at a node that is reached from the root. -/
def Reached (axis : Axis) (m : Member) : Prop :=
  ∃ root id ms, axis.root = some root ∧ axis.nodes.Reaches root id ∧ axis.nodes[id]? = some (.members ms) ∧ m ∈ ms

/-- The members of a set read from left to right, once for each time they occur; nothing is read where there is no set. -/
def reading (axis : Axis) : List Member := (axis.tuples?.map fun t => t.memberSets.flatten).getD []

/-- The walk over an axis meets its members in the order in which they are read from its set. -/
theorem members_eq_reading (axis : Axis) : axis.members = axis.reading := by
  rw [members, reading]
  cases ht : axis.tuples? with
  | none =>
    rw [memberSets_of_tuples?_eq_none ht]
    rfl
  | some t =>
    rw [memberSets_of_tuples? ht]
    rfl

/-- On an axis whose nodes are ordered the members are those that are reached. -/
theorem mem_members_iff_reached (h : axis.nodes.Ordered) {m : Member} : m ∈ axis.members ↔ axis.Reached m := by
  rw [members_eq_reading, reading, tuples?]
  cases hroot : axis.root with
  | none =>
    refine iff_of_false List.not_mem_nil ?_
    rintro ⟨root, -, -, hroot', -⟩
    nomatch hroot.symm.trans hroot'
  | some root =>
    rw [Option.map_some, Option.map_some, Option.getD_some, List.mem_flatten]
    constructor
    · rintro ⟨ms, hms, hm⟩
      obtain ⟨id, hr, hid⟩ := h.mem_memberSets_iff.1 hms
      exact ⟨root, id, ms, hroot, hr, hid, hm⟩
    · rintro ⟨root', id, ms, hroot', hr, hid, hm⟩
      obtain rfl := Option.some.inj (hroot.symm.trans hroot')
      exact ⟨ms, h.mem_memberSets_iff.2 ⟨id, hr, hid⟩, hm⟩

end Axis

end CubeAxes
