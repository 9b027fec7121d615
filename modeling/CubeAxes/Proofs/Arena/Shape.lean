import CubeAxes.Placement
import CubeAxes.Proofs.Axis.Laying

/-!
# The shape of an arena

An arena is ordered when its nodes refer to earlier nodes only, and laying a set keeps it so (`Arena.Ordered.lay`). When an axis is
built from sets of members, each set is one node and each join between two of them another, so the nodes are one fewer than twice the
sets, and every one of them is reached from the outermost join (`Axis.shape_of_ofSets`).
-/

namespace CubeAxes

namespace Arena

/-- Every reference of a node is to an earlier node. -/
def Ordered (nodes : Arena) : Prop :=
  ∀ (id : Nat) (node : Node), nodes[id]? = some node → ∀ child ∈ node.children, child < id

/-- The nodes that are reached from a node by following references. -/
inductive Reaches (nodes : Arena) (root : Nat) : Nat → Prop
  | refl : Reaches nodes root root
  | child {id child : Nat} {node : Node} :
      Reaches nodes root id → nodes[id]? = some node → child ∈ node.children → Reaches nodes root child

/-- What is reached in an arena is reached when a node is added to it. -/
theorem Reaches.push {nodes : Arena} {root id : Nat} (h : nodes.Reaches root id) (node : Node) :
    Reaches (nodes.push node) root id := by
  induction h with
  | refl => exact .refl
  | @child id child n _ hnode hchild ih =>
    have hlt : id < nodes.size := (Array.getElem?_eq_some_iff.1 hnode).1
    refine .child ih ?_ hchild
    rw [Array.getElem?_push_lt hlt, ← hnode, Array.getElem?_eq_getElem hlt]

/-- A reference can be followed first as well as last. -/
theorem Reaches.head {nodes : Arena} {root child id : Nat} {node : Node} (hnode : nodes[root]? = some node)
    (hchild : child ∈ node.children) (hr : nodes.Reaches child id) : nodes.Reaches root id := by
  induction hr with
  | refl => exact .child .refl hnode hchild
  | child _ hnode' hchild' ih => exact .child ih hnode' hchild'

/-- Adding a node whose references are to nodes that are there keeps an arena ordered. -/
theorem Ordered.push {nodes : Arena} (h : nodes.Ordered) {node : Node} (hnode : ∀ child ∈ node.children, child < nodes.size) :
    Ordered (nodes.push node) := by
  intro id n hn child hchild
  rw [Array.getElem?_push] at hn
  split at hn
  · next hid =>
    obtain rfl := Option.some.inj hn
    exact hid ▸ hnode child hchild
  · exact h id n hn child hchild

/-- An arena without nodes is ordered. -/
theorem ordered_empty : Ordered #[] := by
  intro id node hnode
  simp at hnode

mutual

/-- Laying a set keeps an arena ordered. -/
theorem Ordered.lay {nodes : Arena} (h : nodes.Ordered) : (t : TupleSet) → (nodes.lay t).1.Ordered
  | .members ms => by
    rw [Arena.lay]
    exact h.push fun child hc => absurd hc List.not_mem_nil
  | .join form left right => by
    have hl := (lay_spec nodes left).2.mono (lay_spec (nodes.lay left).1 right).1
    have hr := (lay_spec (nodes.lay left).1 right).2
    rw [Arena.lay]
    refine ((h.lay left).lay right).push ?_
    simp only [Node.children, List.forall_mem_cons, List.not_mem_nil, false_imp_iff, implies_true, and_true]
    exact ⟨hl.1, hr.1⟩
  | .union branches => by
    rw [Arena.lay]
    exact (h.layAll branches).push (layAll_spec nodes branches).2.1

/-- Laying several sets one after the other keeps an arena ordered. -/
theorem Ordered.layAll {nodes : Arena} (h : nodes.Ordered) : (ts : List TupleSet) → (nodes.layAll ts).1.Ordered
  | [] => h
  | t :: ts => by
    rw [Arena.layAll]
    exact (h.lay t).layAll ts

end

/-- Laying sets of members adds a node for each, and they are numbered one after the other. -/
theorem layAll_literals (nodes : Arena) (sets : List (List Member)) :
    (layAll nodes (sets.map TupleSet.literal)).2 = List.range' nodes.size sets.length ∧
      (layAll nodes (sets.map TupleSet.literal)).1.size = nodes.size + sets.length := by
  induction sets generalizing nodes with
  | nil => exact ⟨rfl, rfl⟩
  | cons ms sets ih =>
    obtain ⟨hids, hsizes⟩ := ih (nodes.push (.members (distinctMembers ms)))
    rw [Array.size_push] at hids hsizes
    constructor
    · rw [List.length_cons, List.range'_succ, ← hids]
      rfl
    · rw [List.length_cons, Nat.add_comm sets.length 1, ← Nat.add_assoc, ← hsizes]
      rfl

/-- Joining nodes adds one node fewer than they are; from the outermost join all of these are reached, and all that were joined. -/
theorem exists_chain (form : JoinForm) {nodes : Arena} (h : nodes.Ordered) {ids : List Nat} (hne : ids ≠ [])
    (hids : ∀ id ∈ ids, id < nodes.size) :
    ∃ nodes' root, nodes.chain form ids = some (nodes', root) ∧ nodes'.size + 1 = nodes.size + ids.length ∧ root < nodes'.size ∧
      nodes'.Ordered ∧ ∀ id, id ∈ ids ∨ (nodes.size ≤ id ∧ id < nodes'.size) → nodes'.Reaches root id := by
  induction ids with
  | nil => exact absurd rfl hne
  | cons id ids ih =>
    obtain ⟨hid, hids'⟩ := List.forall_mem_cons.1 hids
    cases ids with
    | nil =>
      refine ⟨nodes, id, rfl, rfl, hid, h, ?_⟩
      rintro n (hn | ⟨hle, hlt⟩)
      · rw [List.mem_singleton.1 hn]
        exact .refl
      · exact absurd hlt (Nat.not_lt.2 hle)
    | cons id' ids =>
      obtain ⟨nodes', right, hj, hsize, hright, hordered, hreach⟩ := ih (List.cons_ne_nil _ _) hids'
      rw [List.length_cons] at hsize
      have hjoin : nodes.chain form (id :: id' :: ids) = some (nodes'.push (.join form id right), nodes'.size) := by
        rw [chain, hj]
        · rfl
        · simp
      have hnode : (nodes'.push (.join form id right))[nodes'.size]? = some (.join form id right) := Array.getElem?_push_size
      refine ⟨_, _, hjoin, ?_, ?_, hordered.push ?_, ?_⟩
      · rw [Array.size_push, List.length_cons, List.length_cons]
        omega
      · rw [Array.size_push]
        exact Nat.lt_succ_self _
      · simp only [Node.children, List.forall_mem_cons, List.not_mem_nil, false_imp_iff, implies_true, and_true]
        exact ⟨by omega, hright⟩
      · -- the new join reaches the first node, and through the join of the others whatever that reaches
        have htail : ∀ n, nodes'.Reaches right n → Reaches (nodes'.push (.join form id right)) nodes'.size n := fun n hn =>
          Reaches.head hnode (List.mem_cons_of_mem id List.mem_cons_self) (hn.push _)
        rintro n (hn | ⟨hle, hlt⟩)
        · rcases List.mem_cons.1 hn with rfl | hn
          · exact .child .refl hnode List.mem_cons_self
          · exact htail n (hreach n (Or.inl hn))
        · rw [Array.size_push] at hlt
          rcases Nat.lt_or_eq_of_le (Nat.le_of_lt_succ hlt) with hlt | rfl
          · exact htail n (hreach n (Or.inr ⟨hle, hlt⟩))
          · exact .refl

end Arena

/-- An axis that is built from sets of members has a node for each and for each join, all ordered and all reached from the root. -/
theorem Axis.shape_of_ofSets {sets : List (List Member)} {hierarchize : Bool} {axis : Axis}
    (h : Axis.ofSets sets hierarchize = .ok axis) :
    sets ≠ [] ∧ axis.nodes.size = 2 * sets.length - 1 ∧ axis.nodes.Ordered ∧
      ∃ root, axis.root = some root ∧ ∀ id, id < axis.nodes.size → axis.nodes.Reaches root id := by
  have hne : sets ≠ [] := by
    rintro rfl
    nomatch h
  have hordered := Arena.ordered_empty.layAll (sets.map TupleSet.literal)
  obtain ⟨hids, hsize⟩ := Arena.layAll_literals #[] sets
  have hlength : 0 < sets.length := List.length_pos_iff.2 hne
  have hids' : (Arena.layAll #[] (sets.map TupleSet.literal)).2 = List.range' 0 sets.length := hids
  have hsize' : (Arena.layAll #[] (sets.map TupleSet.literal)).1.size = sets.length := hsize.trans (Nat.zero_add _)
  have hall : ∀ id ∈ (Arena.layAll #[] (sets.map TupleSet.literal)).2, id < (Arena.layAll #[] (sets.map TupleSet.literal)).1.size := by
    intro id hid
    rw [hids', List.mem_range'_1] at hid
    omega
  have hids_ne : (Arena.layAll #[] (sets.map TupleSet.literal)).2 ≠ [] := by
    rw [hids']
    exact List.ne_nil_of_length_pos (by rw [List.length_range']; exact hlength)
  obtain ⟨nodes, root, hj, hjsize, -, hjordered, hreach⟩ := Arena.exists_chain .call hordered hids_ne hall
  simp only [ofSets, Arena.joinChain, hj] at h
  obtain rfl := Except.ok.inj h
  rw [hids', List.length_range', hsize'] at hjsize
  refine ⟨hne, ?_, hjordered, root, rfl, fun id hid => hreach id ?_⟩
  · simp only
    omega
  · rw [hids', hsize', List.mem_range'_1]
    simp only at hid
    omega

end CubeAxes
