import Mathlib.Data.List.Forall2
import CubeAxes.Arena.Stack
import CubeAxes.Proofs.Arena.Operands

/-!
# Traversals of an arena

A traversal meets the sets of members below a node by recursion on what the node refers to (`Arena.Traversal`). In an ordered arena each node has
one traversal (`Arena.Ordered.traversal_iff`). There the walk with a stack takes a step for each set that the sets of the nodes on its stack are
built from, a set that is used twice counted twice, and then it ends (`Arena.Walk.steps_eq`). It meets what the traversal meets
(`Arena.Walk.endsIn_start_iff`).
-/

namespace CubeAxes

/-- Where each entry of a list is related to one thing only, the list is related, entry by entry, to the list of these. -/
theorem forall₂_iff_eq_map {α β : Type} {r : α → β → Prop} {f : α → β} {l : List α} {l' : List β}
    (h : ∀ a ∈ l, ∀ b, r a b ↔ b = f a) : List.Forall₂ r l l' ↔ l' = l.map f := by
  induction l generalizing l' with
  | nil => exact List.forall₂_nil_left_iff
  | cons a l ih =>
    obtain ⟨ha, hl⟩ := List.forall_mem_cons.1 h
    rw [List.forall₂_cons_left_iff, List.map_cons]
    constructor
    · rintro ⟨b, bs, hb, hbs, rfl⟩
      rw [(ha b).1 hb, (ih hl).1 hbs]
    · rintro rfl
      exact ⟨_, _, (ha _).2 rfl, (ih hl).2 rfl, rfl⟩

namespace Arena

variable {nodes : Arena}

/-- A traversal of a node meets sets of members: a set of members only itself, a join what its left side meets and then what its right side does,
and a union what each branch meets, from the first to the last. It does not look back, so what is met below a node that is used twice is met twice. -/
inductive Traversal (nodes : Arena) : Nat → List (List Member) → Prop
  | members {id : Nat} {ms : List Member} : nodes[id]? = some (.members ms) → Traversal nodes id [ms]
  | join {id left right : Nat} {form : JoinForm} {before after : List (List Member)} :
      nodes[id]? = some (.join form left right) → Traversal nodes left before → Traversal nodes right after →
      Traversal nodes id (before ++ after)
  | union {id : Nat} {branches : List Nat} {parts : List (List (List Member))} :
      nodes[id]? = some (.union branches) → List.Forall₂ (Traversal nodes) branches parts → Traversal nodes id parts.flatten

/-- A number that no node has is not traversed. -/
theorem not_traversal_of_size_le {id : Nat} (h : nodes.size ≤ id) (sets : List (List Member)) : ¬nodes.Traversal id sets := by
  have hnone : nodes[id]? = none := Array.getElem?_eq_none h
  intro ht
  cases ht with
  | members hnode => nomatch hnone.symm.trans hnode
  | join hnode _ _ => nomatch hnone.symm.trans hnode
  | union hnode _ => nomatch hnone.symm.trans hnode

/-- A set of members is met by itself. -/
theorem traversal_members_iff {id : Nat} {ms : List Member} (hnode : nodes[id]? = some (.members ms)) (sets : List (List Member)) :
    nodes.Traversal id sets ↔ sets = [ms] := by
  constructor
  · intro h
    cases h with
    | members h =>
      cases hnode.symm.trans h
      rfl
    | join h _ _ => nomatch hnode.symm.trans h
    | union h _ => nomatch hnode.symm.trans h
  · rintro rfl
    exact .members hnode

/-- What is met at a join is what is met on its left side and then what is met on its right side. -/
theorem traversal_join_iff {id left right : Nat} {form : JoinForm} (hnode : nodes[id]? = some (.join form left right))
    (sets : List (List Member)) :
    nodes.Traversal id sets ↔ ∃ before after, nodes.Traversal left before ∧ nodes.Traversal right after ∧ sets = before ++ after := by
  constructor
  · intro h
    cases h with
    | members h => nomatch hnode.symm.trans h
    | join h hleft hright =>
      cases hnode.symm.trans h
      exact ⟨_, _, hleft, hright, rfl⟩
    | union h _ => nomatch hnode.symm.trans h
  · rintro ⟨before, after, hleft, hright, rfl⟩
    exact .join hnode hleft hright

/-- What is met at a union is what is met at each of its branches in turn. -/
theorem traversal_union_iff {id : Nat} {branches : List Nat} (hnode : nodes[id]? = some (.union branches)) (sets : List (List Member)) :
    nodes.Traversal id sets ↔ ∃ parts, List.Forall₂ nodes.Traversal branches parts ∧ sets = parts.flatten := by
  constructor
  · intro h
    cases h with
    | members h => nomatch hnode.symm.trans h
    | join h _ _ => nomatch hnode.symm.trans h
    | union h hparts =>
      cases hnode.symm.trans h
      exact ⟨_, hparts, rfl⟩
  · rintro ⟨parts, hparts, rfl⟩
    exact .union hnode hparts

/-- In an ordered arena a node has one traversal, which meets the sets of members in its tuple set from left to right. -/
theorem Ordered.traversal_iff (h : nodes.Ordered) {id : Nat} (hid : id < nodes.size) {sets : List (List Member)} :
    nodes.Traversal id sets ↔ sets = (nodes.tuples id).memberSets := by
  induction id using Nat.strongRecOn generalizing sets with
  | ind id ih =>
    have hnode : nodes[id]? = some nodes[id] := Array.getElem?_eq_getElem hid
    generalize nodes[id] = node at hnode
    -- the parts are earlier nodes, so they are traversed already
    have hpart : ∀ child ∈ node.children, ∀ part, nodes.Traversal child part ↔ part = (nodes.tuples child).memberSets := by
      intro child hchild part
      have hlt : child < id := h id node hnode child hchild
      exact ih child hlt (Nat.lt_trans hlt hid)
    rw [h.tuples_eq hnode]
    cases node with
    | members ms => exact traversal_members_iff hnode sets
    | join form left right =>
      rw [traversal_join_iff hnode, Node.read, TupleSet.memberSets]
      simp only [hpart left List.mem_cons_self, hpart right (List.mem_cons_of_mem left List.mem_cons_self)]
      constructor
      · rintro ⟨_, _, rfl, rfl, hsets⟩
        exact hsets
      · intro hsets
        exact ⟨_, _, rfl, rfl, hsets⟩
    | union branches =>
      rw [traversal_union_iff hnode, Node.read, TupleSet.memberSets, TupleSet.memberSetsAll_eq, List.flatMap_map, List.flatMap_def]
      have hparts : ∀ parts, List.Forall₂ nodes.Traversal branches parts ↔
          parts = branches.map fun child => (nodes.tuples child).memberSets := fun parts => forall₂_iff_eq_map hpart
      simp only [hparts, exists_eq_left]

/-! ## The walk with a stack -/

/-- In an ordered arena a node weighs one more than the nodes that it refers to. -/
theorem Ordered.size_tuples (h : nodes.Ordered) {id : Nat} {node : Node} (hnode : nodes[id]? = some node) :
    (nodes.tuples id).size = nodes.weight node.children + 1 := by
  rw [h.tuples_eq hnode]
  cases node with
  | members ms => rfl
  | join form left right => simp [Node.read, Node.children, TupleSet.size, weight, TupleSet.sizeAll]
  | union branches => rfl

/-- In an ordered arena the walk that is told from the tuple sets meets the members of a node and goes on with all the nodes it refers to. -/
theorem Ordered.visit_cons (h : nodes.Ordered) {id : Nat} {node : Node} (hnode : nodes[id]? = some node) (pending : List Nat) :
    nodes.visit (id :: pending) = node.memberSets ++ nodes.visit (node.children ++ pending) := by
  have hall : node.earlierChildren id = node.children :=
    List.filter_eq_self.2 fun child hchild => decide_eq_true (h id node hnode child hchild)
  rw [visit_eq, visit_eq, List.flatMap_cons, List.flatMap_append, memberSets_tuples hnode, hall, List.append_assoc]

namespace Walk

/-- The numbers on the stack of a walk are those of nodes. -/
def Within (nodes : Arena) (w : Walk) : Prop := ∀ id ∈ w.stack, id < nodes.size

/-- What a walk has met and what is left to be met below the nodes on its stack. -/
def total (nodes : Arena) (w : Walk) : List (List Member) := w.met ++ nodes.visit w.stack

/-- While nodes are left on the stack the walk has a next step. The step does not change what is met in total, and what is left on the stack
weighs one less. -/
theorem exists_step (h : nodes.Ordered) {w : Walk} (hw : w.Within nodes) (hne : w.stack ≠ []) :
    ∃ w', w.step nodes = some w' ∧ w'.Within nodes ∧ w'.total nodes = w.total nodes ∧
      nodes.weight w.stack = nodes.weight w'.stack + 1 := by
  obtain ⟨stack, met⟩ := w
  cases stack with
  | nil => exact absurd rfl hne
  | cons id stack =>
    obtain ⟨hid, hstack⟩ := List.forall_mem_cons.1 hw
    have hnode : nodes[id]? = some nodes[id] := Array.getElem?_eq_getElem hid
    refine ⟨_, step_cons hnode stack met, ?_, ?_, ?_⟩
    · intro child hchild
      rcases List.mem_append.1 hchild with hchild | hchild
      · exact Nat.lt_trans (h id _ hnode child hchild) hid
      · exact hstack child hchild
    · rw [total, total, h.visit_cons hnode, List.append_assoc]
    · rw [weight_cons, weight_append, h.size_tuples hnode]
      omega

/-- A walk ends after as many steps as the nodes on its stack weigh, and by then it has met all that there was to be met. -/
theorem steps_eq (h : nodes.Ordered) {w : Walk} (hw : w.Within nodes) :
    w.steps nodes (nodes.weight w.stack) = some ⟨[], w.total nodes⟩ := by
  -- the stack may grow in a step, but what is left on it weighs less
  induction hn : nodes.weight w.stack generalizing w with
  | zero =>
    obtain ⟨stack, met⟩ := w
    cases stack with
    | nil => rw [steps, total, visit, List.append_nil]
    | cons id stack =>
      have hone := (nodes.tuples id).one_le_size
      rw [weight_cons] at hn
      omega
  | succ n ih =>
    have hne : w.stack ≠ [] := by
      intro hnil
      rw [hnil] at hn
      cases hn
    obtain ⟨w', hstep, hw', htotal, hweight⟩ := exists_step h hw hne
    rw [steps, hstep, Option.bind_some, ih hw' (by omega), htotal]

/-- A walk ends in one way only. -/
theorem EndsIn.unique {w : Walk} {sets sets' : List (List Member)} (h : w.EndsIn nodes sets) (h' : w.EndsIn nodes sets') :
    sets = sets' := by
  -- neither walk can go on when nothing is left on the stack, so both take the same number of steps
  obtain ⟨n, hn⟩ := h
  obtain ⟨n', hn'⟩ := h'
  induction n generalizing w n' with
  | zero =>
    obtain rfl := Option.some.inj hn
    cases n' with
    | zero => exact congrArg Walk.met (Option.some.inj hn')
    | succ n' => nomatch hn'
  | succ n ih =>
    rw [steps] at hn
    obtain ⟨w', hstep, hn⟩ := Option.bind_eq_some_iff.1 hn
    cases n' with
    | zero =>
      obtain rfl := Option.some.inj hn'
      nomatch hstep
    | succ n' =>
      rw [steps, hstep] at hn'
      exact ih hn n' hn'

/-- In an ordered arena the walk from a root, be it the number of a node or not, ends in what a traversal of the root meets. -/
theorem endsIn_start_iff (h : nodes.Ordered) (root : Nat) (sets : List (List Member)) :
    (start (some root)).EndsIn nodes sets ↔ nodes.Traversal root sets := by
  by_cases hroot : root < nodes.size
  · have hends : (start (some root)).EndsIn nodes (nodes.tuples root).memberSets := by
      have hsteps := steps_eq (w := start (some root)) h fun id hid => List.mem_singleton.1 hid ▸ hroot
      rw [total, visit_eq] at hsteps
      refine ⟨_, hsteps.trans ?_⟩
      simp [start]
    rw [h.traversal_iff hroot]
    constructor
    · exact fun hsets => hsets.unique hends
    · rintro rfl
      exact hends
  · -- the walk is stuck at once
    refine iff_of_false ?_ (not_traversal_of_size_le (Nat.le_of_not_lt hroot) sets)
    rintro ⟨n, hn⟩
    cases n with
    | zero => nomatch hn
    | succ n =>
      rw [steps, start, Option.toList_some, step_eq_none_of_size_le (Nat.le_of_not_lt hroot)] at hn
      nomatch hn

end Walk

end Arena

end CubeAxes
