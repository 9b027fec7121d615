import CubeAxes.Proofs.Arena.Shape
import CubeAxes.Proofs.Axis.Sets

/-!
# Operands that select something

A set is filled when no side of a join in it is without tuples. In an ordered arena this is said of the set of a node just when
every join that is reached from the node has two operands that select something (`Arena.Ordered.operandsSelect_iff`). A chain is
filled when it has one set only, or when none of its sets is without tuples (`TupleSet.filled_chain_iff`). A filled set has tuples just when
there are members in it (`TupleSet.Filled.selectsNothing_iff`).
-/

namespace CubeAxes

namespace TupleSet

/-- The sets in which no side of a join is without tuples. -/
inductive Filled : TupleSet → Prop
  | members (ms : List Member) : Filled (.members ms)
  | join {form : JoinForm} {left right : TupleSet} :
      Filled left → Filled right → left.selectsNothing = false → right.selectsNothing = false → Filled (.join form left right)
  | union {branches : List TupleSet} : (∀ t ∈ branches, Filled t) → Filled (.union branches)

/-- A chain of filled sets is filled when there is only one of them, or when each of them has tuples. -/
theorem filled_chain_iff {form : JoinForm} {ts : List TupleSet} {t : TupleSet} (h : chain form ts = some t)
    (hts : ∀ u ∈ ts, u.Filled) : t.Filled ↔ ts.length ≤ 1 ∨ ∀ u ∈ ts, u.selectsNothing = false := by
  induction ts generalizing t with
  | nil => nomatch h
  | cons u us ih =>
    obtain ⟨hu, hus⟩ := List.forall_mem_cons.1 hts
    cases us with
    | nil =>
      obtain rfl := Option.some.inj h
      exact iff_of_true hu (Or.inl (Nat.le_refl _))
    | cons v vs =>
      obtain ⟨t', ht', rfl⟩ := Option.map_eq_some_iff.1 h
      rw [List.forall_mem_cons, ← selectsNothing_chain_iff ht']
      constructor
      · rintro (_ | ⟨-, -, hleft, hright⟩)
        exact Or.inr ⟨hleft, hright⟩
      · rintro (hlength | ⟨hleft, hright⟩)
        · simp at hlength
        · exact .join hu ((ih ht' hus).2 (Or.inr ((selectsNothing_chain_iff ht').1 hright))) hleft hright

/-- A tuple of single members is filled. -/
theorem filled_of_singles {form : JoinForm} {ms : List Member} {t : TupleSet} (h : chain form (ms.map fun m => .members [m]) = some t) :
    t.Filled :=
  (filled_chain_iff h (List.forall_mem_map.2 fun m _ => .members [m])).2 (Or.inr (List.forall_mem_map.2 fun _ _ => rfl))

/-- A filled set has tuples when it has members. -/
theorem Filled.selectsNothing_iff {t : TupleSet} (h : t.Filled) : t.selectsNothing = false ↔ t.memberSets.flatten ≠ [] := by
  induction h with
  | members ms => rw [selectsNothing, List.isEmpty_eq_false_iff, memberSets, List.flatten_singleton]
  | join _ _ hleft hright ihl _ =>
    rw [selectsNothing, hleft, hright, memberSets, List.flatten_append]
    exact iff_of_true rfl fun hnone => ihl.1 hleft (List.append_eq_nil_iff.1 hnone).1
  | @union branches _ ih =>
    rw [selectsNothing, allSelectNothing_eq, List.all_eq_false, memberSets, memberSetsAll_eq]
    constructor
    · rintro ⟨t, ht, hsome⟩ hnone
      obtain ⟨m, hm⟩ := List.exists_mem_of_ne_nil _ ((ih t ht).1 (Bool.eq_false_iff.2 hsome))
      obtain ⟨ms, hms, hm⟩ := List.mem_flatten.1 hm
      exact List.eq_nil_iff_forall_not_mem.1 hnone m (List.mem_flatten.2 ⟨ms, List.mem_flatMap.2 ⟨t, ht, hms⟩, hm⟩)
    · intro hsome
      obtain ⟨m, hm⟩ := List.exists_mem_of_ne_nil _ hsome
      obtain ⟨ms, hms, hm⟩ := List.mem_flatten.1 hm
      obtain ⟨t, ht, hms⟩ := List.mem_flatMap.1 hms
      exact ⟨t, ht, Bool.eq_false_iff.1 ((ih t ht).2 (List.ne_nil_of_mem (List.mem_flatten.2 ⟨ms, hms, hm⟩)))⟩

end TupleSet

namespace Arena

/-- Both operands of every join that is reached from a node select something. -/
def OperandsSelect (nodes : Arena) (root : Nat) : Prop :=
  ∀ (id : Nat) (form : JoinForm) (left right : Nat), nodes.Reaches root id → nodes[id]? = some (.join form left right) →
    (nodes.tuples left).selectsNothing = false ∧ (nodes.tuples right).selectsNothing = false

variable {nodes : Arena}

/-- In an ordered arena the set of a node is read from the sets of all the nodes that it refers to. -/
theorem Ordered.tuples_eq (h : nodes.Ordered) {id : Nat} {node : Node} (hnode : nodes[id]? = some node) :
    nodes.tuples id = node.read nodes.tuples := by
  have hpart : ∀ child ∈ node.children, (if child < id then nodes.tuples child else .union []) = nodes.tuples child :=
    fun child hc => if_pos (h id node hnode child hc)
  rw [tuples_of_getElem? hnode]
  cases node with
  | members ms => rfl
  | join form left right =>
    rw [Node.read, Node.read, hpart left List.mem_cons_self, hpart right (List.mem_cons_of_mem left List.mem_cons_self)]
  | union branches =>
    rw [Node.read, Node.read]
    exact congrArg TupleSet.union (List.map_congr_left hpart)

/-- The sets of the nodes that are reached from a node with a filled set are filled. -/
theorem Ordered.filled_of_reaches (h : nodes.Ordered) {root id : Nat} (hr : nodes.Reaches root id)
    (hroot : (nodes.tuples root).Filled) : (nodes.tuples id).Filled := by
  induction hr with
  | refl => exact hroot
  | @child id child node _ hnode hchild ih =>
    rw [h.tuples_eq hnode] at ih
    cases node with
    | members ms => exact absurd hchild List.not_mem_nil
    | join form left right =>
      cases ih with
      | join hleft hright =>
        rcases List.mem_cons.1 hchild with rfl | hchild
        · exact hleft
        · rwa [List.mem_singleton.1 hchild]
    | union branches =>
      cases ih with
      | union hall => exact hall _ (List.mem_map_of_mem hchild)

/-- In an ordered arena the set of a node is filled when both operands of every join below the node select something. -/
theorem Ordered.operandsSelect_iff (h : nodes.Ordered) (root : Nat) : nodes.OperandsSelect root ↔ (nodes.tuples root).Filled := by
  constructor
  · intro hroot
    induction root using Nat.strongRecOn with
    | ind root ih =>
      cases hnode : nodes[root]? with
      | none =>
        rw [tuples_of_size_le (Array.getElem?_eq_none_iff.1 hnode)]
        exact .union fun t ht => absurd ht List.not_mem_nil
      | some node =>
        have hchild : ∀ child ∈ node.children, (nodes.tuples child).Filled := fun child hc =>
          ih child (h root node hnode child hc) fun id form left right hr => hroot id form left right (hr.head hnode hc)
        rw [h.tuples_eq hnode]
        cases node with
        | members ms => exact .members ms
        | join form left right =>
          obtain ⟨hleft, hright⟩ := hroot root form left right .refl hnode
          exact .join (hchild left List.mem_cons_self) (hchild right (List.mem_cons_of_mem left List.mem_cons_self)) hleft hright
        | union branches => exact .union (List.forall_mem_map.2 hchild)
  · intro hroot id form left right hr hnode
    have hid := h.filled_of_reaches hr hroot
    rw [h.tuples_eq hnode] at hid
    cases hid with
    | join _ _ hleft hright => exact ⟨hleft, hright⟩

end Arena

namespace Axis

/-- Both operands of every join that is reached on an axis select something. -/
def OperandsSelect (axis : Axis) : Prop := ∀ root, axis.root = some root → axis.nodes.OperandsSelect root

/-- On an axis whose nodes are ordered this says that its set is filled. -/
theorem operandsSelect_iff {axis : Axis} (h : axis.nodes.Ordered) {t : TupleSet} (ht : axis.tuples? = some t) :
    axis.OperandsSelect ↔ t.Filled := by
  obtain ⟨root, hroot, rfl⟩ := Option.map_eq_some_iff.1 ht
  rw [← h.operandsSelect_iff]
  constructor
  · exact fun hall => hall root hroot
  · intro hselect root' hroot'
    obtain rfl := Option.some.inj (hroot.symm.trans hroot')
    exact hselect

/-- The nodes of an axis on which a set is put are ordered. -/
theorem ordered_ofTuples (t : TupleSet) (hierarchize : Bool) : (ofTuples t hierarchize).nodes.Ordered :=
  Arena.ordered_empty.lay t

end Axis

end CubeAxes
