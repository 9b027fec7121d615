import CubeAxes.Proofs.Arena.References
import CubeAxes.Proofs.Outline.Orderly
import CubeAxes.Proofs.Resolution.Sound
import CubeAxes.Proofs.Resolution.Stepwise

/-!
# Emptiness and what is summed up of an axis

A node selects nothing just when it has no tuples, however its parts are shared (`Arena.Built.selectsNothing_iff`). On an axis on which a set
was put no join selects nothing, since each operand was checked when it was resolved; so the axis as a whole selects nothing only where
there are no members on it at all, and what is summed up of it, hierarchy by hierarchy, tells whether it has tuples
(`Catalog.selectsNothing_exactly`).
-/

namespace CubeAxes

namespace Arena

variable {nodes : Arena} {id : Nat}

/-- The tuples of a node, each as its members from left to right: a member in a set is a tuple of one, a join has every tuple of its left
side before every one of its right side, and a union has the tuples of its branches. -/
inductive Yields (nodes : Arena) : Nat → List Member → Prop
  | members {id : Nat} {ms : List Member} {m : Member} : nodes[id]? = some (.members ms) → m ∈ ms → Yields nodes id [m]
  | join {id left right : Nat} {form : JoinForm} {s s' : List Member} :
      nodes[id]? = some (.join form left right) → Yields nodes left s → Yields nodes right s' → Yields nodes id (s ++ s')
  | union {id branch : Nat} {branches : List Nat} {s : List Member} :
      nodes[id]? = some (.union branches) → branch ∈ branches → Yields nodes branch s → Yields nodes id s

/-- A number that no node has has no tuples. -/
theorem not_yields_of_none (hnode : nodes[id]? = none) (s : List Member) : ¬nodes.Yields id s := by
  intro h
  cases h with
  | members h _ => nomatch hnode.symm.trans h
  | join h _ _ => nomatch hnode.symm.trans h
  | union h _ _ => nomatch hnode.symm.trans h

/-- The tuples of a set of members are its members. -/
theorem yields_members_iff {ms : List Member} (hnode : nodes[id]? = some (.members ms)) (s : List Member) :
    nodes.Yields id s ↔ ∃ m ∈ ms, s = [m] := by
  constructor
  · intro h
    cases h with
    | members h hm =>
      cases hnode.symm.trans h
      exact ⟨_, hm, rfl⟩
    | join h _ _ => nomatch hnode.symm.trans h
    | union h _ _ => nomatch hnode.symm.trans h
  · rintro ⟨m, hm, rfl⟩
    exact .members hnode hm

/-- The tuples of a join are the pairs of the tuples of its sides. -/
theorem yields_join_iff {form : JoinForm} {left right : Nat} (hnode : nodes[id]? = some (.join form left right)) (s : List Member) :
    nodes.Yields id s ↔ ∃ s₁ s₂, nodes.Yields left s₁ ∧ nodes.Yields right s₂ ∧ s = s₁ ++ s₂ := by
  constructor
  · intro h
    cases h with
    | members h _ => nomatch hnode.symm.trans h
    | join h hleft hright =>
      cases hnode.symm.trans h
      exact ⟨_, _, hleft, hright, rfl⟩
    | union h _ _ => nomatch hnode.symm.trans h
  · rintro ⟨s₁, s₂, hleft, hright, rfl⟩
    exact .join hnode hleft hright

/-- The tuples of a union are those of its branches. -/
theorem yields_union_iff {branches : List Nat} (hnode : nodes[id]? = some (.union branches)) (s : List Member) :
    nodes.Yields id s ↔ ∃ branch ∈ branches, nodes.Yields branch s := by
  constructor
  · intro h
    cases h with
    | members h _ => nomatch hnode.symm.trans h
    | join h _ _ => nomatch hnode.symm.trans h
    | union h hbranch hs =>
      cases hnode.symm.trans h
      exact ⟨_, hbranch, hs⟩
  · rintro ⟨branch, hbranch, hs⟩
    exact .union hnode hbranch hs

/-- In an ordered arena it is asked of all the nodes that a node refers to whether they select nothing. -/
theorem Ordered.selectsNothing_of_getElem? (h : nodes.Ordered) {node : Node} (hnode : nodes[id]? = some node) :
    nodes.selectsNothing id = node.selectsNothing nodes.selectsNothing := by
  rw [selectsNothing_eq, h.tuples_eq hnode, ← Node.selectsNothing_read]
  exact congrArg (fun part => node.selectsNothing part) (funext fun child => (selectsNothing_eq nodes child).symm)

/-- In an ordered arena a node selects something when it has a tuple. -/
theorem Ordered.selectsNothing_eq_false_iff (h : nodes.Ordered) (id : Nat) :
    nodes.selectsNothing id = false ↔ ∃ s, nodes.Yields id s := by
  induction id using Nat.strongRecOn with
  | ind id ih =>
    cases hnode : nodes[id]? with
    | none =>
      rw [selectsNothing, hnode]
      exact iff_of_false (Bool.noConfusion ·) (not_exists.2 (not_yields_of_none hnode))
    | some node =>
      have hchild : ∀ child ∈ node.children, nodes.selectsNothing child = false ↔ ∃ s, nodes.Yields child s :=
        fun child hc => ih child (h id node hnode child hc)
      rw [h.selectsNothing_of_getElem? hnode]
      cases node with
      | members ms =>
        rw [Node.selectsNothing, List.isEmpty_eq_false_iff_exists_mem]
        simp only [yields_members_iff hnode]
        constructor
        · rintro ⟨m, hm⟩
          exact ⟨[m], m, hm, rfl⟩
        · rintro ⟨s, m, hm, -⟩
          exact ⟨m, hm⟩
      | join form left right =>
        rw [Node.selectsNothing, Bool.or_eq_false_iff, hchild left List.mem_cons_self,
          hchild right (List.mem_cons_of_mem left List.mem_cons_self)]
        simp only [yields_join_iff hnode]
        constructor
        · rintro ⟨⟨s₁, hleft⟩, s₂, hright⟩
          exact ⟨s₁ ++ s₂, s₁, s₂, hleft, hright, rfl⟩
        · rintro ⟨s, s₁, s₂, hleft, hright, -⟩
          exact ⟨⟨s₁, hleft⟩, s₂, hright⟩
      | union branches =>
        rw [Node.selectsNothing, List.all_eq_false]
        simp only [yields_union_iff hnode]
        constructor
        · rintro ⟨branch, hbranch, hsome⟩
          obtain ⟨s, hs⟩ := (hchild branch hbranch).1 (Bool.eq_false_iff.2 hsome)
          exact ⟨s, branch, hbranch, hs⟩
        · rintro ⟨s, branch, hbranch, hs⟩
          exact ⟨branch, hbranch, Bool.eq_false_iff.1 ((hchild branch hbranch).2 ⟨s, hs⟩)⟩

/-- A node of an arena that was built selects nothing just when it has no tuples. -/
theorem Built.selectsNothing_iff (h : nodes.Built) (id : Nat) : nodes.selectsNothing id = true ↔ ∀ s, ¬nodes.Yields id s := by
  rw [← Bool.not_eq_false, h.ordered.selectsNothing_eq_false_iff, not_exists]

/-- Where the set of a node is filled, each join below it selects something. -/
theorem Ordered.selectsNothing_join (h : nodes.Ordered) {root left right : Nat} {form : JoinForm} (hroot : (nodes.tuples root).Filled)
    (hr : nodes.Reaches root id) (hnode : nodes[id]? = some (.join form left right)) : nodes.selectsNothing id = false := by
  have hid := h.filled_of_reaches hr hroot
  rw [selectsNothing_eq]
  rw [h.tuples_eq hnode] at hid ⊢
  cases hid with
  | join _ _ hleft hright => rw [Node.read, TupleSet.selectsNothing, hleft, hright, Bool.or_false]

end Arena

namespace Catalog

variable {cat : Catalog}

/-! ## What is resolved is filled -/

/-- A tuple resolves to a filled set. -/
theorem filled_of_resolveTuple {paths : List MemberPath} {t : TupleSet} (h : cat.resolveTuple paths = .ok t) : t.Filled := by
  obtain ⟨ms, -, h⟩ := bind_eq_ok h
  split at h
  · next t' ht =>
    obtain rfl := Except.ok.inj h
    exact TupleSet.filled_of_singles ht
  · cases h

/-- Resolution puts filled sets together from filled sets, since it refuses an operand of a join that selects nothing. -/
theorem closed_filled : cat.Closed TupleSet.Filled where
  reference _ := .members _
  members h := by
    obtain ⟨mss, -, h⟩ := bind_eq_ok h
    simp only at h
    split at h
    · nomatch h
    · obtain rfl := Except.ok.inj h
      exact .members _
  tuple := filled_of_resolveTuple
  join hchain hall := (TupleSet.filled_chain_iff hchain fun u hu => (hall u hu).1).2 (Or.inr fun u hu => (hall u hu).2)
  union := .union

end Catalog

/-! ## Axes on which a set was put -/

/-- Nothing is summed up of an axis when there are no members on it. -/
theorem Axis.selections_eq_nil_iff (axis : Axis) : axis.selections = [] ↔ axis.members = [] := by
  rw [selections, List.map_eq_nil_iff, List.eq_nil_iff_forall_not_mem, List.eq_nil_iff_forall_not_mem]
  constructor
  · intro hnone m hm
    exact hnone m.hierarchy (mem_hierarchies.2 ⟨m, hm, rfl⟩)
  · intro hnone hierarchy hh
    obtain ⟨m, hm, -⟩ := mem_hierarchies.1 hh
    exact hnone m hm

/-- In an arena that was built a node selects nothing just when it has no tuples. On an axis on which a set was put, whatever the catalog,
the nodes are those added while the set was resolved, the root among them; each refers to earlier nodes only; each but the root is referred
to once, and the root is not; no join selects nothing, be it written as a call or as a tuple; and the root selects nothing just when nothing
is summed up of the axis. -/
theorem Catalog.selectsNothing_exactly :
    (∀ nodes : Arena, nodes.Built → ∀ id, nodes.selectsNothing id = true ↔ ∀ s, ¬nodes.Yields id s) ∧
    ∀ (cat : Catalog) (e : SetExpr) (axis : Axis), cat.resolveAxis e = .ok axis →
      ∃ root, cat.resolveInto #[] e = .ok (axis.nodes, root) ∧ axis.root = some root ∧ root < axis.nodes.size ∧
        (∀ (id : Nat) (node : Node), axis.nodes[id]? = some node → ∀ child ∈ node.children, child < id) ∧
        (∀ id, id < axis.nodes.size → axis.nodes.references.count id = if id = root then 0 else 1) ∧
        (∀ (id : Nat) (form : JoinForm) (left right : Nat), axis.nodes[id]? = some (.join form left right) →
          axis.nodes.selectsNothing id = false) ∧
        (axis.nodes.selectsNothing root = true ↔ axis.selections = []) := by
  refine ⟨fun nodes h => h.selectsNothing_iff, fun cat e axis h => ?_⟩
  obtain ⟨root, hinto, hroot⟩ := exists_resolveInto h
  obtain ⟨t, ht, h⟩ := bind_eq_ok h
  obtain rfl := Except.ok.inj h
  obtain rfl := Option.some.inj hroot
  have hordered := Axis.ordered_ofTuples t e.isHierarchized
  have huses := Arena.uses_lay #[] t
  obtain ⟨-, hlt, hstands⟩ := Arena.lay_spec #[] t
  have hfilled : ((Arena.lay #[] t).1.tuples (Arena.lay #[] t).2).Filled := by
    rw [hstands]
    exact closed_filled.resolve e ht
  refine ⟨_, hinto, rfl, hlt, hordered, fun id hid => huses.count_eq hid, fun id form left right hnode => ?_, ?_⟩
  · have hid := (Array.getElem?_eq_some_iff.1 hnode).1
    exact hordered.selectsNothing_join hfilled (hordered.reaches_of_uses huses hid) hnode
  · have hmembers : (Axis.ofTuples t e.isHierarchized).members = t.memberSets.flatten := by
      rw [Axis.members, Axis.memberSets_of_tuples? (Axis.tuples?_ofTuples t _)]
    have hnothing : (Axis.ofTuples t e.isHierarchized).nodes.selectsNothing (Arena.lay #[] t).2 = t.selectsNothing :=
      Arena.selectsNothing_lay #[] t
    rw [hnothing, Axis.selections_eq_nil_iff, hmembers, ← Bool.not_eq_false, (closed_filled.resolve e ht).selectsNothing_iff, not_not]

namespace Outline

/-- Nodes of which some are used twice: an empty set, a member, their join, and unions of them. -/
def sampleSharing : Arena :=
  #[.members [], .members [⟨"[Gender].[All]", "All", "Gender", 0, 0, none⟩], .join .tuple 1 0, .union [0, 1], .union [0, 2, 0]]

/-- A set on the small cube: a tuple, and the join of a union, one branch of which has no members, with two tuples. -/
def sampleBranches : SetExpr :=
  .call .union
    [.braced [.tuple [⟨["Gender", "F"]⟩, ⟨["Product", "Drink"]⟩]],
      .call .crossJoin
        [.call .union [.reference (.children ⟨["Product", "Food [new]", "Snacks"]⟩), .reference (.children ⟨["Product"]⟩)],
          .braced [.tuple [⟨["Gender", "F"]⟩], .tuple [⟨["Gender", "M"]⟩]]]]

/-- A set on the small cube without members: empty braces, and the children of a gender. -/
def sampleNothing : SetExpr := .call .union [.braced [], .reference (.children ⟨["Gender", "M"]⟩)]

/-- Of the nodes that are used twice the last has no tuples, and the one before has. On the small cube the first set is put on an axis of
eleven nodes, each referred to once but the root, and none of its joins selects nothing; the second is put on one of three nodes, the root of
which selects nothing. -/
theorem sample_selectsNothing_exactly :
    (sampleSharing.Built ∧ (∀ s, ¬sampleSharing.Yields 4 s) ∧ ∃ s, sampleSharing.Yields 3 s) ∧
    (∃ axis root, sample.catalog.resolveAxis sampleBranches = .ok axis ∧ axis.root = some root ∧ axis.nodes.size = 11 ∧
      (∀ id, id < 11 → axis.nodes.references.count id = if id = root then 0 else 1) ∧
      (∀ (id : Nat) (form : JoinForm) (left right : Nat), axis.nodes[id]? = some (.join form left right) →
        axis.nodes.selectsNothing id = false) ∧
      axis.selections ≠ [] ∧ axis.nodes.selectsNothing root = false) ∧
    ∃ axis root, sample.catalog.resolveAxis sampleNothing = .ok axis ∧ axis.root = some root ∧ axis.nodes.size = 3 ∧
      axis.selections = [] ∧ axis.nodes.selectsNothing root = true := by
  obtain ⟨hexact, haxes⟩ := Catalog.selectsNothing_exactly
  refine ⟨?_, ?_, ?_⟩
  · have hbuilt : sampleSharing.Built := Arena.Ordered.built (by decide +kernel)
    obtain ⟨hnothing, hsome⟩ : sampleSharing.selectsNothing 4 = true ∧ ¬sampleSharing.selectsNothing 3 = true := by decide +kernel
    exact ⟨hbuilt, (hexact _ hbuilt 4).1 hnothing, not_forall_not.1 (mt (hexact _ hbuilt 3).2 hsome)⟩
  · have hresolved : (sample.catalog.resolveAxis sampleBranches).toOption.any (fun axis =>
        decide (axis.nodes.size = 11 ∧ axis.selections ≠ [])) = true := by
      decide +kernel
    obtain ⟨axis, haxis, hsize⟩ := exists_of_any_toOption hresolved
    obtain ⟨hsize, hsome⟩ := of_decide_eq_true hsize
    obtain ⟨root, -, hroot, -, -, hcount, hjoins, hnothing⟩ := haxes _ _ axis haxis
    rw [hsize] at hcount
    exact ⟨axis, root, haxis, hroot, hsize, hcount, hjoins, hsome, Bool.eq_false_iff.2 (mt hnothing.1 hsome)⟩
  · have hresolved : (sample.catalog.resolveAxis sampleNothing).toOption.any (fun axis =>
        decide (axis.nodes.size = 3 ∧ axis.selections = [])) = true := by
      decide +kernel
    obtain ⟨axis, haxis, hsize⟩ := exists_of_any_toOption hresolved
    obtain ⟨hsize, hnone⟩ := of_decide_eq_true hsize
    obtain ⟨root, -, hroot, -, -, -, -, hnothing⟩ := haxes _ _ axis haxis
    exact ⟨axis, root, haxis, hroot, hsize, hnone, hnothing.2 hnone⟩

end Outline

end CubeAxes
