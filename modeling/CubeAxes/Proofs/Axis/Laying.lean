import CubeAxes.Axis

/-!
# Laying sets into an arena

Adding nodes keeps what the nodes before them stand for (`Arena.Extends`), so the set that is laid stands at its number, and so
do the joins of a chain. What is read back from an axis that was laid is the set it was laid from (`Axis.tuples?_ofTuples`).
-/

namespace CubeAxes

namespace Arena

/-- An arena goes over into another that has at least its nodes, each standing for what it stood for. -/
def Extends (nodes nodes' : Arena) : Prop :=
  nodes.size ≤ nodes'.size ∧ ∀ id, id < nodes.size → nodes'.tuples id = nodes.tuples id

/-- The node of a number is there and stands for a set. -/
def Stands (nodes : Arena) (id : Nat) (t : TupleSet) : Prop := id < nodes.size ∧ nodes.tuples id = t

/-- The nodes of several numbers stand for several sets, one for each. -/
def StandAll (nodes : Arena) (ids : List Nat) (ts : List TupleSet) : Prop :=
  (∀ id ∈ ids, id < nodes.size) ∧ ids.map nodes.tuples = ts

theorem Extends.refl (nodes : Arena) : nodes.Extends nodes := ⟨Nat.le_refl _, fun _ _ => rfl⟩

theorem Extends.trans {a b c : Arena} (hab : a.Extends b) (hbc : b.Extends c) : a.Extends c := by
  refine ⟨Nat.le_trans hab.1 hbc.1, fun id h => ?_⟩
  rw [hbc.2 id (Nat.lt_of_lt_of_le h hab.1), hab.2 id h]

/-- Adding a node extends the arena. -/
theorem extends_add (nodes : Arena) (node : Node) : nodes.Extends (add nodes node).1 := by
  refine ⟨?_, fun id h => tuples_push_of_lt nodes node h⟩
  rw [add, Array.size_push]
  exact Nat.le_succ _

/-- A node goes on standing for its set when the arena is extended. -/
theorem Stands.mono {a b : Arena} (h : a.Extends b) {id : Nat} {t : TupleSet} (hs : a.Stands id t) : b.Stands id t :=
  ⟨Nat.lt_of_lt_of_le hs.1 h.1, (h.2 id hs.1).trans hs.2⟩

theorem StandAll.mono {a b : Arena} (h : a.Extends b) {ids : List Nat} {ts : List TupleSet} (hs : a.StandAll ids ts) :
    b.StandAll ids ts := by
  refine ⟨fun id hid => Nat.lt_of_lt_of_le (hs.1 id hid) h.1, ?_⟩
  rw [← hs.2]
  exact List.map_congr_left fun id hid => h.2 id (hs.1 id hid)

/-- A node that is added stands for the set read from the nodes it refers to, when these are there. -/
theorem stands_add (nodes : Arena) (node : Node) (h : ∀ child ∈ node.children, child < nodes.size) :
    (add nodes node).1.Stands (add nodes node).2 (node.read nodes.tuples) := by
  have hnode : (nodes.push node)[nodes.size]? = some node := Array.getElem?_push_size
  refine ⟨by rw [add, Array.size_push]; exact Nat.lt_succ_self _, ?_⟩
  rw [add, tuples_of_getElem? hnode]
  have hpart : ∀ child ∈ node.children,
      (if child < nodes.size then tuples (nodes.push node) child else .union []) = nodes.tuples child := by
    intro child hc
    rw [if_pos (h child hc), tuples_push_of_lt nodes node (h child hc)]
  cases node with
  | members ms => rfl
  | join form left right =>
    rw [Node.read, Node.read, hpart left (by simp [Node.children]), hpart right (by simp [Node.children])]
  | union branches =>
    rw [Node.read, Node.read]
    exact congrArg TupleSet.union (List.map_congr_left hpart)

mutual

/-- A set that is laid stands at its number, and the arena is extended. -/
theorem lay_spec (nodes : Arena) : (t : TupleSet) →
    nodes.Extends (lay nodes t).1 ∧ (lay nodes t).1.Stands (lay nodes t).2 t
  | .members ms => by
    rw [lay]
    exact ⟨extends_add nodes _, stands_add nodes _ fun child hc => absurd hc List.not_mem_nil⟩
  | .join form left right => by
    obtain ⟨hl, hls⟩ := lay_spec nodes left
    obtain ⟨hr, hrs⟩ := lay_spec (lay nodes left).1 right
    have hls' := hls.mono hr
    rw [lay]
    refine ⟨(hl.trans hr).trans (extends_add _ _), ?_⟩
    have hstands := stands_add (lay (lay nodes left).1 right).1
      (.join form (lay nodes left).2 (lay (lay nodes left).1 right).2) (by simp [Node.children, hls'.1, hrs.1])
    rw [Node.read, hls'.2, hrs.2] at hstands
    exact hstands
  | .union branches => by
    obtain ⟨hb, hbs⟩ := layAll_spec nodes branches
    rw [lay]
    refine ⟨hb.trans (extends_add _ _), ?_⟩
    have hstands := stands_add (layAll nodes branches).1 (.union (layAll nodes branches).2) hbs.1
    rw [Node.read, hbs.2] at hstands
    exact hstands

/-- Sets that are laid one after the other stand at their numbers, and the arena is extended. -/
theorem layAll_spec (nodes : Arena) : (ts : List TupleSet) →
    nodes.Extends (layAll nodes ts).1 ∧ (layAll nodes ts).1.StandAll (layAll nodes ts).2 ts
  | [] => ⟨Extends.refl nodes, fun _ h => absurd h List.not_mem_nil, rfl⟩
  | t :: ts => by
    obtain ⟨ht, hs⟩ := lay_spec nodes t
    obtain ⟨hts, hss⟩ := layAll_spec (lay nodes t).1 ts
    have hs' := hs.mono hts
    rw [layAll]
    refine ⟨ht.trans hts, fun id hid => ?_, ?_⟩
    · rcases List.mem_cons.1 hid with rfl | hid
      · exact hs'.1
      · exact hss.1 id hid
    · rw [List.map_cons, hs'.2, hss.2]

end

/-- Joining nodes in a chain gives a node that stands for the chain of their sets. -/
theorem chain_spec (form : JoinForm) (nodes : Arena) {ids : List Nat} {ts : List TupleSet} (hs : nodes.StandAll ids ts)
    (hne : ts ≠ []) :
    ∃ nodes' id t, nodes.chain form ids = some (nodes', id) ∧ TupleSet.chain form ts = some t ∧ nodes.Extends nodes' ∧
      nodes'.Stands id t := by
  induction ids generalizing ts with
  | nil => exact absurd hs.2.symm hne
  | cons id ids ih =>
    obtain ⟨hids, rfl⟩ := hs
    cases ids with
    | nil => exact ⟨nodes, id, _, rfl, rfl, Extends.refl nodes, hids id List.mem_cons_self, rfl⟩
    | cons id' ids =>
      obtain ⟨nodes', right, t, hj, hc, he, hst⟩ :=
        ih ⟨fun i hi => hids i (List.mem_cons_of_mem id hi), rfl⟩ (by simp)
      have hleft : nodes'.Stands id (nodes.tuples id) := Stands.mono he ⟨hids id List.mem_cons_self, rfl⟩
      have hstands := stands_add nodes' (.join form id right) (by simp [Node.children, hleft.1, hst.1])
      rw [Node.read, hleft.2, hst.2] at hstands
      refine ⟨_, _, _, ?_, ?_, he.trans (extends_add nodes' (.join form id right)), hstands⟩
      · rw [chain, hj]
        · rfl
        · simp
      · rw [List.map_cons, TupleSet.chain, hc]
        · rfl
        · simp

end Arena

namespace Axis

/-- An axis holds the set it was laid from. -/
theorem tuples?_ofTuples (t : TupleSet) (hierarchize : Bool) : (ofTuples t hierarchize).tuples? = some t :=
  congrArg some (Arena.lay_spec #[] t).2.2

/-- The sets of members on an axis are those of its set. -/
theorem memberSets_of_tuples? {axis : Axis} {t : TupleSet} (h : axis.tuples? = some t) : axis.memberSets = t.memberSets := by
  obtain ⟨id, hid, rfl⟩ := Option.map_eq_some_iff.1 h
  rw [memberSets, Arena.visit_eq, hid, Option.toList_some, List.flatMap_singleton]

/-- An axis that holds no set holds no members. -/
theorem memberSets_of_tuples?_eq_none {axis : Axis} (h : axis.tuples? = none) : axis.memberSets = [] := by
  rw [memberSets, Option.map_eq_none_iff.1 h, Option.toList_none, Arena.visit]

end Axis

end CubeAxes
