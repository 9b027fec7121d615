import CubeAxes.Placement
import CubeAxes.Proofs.Axis.Laying

/-!
# Axes that are joins of sets of members

A mutation builds an axis by joining one set of members for each hierarchy. Such an axis selects, hierarchy by hierarchy, what it
was built from, but for the hierarchies of which it has no member (`Selects.selections_eq`). The depths of a hierarchy on an axis
are those of its members there, ascending.
-/

namespace CubeAxes

/-- Of parts that each have entries of one key, no two of the same, one has all the entries of its key. -/
theorem filter_flatMap_own {α β κ : Type} [DecidableEq κ] (name : β → κ) (part : β → List α) (key : α → κ) {l : List β}
    (own : ∀ b ∈ l, ∀ a ∈ part b, key a = name b) (hl : (l.map name).Nodup) {b : β} (hb : b ∈ l) :
    (l.flatMap part).filter (fun a => decide (key a = name b)) = part b := by
  induction l with
  | nil => exact absurd hb List.not_mem_nil
  | cons c l ih =>
    rw [List.map_cons, List.nodup_cons] at hl
    obtain ⟨hn, hl'⟩ := hl
    have own' : ∀ d ∈ l, ∀ a ∈ part d, key a = name d := fun d hd => own d (List.mem_cons_of_mem c hd)
    rw [List.flatMap_cons, List.filter_append]
    rcases List.mem_cons.1 hb with rfl | hb
    · have hself : (part b).filter (fun a => decide (key a = name b)) = part b :=
        List.filter_eq_self.2 fun a ha => decide_eq_true (own b List.mem_cons_self a ha)
      have hrest : (l.flatMap part).filter (fun a => decide (key a = name b)) = [] := by
        refine List.filter_eq_nil_iff.2 fun a ha e => hn ?_
        obtain ⟨d, hd, had⟩ := List.mem_flatMap.1 ha
        exact List.mem_map.2 ⟨d, hd, (own' d hd a had).symm.trans (of_decide_eq_true e)⟩
      rw [hself, hrest, List.append_nil]
    · have hother : (part c).filter (fun a => decide (key a = name b)) = [] := by
        refine List.filter_eq_nil_iff.2 fun a ha e => hn ?_
        exact List.mem_map.2 ⟨b, hb, (of_decide_eq_true e).symm.trans (own c List.mem_cons_self a ha)⟩
      rw [hother, List.nil_append]
      exact ih own' hl' hb

namespace TupleSet

/-- Sets joined one after the other hold the sets of members of each in turn. -/
theorem memberSets_chain {form : JoinForm} {ts : List TupleSet} {t : TupleSet} (h : chain form ts = some t) :
    t.memberSets = ts.flatMap memberSets := by
  induction ts generalizing t with
  | nil => nomatch h
  | cons u us ih =>
    cases us with
    | nil =>
      obtain rfl := Option.some.inj h
      rw [List.flatMap_singleton]
    | cons v vs =>
      obtain ⟨t', ht', rfl⟩ := Option.map_eq_some_iff.1 h
      rw [memberSets, ih ht']
      rfl

/-- Some sets have a join. -/
theorem exists_chain (form : JoinForm) {ts : List TupleSet} (h : ts ≠ []) : ∃ t, chain form ts = some t := by
  induction ts with
  | nil => exact absurd rfl h
  | cons u us ih =>
    cases us with
    | nil => exact ⟨u, rfl⟩
    | cons v vs =>
      obtain ⟨t, ht⟩ := ih (List.cons_ne_nil v vs)
      exact ⟨.join form u t, congrArg (Option.map _) ht⟩

/-- Sets joined one after the other have tuples when each of them has some. -/
theorem selectsNothing_chain_iff {form : JoinForm} {ts : List TupleSet} {t : TupleSet} (h : chain form ts = some t) :
    t.selectsNothing = false ↔ ∀ u ∈ ts, u.selectsNothing = false := by
  induction ts generalizing t with
  | nil => nomatch h
  | cons u us ih =>
    cases us with
    | nil =>
      obtain rfl := Option.some.inj h
      simp
    | cons v vs =>
      obtain ⟨t', ht', rfl⟩ := Option.map_eq_some_iff.1 h
      rw [selectsNothing, Bool.or_eq_false_iff, ih ht']
      exact (List.forall_mem_cons (p := fun w : TupleSet => w.selectsNothing = false)).symm

end TupleSet

namespace Axis

/-- An axis on which sets of members are joined one after the other, and nothing else. -/
def Joins (axis : Axis) (sets : List (List Member)) : Prop := axis.tuples? = TupleSet.chain .call (sets.map .members)

/-- The sets of members of such an axis are those that are joined. -/
theorem Joins.memberSets_eq {axis : Axis} {sets : List (List Member)} (h : axis.Joins sets) : axis.memberSets = sets := by
  unfold Joins at h
  cases sets with
  | nil => exact memberSets_of_tuples?_eq_none h
  | cons ms sets =>
    obtain ⟨t, ht⟩ := TupleSet.exists_chain .call (List.cons_ne_nil (TupleSet.members ms) (sets.map .members))
    rw [memberSets_of_tuples? (h.trans ht), TupleSet.memberSets_chain ht, ← List.map_cons, List.flatMap_map]
    exact List.flatMap_singleton' _

/-- The axis built from some sets of members joins them, without repetition in any. -/
theorem exists_ofSets {sets : List (List Member)} (hne : sets ≠ []) (hierarchize : Bool) :
    ∃ axis, ofSets sets hierarchize = .ok axis ∧ axis.hierarchize = hierarchize ∧ axis.Joins (sets.map distinctMembers) := by
  obtain ⟨-, hs⟩ := Arena.layAll_spec #[] (sets.map TupleSet.literal)
  obtain ⟨nodes, root, t, hj, hc, -, hst⟩ := Arena.chain_spec .call _ hs (by simpa using hne)
  refine ⟨⟨nodes, some root, hierarchize⟩, ?_, rfl, ?_⟩
  · simp only [ofSets, Arena.joinChain, hj]
  · have hsets : (sets.map distinctMembers).map TupleSet.members = sets.map TupleSet.literal := by
      rw [List.map_map]
      rfl
    rw [Joins, hsets, hc]
    exact congrArg some hst.2

/-! ## Members and depths of a hierarchy -/

/-- A member of a hierarchy on an axis is one of the axis, and of the hierarchy. -/
theorem mem_of_mem_membersOf {axis : Axis} {hierarchy : String} {m : Member} (h : m ∈ axis.membersOf hierarchy) :
    m ∈ axis.members ∧ m.hierarchy = hierarchy := by
  have hf := List.mem_filter.1 (mem_of_mem_distinctOn h)
  exact ⟨hf.1, of_decide_eq_true hf.2⟩

/-- A hierarchy is on an axis when the axis has a member of it. -/
theorem mem_hierarchies {axis : Axis} {hierarchy : String} :
    hierarchy ∈ axis.hierarchies ↔ ∃ m ∈ axis.members, m.hierarchy = hierarchy := by
  rw [hierarchies, mem_distinctOn_id, List.mem_map]

/-- The depths of a hierarchy on an axis are those of its members there. -/
theorem mem_depths {axis : Axis} {hierarchy : String} {d : Nat} :
    d ∈ axis.depths hierarchy ↔ ∃ m ∈ axis.membersOf hierarchy, m.depth = d := by
  rw [depths, mem_sortBy, mem_distinctOn_id, List.mem_map]

/-- The depths of a hierarchy on an axis ascend. -/
theorem pairwise_depths (axis : Axis) (hierarchy : String) : (axis.depths hierarchy).Pairwise (· < ·) := by
  have hnodup : (axis.depths hierarchy).Nodup := (sortBy_perm _ _).nodup_iff.2 (nodup_distinctOn_id _)
  have hle : (axis.depths hierarchy).Pairwise fun a b => decide (a ≤ b) := by
    refine sortBy_pairwise ?_ ?_ _
    · intro a b c hab hbc
      exact decide_eq_true (Nat.le_trans (of_decide_eq_true hab) (of_decide_eq_true hbc))
    · intro a b
      rcases Nat.le_total a b with h | h <;> simp [h]
  exact (hle.and hnodup).imp fun h => Nat.lt_of_le_of_ne (of_decide_eq_true h.1) h.2

/-! ## What an axis selects -/

/-- An axis holds the members of several selections, one selection after the other, each of one hierarchy and without repetition,
no two of the same hierarchy. A selection may be empty. -/
structure Selects (axis : Axis) (ss : List Selection) : Prop where
  members : axis.members = ss.flatMap (·.members)
  own : ∀ s ∈ ss, ∀ m ∈ s.members, m.hierarchy = s.hierarchy
  nodup : ∀ s ∈ ss, (s.members.map (·.uniqueName)).Nodup
  hierarchies : (ss.map (·.hierarchy)).Nodup

namespace Selects

variable {axis : Axis} {ss : List Selection}

/-- The members of a hierarchy on the axis are those of its selection. -/
theorem membersOf_eq (h : axis.Selects ss) {s : Selection} (hs : s ∈ ss) : axis.membersOf s.hierarchy = s.members := by
  unfold Axis.membersOf
  rw [h.members, filter_flatMap_own (fun s : Selection => s.hierarchy) (·.members) Member.hierarchy h.own h.hierarchies hs]
  exact distinctOn_of_nodup (h.nodup s hs)

/-- The hierarchies on the axis are those of the selections that are not empty. -/
theorem hierarchies_eq (h : axis.Selects ss) :
    axis.hierarchies = (ss.filter fun s => decide (s.members ≠ [])).map (·.hierarchy) := by
  unfold Axis.hierarchies
  rw [h.members]
  exact distinctOn_map_flatMap (fun s : Selection => s.hierarchy) (·.members) Member.hierarchy h.own h.hierarchies

/-- The axis selects what the selections say that are not empty. -/
theorem selections_eq (h : axis.Selects ss) : axis.selections = ss.filter fun s => decide (s.members ≠ []) := by
  unfold Axis.selections
  rw [h.hierarchies_eq, List.map_map]
  have hself : ∀ s ∈ ss.filter (fun s => decide (s.members ≠ [])),
      ((fun n => ⟨n, axis.membersOf n⟩) ∘ fun s : Selection => s.hierarchy) s = s := by
    intro s hs
    simp only [Function.comp_apply, h.membersOf_eq (List.mem_filter.1 hs).1]
  rw [List.map_congr_left hself, List.map_id']

end Selects

end Axis

end CubeAxes
