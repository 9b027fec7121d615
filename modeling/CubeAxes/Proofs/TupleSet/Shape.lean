import Mathlib.Data.Set.Lattice
import Mathlib.Order.CompletePartialOrder
import CubeAxes.Proofs.Axis.Sets
import CubeAxes.Proofs.TupleSet.Tuples

/-!
# The shape of a set of tuples

The shape of a set is the hierarchies of its members. A set is well typed when each set of members in it has one hierarchy at most,
the sides of each join have none in common, and the branches of each union that have tuples have the same shape. Whether a set is well
typed is told from the sets that it is put together from (`TupleSet.wellTyped_join_iff`, `TupleSet.wellTyped_union_iff`,
`TupleSet.wellTyped_chain_iff`).
-/

namespace CubeAxes

/-- The hierarchies of some members. -/
def hierarchiesOf (ms : List Member) : Set String := {hierarchy | ∃ m ∈ ms, m.hierarchy = hierarchy}

/-- No members have no hierarchies. -/
theorem hierarchiesOf_eq_empty_iff {ms : List Member} : hierarchiesOf ms = ∅ ↔ ms = [] := by
  constructor
  · intro h
    refine List.eq_nil_iff_forall_not_mem.2 fun m hm => ?_
    have hin : m.hierarchy ∈ hierarchiesOf ms := ⟨m, hm, rfl⟩
    rw [h] at hin
    exact hin
  · rintro rfl
    exact Set.eq_empty_iff_forall_notMem.2 fun hierarchy ⟨m, hm, _⟩ => absurd hm List.not_mem_nil

/-- One member has its hierarchy. -/
theorem hierarchiesOf_singleton (m : Member) : hierarchiesOf [m] = {m.hierarchy} := by
  ext hierarchy
  simp [hierarchiesOf, eq_comm]

/-- What is in any of several shapes. -/
def unite (ss : List (Set String)) : Set String := {hierarchy | ∃ s ∈ ss, hierarchy ∈ s}

/-- The hierarchies of the members of several lists are those of each. -/
theorem hierarchiesOf_flatten (mss : List (List Member)) : hierarchiesOf mss.flatten = unite (mss.map hierarchiesOf) := by
  ext hierarchy
  constructor
  · rintro ⟨m, hm, he⟩
    obtain ⟨ms, hms, hm⟩ := List.mem_flatten.1 hm
    exact ⟨hierarchiesOf ms, List.mem_map_of_mem hms, m, hm, he⟩
  · rintro ⟨s, hs, hin⟩
    obtain ⟨ms, hms, rfl⟩ := List.mem_map.1 hs
    obtain ⟨m, hm, he⟩ := hin
    exact ⟨m, List.mem_flatten.2 ⟨ms, hms, hm⟩, he⟩

/-- Several shapes that are all the same. -/
theorem unite_eq_of_forall_eq {ss : List (Set String)} {s : Set String} (hne : ss ≠ []) (h : ∀ s' ∈ ss, s' = s) : unite ss = s := by
  obtain ⟨first, hfirst⟩ := List.exists_mem_of_ne_nil ss hne
  ext hierarchy
  constructor
  · rintro ⟨s', hs', hin⟩
    exact h s' hs' ▸ hin
  · intro hin
    exact ⟨first, hfirst, h first hfirst ▸ hin⟩

namespace TupleSet

mutual

/-- The sets that a set is put together from, itself included. -/
def parts : TupleSet → List TupleSet
  | members ms => [members ms]
  | join form left right => join form left right :: (left.parts ++ right.parts)
  | union branches => union branches :: partsAll branches

/-- The sets that several sets are put together from. -/
def partsAll : List TupleSet → List TupleSet
  | [] => []
  | t :: ts => t.parts ++ partsAll ts

end

/-- The sets that several sets are put together from are those of each in turn. -/
theorem partsAll_eq (ts : List TupleSet) : partsAll ts = ts.flatMap parts := by
  induction ts with
  | nil => rfl
  | cons t ts ih => rw [partsAll, ih, List.flatMap_cons]

/-- A join is put together from its sides. -/
theorem mem_parts_join_iff {form : JoinForm} {left right u : TupleSet} :
    u ∈ (join form left right).parts ↔ u = join form left right ∨ u ∈ left.parts ∨ u ∈ right.parts := by
  rw [parts, List.mem_cons, List.mem_append]

/-- A union is put together from its branches. -/
theorem mem_parts_union_iff {branches : List TupleSet} {u : TupleSet} :
    u ∈ (union branches).parts ↔ u = union branches ∨ ∃ t ∈ branches, u ∈ t.parts := by
  rw [parts, partsAll_eq, List.mem_cons, List.mem_flatMap]

/-- The shape of a set: the hierarchies of its members. -/
def shape (t : TupleSet) : Set String := hierarchiesOf t.memberSets.flatten

/-- Those of several sets that have tuples have the same shape. -/
def SameShaped (ts : List TupleSet) : Prop :=
  ∀ t ∈ ts, ∀ u ∈ ts, t.selectsNothing = false → u.selectsNothing = false → t.shape = u.shape

/-- In a set each set of members has one hierarchy at most, no hierarchy is on both sides of a join, and the branches of a union that
have tuples have the same shape. -/
structure WellTyped (t : TupleSet) : Prop where
  members : ∀ ms, .members ms ∈ t.parts → ∃ hierarchy, ∀ m ∈ ms, m.hierarchy = hierarchy
  joins : ∀ form left right, .join form left right ∈ t.parts → left.Apart right
  unions : ∀ branches, .union branches ∈ t.parts → SameShaped branches

/-! ## Shapes -/

/-- Two sets have no members of one hierarchy when their shapes have nothing in common. -/
theorem apart_iff_disjoint {t u : TupleSet} : t.Apart u ↔ Disjoint t.shape u.shape := by
  rw [Set.disjoint_left]
  constructor
  · rintro h hierarchy ⟨m, hm, rfl⟩ ⟨n, hn, he⟩
    exact h m hm n hn he.symm
  · intro h m hm n hn he
    exact h ⟨m, hm, rfl⟩ ⟨n, hn, he.symm⟩

/-- The shape of a set of members. -/
theorem shape_members (ms : List Member) : (members ms).shape = hierarchiesOf ms := by
  rw [shape, memberSets, List.flatten_singleton]

/-- A set with the members of several sets has the shapes of them all. -/
theorem shape_of_memberSets {ts : List TupleSet} {t : TupleSet} (h : t.memberSets = ts.flatMap memberSets) :
    t.shape = unite (ts.map shape) := by
  have hflat : t.memberSets.flatten = (ts.map fun u => u.memberSets.flatten).flatten := by
    rw [h, List.flatMap_def, List.flatten_flatten, List.map_map]
    rfl
  rw [shape, hflat, hierarchiesOf_flatten, List.map_map]
  rfl

/-- The shape of sets joined one after the other. -/
theorem shape_chain {form : JoinForm} {ts : List TupleSet} {t : TupleSet} (h : chain form ts = some t) :
    t.shape = unite (ts.map shape) := shape_of_memberSets (memberSets_chain h)

/-- The shape of a union. -/
theorem shape_union (branches : List TupleSet) : (union branches).shape = unite (branches.map shape) :=
  shape_of_memberSets (by rw [memberSets, memberSetsAll_eq])

/-- Sets that all have tuples have the same shape when there is one that each of them has. -/
theorem sameShaped_iff {ts : List TupleSet} (hne : ts ≠ []) (h : ∀ t ∈ ts, t.selectsNothing = false) :
    SameShaped ts ↔ ∃ s, ∀ s' ∈ ts.map shape, s' = s := by
  constructor
  · intro hsame
    obtain ⟨u, hu⟩ := List.exists_mem_of_ne_nil ts hne
    refine ⟨u.shape, fun s' hs' => ?_⟩
    obtain ⟨w, hw, rfl⟩ := List.mem_map.1 hs'
    exact hsame w hw u hu (h w hw) (h u hu)
  · rintro ⟨s, hall⟩ u hu w hw - -
    rw [hall _ (List.mem_map_of_mem hu), hall _ (List.mem_map_of_mem hw)]

/-- No hierarchy of a set is in several sets that are joined when it is in none of them. -/
theorem apart_chain_iff {form : JoinForm} {ts : List TupleSet} {t u : TupleSet} (h : chain form ts = some t) :
    u.Apart t ↔ ∀ w ∈ ts, u.Apart w := by
  rw [apart_iff_disjoint, shape_chain h, Set.disjoint_left]
  constructor
  · intro hu w hw
    rw [apart_iff_disjoint, Set.disjoint_left]
    exact fun hierarchy hin hmem => hu hin ⟨w.shape, List.mem_map_of_mem hw, hmem⟩
  · rintro hu hierarchy hin ⟨s, hs, hmem⟩
    obtain ⟨w, hw, rfl⟩ := List.mem_map.1 hs
    exact Set.disjoint_left.1 (apart_iff_disjoint.1 (hu w hw)) hin hmem

/-! ## Well-typed sets -/

/-- A set of members is well typed when it has one hierarchy at most. -/
theorem wellTyped_members_iff {ms : List Member} :
    (members ms).WellTyped ↔ ∃ hierarchy, ∀ m ∈ ms, m.hierarchy = hierarchy := by
  constructor
  · exact fun h => h.members ms List.mem_cons_self
  · intro h
    refine ⟨fun ms' hin => ?_, fun form left right hin => ?_, fun branches hin => ?_⟩
    · obtain rfl := members.inj (List.mem_singleton.1 hin)
      exact h
    · cases List.mem_singleton.1 hin
    · cases List.mem_singleton.1 hin

/-- What a well-typed set is put together from is well typed. -/
theorem WellTyped.of_subset {t u : TupleSet} (h : t.WellTyped) (hsub : u.parts ⊆ t.parts) : u.WellTyped where
  members := fun ms hin => h.members ms (hsub hin)
  joins := fun form left right hin => h.joins form left right (hsub hin)
  unions := fun branches hin => h.unions branches (hsub hin)

/-- A join is well typed when its sides are and have no hierarchy in common. -/
theorem wellTyped_join_iff {form : JoinForm} {left right : TupleSet} :
    (join form left right).WellTyped ↔ left.WellTyped ∧ right.WellTyped ∧ left.Apart right := by
  constructor
  · intro h
    exact ⟨h.of_subset fun u hu => mem_parts_join_iff.2 (Or.inr (Or.inl hu)),
      h.of_subset fun u hu => mem_parts_join_iff.2 (Or.inr (Or.inr hu)), h.joins form left right List.mem_cons_self⟩
  · rintro ⟨hl, hr, hapart⟩
    refine ⟨fun ms hin => ?_, fun f l r hin => ?_, fun bs hin => ?_⟩
    all_goals
      rcases mem_parts_join_iff.1 hin with he | hin | hin
    · cases he
    · exact hl.members ms hin
    · exact hr.members ms hin
    · obtain ⟨rfl, rfl, rfl⟩ := join.inj he
      exact hapart
    · exact hl.joins f l r hin
    · exact hr.joins f l r hin
    · cases he
    · exact hl.unions bs hin
    · exact hr.unions bs hin

/-- A union is well typed when its branches are and those of them that have tuples have the same shape. -/
theorem wellTyped_union_iff {branches : List TupleSet} :
    (union branches).WellTyped ↔ (∀ t ∈ branches, t.WellTyped) ∧ SameShaped branches := by
  constructor
  · intro h
    exact ⟨fun t ht => h.of_subset fun u hu => mem_parts_union_iff.2 (Or.inr ⟨t, ht, hu⟩), h.unions branches List.mem_cons_self⟩
  · rintro ⟨hall, hsame⟩
    refine ⟨fun ms hin => ?_, fun f l r hin => ?_, fun bs hin => ?_⟩
    all_goals
      rcases mem_parts_union_iff.1 hin with he | ⟨t, ht, hin⟩
    · cases he
    · exact (hall t ht).members ms hin
    · cases he
    · exact (hall t ht).joins f l r hin
    · obtain rfl := union.inj he
      exact hsame
    · exact (hall t ht).unions bs hin

/-- Sets joined one after the other are well typed when each of them is and no two have a hierarchy in common. -/
theorem wellTyped_chain_iff {form : JoinForm} {ts : List TupleSet} {t : TupleSet} (h : chain form ts = some t) :
    t.WellTyped ↔ (∀ u ∈ ts, u.WellTyped) ∧ ts.Pairwise Apart := by
  induction ts generalizing t with
  | nil => cases h
  | cons u us ih =>
    cases us with
    | nil =>
      obtain rfl := Option.some.inj h
      simp
    | cons v vs =>
      obtain ⟨t', ht', rfl⟩ := Option.map_eq_some_iff.1 h
      rw [wellTyped_join_iff, ih ht', apart_chain_iff ht', List.pairwise_cons (a := u), List.forall_mem_cons (a := u)]
      constructor
      · rintro ⟨hu, ⟨hvs, hpairs⟩, hapart⟩
        exact ⟨⟨hu, hvs⟩, hapart, hpairs⟩
      · rintro ⟨⟨hu, hvs⟩, hapart, hpairs⟩
        exact ⟨hu, ⟨hvs, hpairs⟩, hapart⟩

end TupleSet

end CubeAxes
