import CubeAxes.Proofs.Arena.Reached
import CubeAxes.Proofs.Arena.Traversal
import CubeAxes.Proofs.Axis.Edited

/-!
# Members grouped by hierarchy

Members that come one after the other are grouped by hierarchy (`Groups`): each hierarchy has its group where it first occurs, and of the members
of one unique name the group keeps the first. Only one list of selections is such a grouping (`Groups.eq`). It is what an axis is summed up by,
though the axis is walked over once for its hierarchies and once more for the members of each (`Axis.selections_exactly`).
-/

namespace CubeAxes

/-! ## First entries -/

section Firsts

variable {α κ : Type} [DecidableEq κ]

/-- A list keeps the first entry of each key of another list: an entry is kept if it is the first of its key there, and what is kept stands in the
order in which the keys first occur. -/
structure Firsts (key : α → κ) (l kept : List α) : Prop where
  mem_iff : ∀ a, a ∈ kept ↔ l.find? (fun b => decide (key b = key a)) = some a
  order : kept.Pairwise fun a b => (l.map key).idxOf (key a) < (l.map key).idxOf (key b)

namespace Firsts

variable {key : α → κ} {l kept kept' : List α}

/-- What is kept was there. -/
theorem subset (h : Firsts key l kept) : kept ⊆ l := fun a ha => List.mem_of_find?_eq_some ((h.mem_iff a).1 ha)

/-- Of each key an entry is kept. -/
theorem exists_of_mem (h : Firsts key l kept) {a : α} (ha : a ∈ l) : ∃ b ∈ kept, key b = key a := by
  cases hfirst : l.find? fun b => decide (key b = key a) with
  | none =>
    have hnone := List.find?_eq_none.1 hfirst a ha
    exact absurd (decide_eq_true rfl) hnone
  | some b =>
    have hkey : key b = key a := by simpa using List.find?_some hfirst
    rw [← hkey] at hfirst
    exact ⟨b, (h.mem_iff b).2 hfirst, hkey⟩

/-- No two entries of one key are kept. -/
theorem nodup_map (h : Firsts key l kept) : (kept.map key).Nodup := by
  refine List.pairwise_map.2 (h.order.imp fun hlt heq => ?_)
  rw [heq] at hlt
  exact Nat.lt_irrefl _ hlt

/-- The first entries are kept in one way only. -/
theorem unique (h : Firsts key l kept) (h' : Firsts key l kept') : kept = kept' := by
  have hperm : kept.Perm kept' :=
    (List.perm_ext_iff_of_nodup h.nodup_map.of_map h'.nodup_map.of_map).2 fun a => (h.mem_iff a).trans (h'.mem_iff a).symm
  refine hperm.eq_of_pairwise (fun a b _ _ hab hba => ?_) h.order h'.order
  exact absurd hab (Nat.lt_asymm hba)

end Firsts

variable [Ord κ] [Std.TransOrd κ] [Std.LawfulEqOrd κ]

/-- The keys of the entries of distinct keys are the distinct keys. -/
theorem map_distinctOn (key : α → κ) (l : List α) : (distinctOn key l).map key = distinctOn id (l.map key) := by
  induction l with
  | nil => rfl
  | cons a l ih =>
    rw [distinctOn_cons, List.map_cons, List.map_cons, distinctOn_cons, ← ih, List.filter_map]
    rfl

/-- An entry is among those of distinct keys if it is the first of its key. -/
theorem mem_distinctOn_iff_find? {key : α → κ} {l : List α} {a : α} :
    a ∈ distinctOn key l ↔ l.find? (fun b => decide (key b = key a)) = some a := by
  induction l with
  | nil => simp [distinctOn_nil]
  | cons c l ih =>
    rw [distinctOn_cons, List.mem_cons, List.mem_filter, ih, decide_eq_true_iff, List.find?_cons]
    by_cases hkey : key c = key a
    · rw [decide_eq_true hkey, Option.some_inj]
      constructor
      · rintro (rfl | ⟨-, hne⟩)
        · rfl
        · exact absurd hkey.symm hne
      · exact fun hca => Or.inl hca.symm
    · rw [decide_eq_false hkey]
      constructor
      · rintro (rfl | ⟨hfirst, -⟩)
        · exact absurd rfl hkey
        · exact hfirst
      · exact fun hfirst => Or.inr ⟨hfirst, Ne.symm hkey⟩

/-- The entries of distinct keys are the first of each key. -/
theorem firsts_distinctOn (key : α → κ) (l : List α) : Firsts key l (distinctOn key l) := by
  refine ⟨fun a => mem_distinctOn_iff_find?, ?_⟩
  have horder := pairwise_idxOf_distinctOn (l.map key)
  rwa [← map_distinctOn, List.pairwise_map] at horder

end Firsts

/-! ## Groups -/

/-- Selections group members: there is one for each hierarchy that occurs, in the order in which the hierarchies first occur, and it has of the
members of its hierarchy the first of each unique name, in the order in which the names first occur. -/
structure Groups (ms : List Member) (ss : List Selection) : Prop where
  hierarchies : Firsts id (ms.map (·.hierarchy)) (ss.map (·.hierarchy))
  members : ∀ s ∈ ss, Firsts Member.uniqueName (ms.filter fun m => decide (m.hierarchy = s.hierarchy)) s.members

namespace Groups

variable {ms : List Member} {ss : List Selection}

/-- Each hierarchy has one group. -/
theorem nodup_hierarchies (h : Groups ms ss) : (ss.map (·.hierarchy)).Nodup := h.hierarchies.nodup_map.of_map

/-- A member in a group is one of the members, and of the hierarchy of the group. -/
theorem of_mem (h : Groups ms ss) {s : Selection} (hs : s ∈ ss) {m : Member} (hm : m ∈ s.members) :
    m ∈ ms ∧ m.hierarchy = s.hierarchy := by
  obtain ⟨hin, hhierarchy⟩ := List.mem_filter.1 ((h.members s hs).subset hm)
  exact ⟨hin, of_decide_eq_true hhierarchy⟩

/-- Each member has a group of its hierarchy, and there is one of its unique name in it. -/
theorem exists_of_mem (h : Groups ms ss) {m : Member} (hm : m ∈ ms) :
    ∃ s ∈ ss, s.hierarchy = m.hierarchy ∧ ∃ m' ∈ s.members, m'.uniqueName = m.uniqueName := by
  obtain ⟨hierarchy, hh, heq⟩ := h.hierarchies.exists_of_mem (List.mem_map_of_mem hm)
  obtain ⟨s, hs, rfl⟩ := List.mem_map.1 hh
  have hown : m ∈ ms.filter fun m => decide (m.hierarchy = s.hierarchy) := List.mem_filter.2 ⟨hm, decide_eq_true heq.symm⟩
  exact ⟨s, hs, heq, (h.members s hs).exists_of_mem hown⟩

/-- Where the unique name tells members apart, each of them is in one group only, and once. -/
theorem exists_only (h : Groups ms ss) (inj : ∀ m ∈ ms, ∀ m' ∈ ms, m.uniqueName = m'.uniqueName → m = m') {m : Member} (hm : m ∈ ms) :
    ∃ s ∈ ss, s.members.count m = 1 ∧ ∀ s' ∈ ss, m ∈ s'.members → s' = s := by
  obtain ⟨s, hs, hhierarchy, m', hm', hname⟩ := h.exists_of_mem hm
  obtain rfl := inj m' (h.of_mem hs hm').1 m hm hname
  refine ⟨s, hs, List.count_eq_one_of_mem (h.members s hs).nodup_map.of_map hm', fun s' hs' hin => ?_⟩
  have hsame : s'.hierarchy = s.hierarchy := (h.of_mem hs' hin).2.symm.trans hhierarchy.symm
  exact List.inj_on_of_nodup_map h.nodup_hierarchies hs' hs hsame

/-- The groups are made by taking the hierarchies first and then the members of each. -/
theorem eq (h : Groups ms ss) :
    ss = (distinctOn id (ms.map (·.hierarchy))).map fun n => ⟨n, distinctMembers (ms.filter fun m => decide (m.hierarchy = n))⟩ := by
  have hhierarchies : ss.map (·.hierarchy) = distinctOn id (ms.map (·.hierarchy)) := h.hierarchies.unique (firsts_distinctOn id _)
  have hself : ∀ s ∈ ss, (⟨s.hierarchy, distinctMembers (ms.filter fun m => decide (m.hierarchy = s.hierarchy))⟩ : Selection) = s := by
    intro s hs
    rw [distinctMembers, ← (h.members s hs).unique (firsts_distinctOn Member.uniqueName _)]
  rw [← hhierarchies, List.map_map]
  exact ((List.map_congr_left hself).trans (List.map_id' ss)).symm

end Groups

namespace Axis

/-- What is summed up of an axis groups its members. -/
theorem groups_selections (axis : Axis) : Groups axis.members axis.selections := by
  constructor
  · rw [map_hierarchy_selections]
    exact firsts_distinctOn id _
  · intro s hs
    rw [(mem_selections.1 hs).2]
    exact firsts_distinctOn Member.uniqueName _

/-- No other selections group the members of an axis. -/
theorem groups_members_iff (axis : Axis) (ss : List Selection) : Groups axis.members ss ↔ ss = axis.selections := by
  constructor
  · exact Groups.eq
  · rintro rfl
    exact axis.groups_selections

/-- What is met on an axis and how it is summed up, where the nodes are ordered and the root is one of them. From any number the walk with a stack
ends in what a traversal of the number meets, if there is a traversal, and otherwise not at all. From the root it ends after as many steps as there
are sets that the set on the axis is built from, having met what the only traversal of the root meets. The members that were met are grouped by
hierarchy in one way only, and so they are summed up: no hierarchy has two selections, no selection is empty or has one unique name twice, and all
its members are reached and of its hierarchy. If the members that are reached can be told apart by their unique names, each of them is in one
selection only, and there once. -/
theorem selections_exactly {axis : Axis} (ho : axis.nodes.Ordered) (hroot : ∀ root, axis.root = some root → root < axis.nodes.size) :
    (∀ root sets, (Arena.Walk.start (some root)).EndsIn axis.nodes sets ↔ axis.nodes.Traversal root sets) ∧
    (Arena.Walk.start axis.root).steps axis.nodes (axis.nodes.weight axis.root.toList) = some ⟨[], axis.memberSets⟩ ∧
    (∀ root, axis.root = some root → ∀ sets, axis.nodes.Traversal root sets ↔ sets = axis.memberSets) ∧
    (∀ ss, Groups axis.memberSets.flatten ss ↔ ss = axis.selections) ∧
    (axis.selections.map (·.hierarchy)).Nodup ∧
    (∀ s ∈ axis.selections, s.members ≠ [] ∧ (s.members.map (·.uniqueName)).Nodup ∧
      ∀ m ∈ s.members, axis.Reached m ∧ m.hierarchy = s.hierarchy) ∧
    ((∀ m m', axis.Reached m → axis.Reached m' → m.uniqueName = m'.uniqueName → m = m') →
      ∀ m, axis.Reached m → ∃ s ∈ axis.selections, s.members.count m = 1 ∧ ∀ s' ∈ axis.selections, m ∈ s'.members → s' = s) := by
  have hgroups := axis.groups_selections
  have hreached : ∀ m, m ∈ axis.members ↔ axis.Reached m := fun m => mem_members_iff_reached ho
  refine ⟨Arena.Walk.endsIn_start_iff ho, ?_, fun root hsome sets => ?_, axis.groups_members_iff, hgroups.nodup_hierarchies,
    fun s hs => ⟨ne_nil_of_mem_selections hs, (hgroups.members s hs).nodup_map, fun m hm => ?_⟩, fun hnames m hm => ?_⟩
  · have hwithin : (Arena.Walk.start axis.root).Within axis.nodes := fun id hid => hroot id (Option.mem_toList.1 hid)
    exact Arena.Walk.steps_eq ho hwithin
  · have hset : axis.tuples? = some (axis.nodes.tuples root) := by rw [tuples?, hsome, Option.map_some]
    rw [ho.traversal_iff (hroot root hsome), memberSets_of_tuples? hset]
  · obtain ⟨hin, hhierarchy⟩ := hgroups.of_mem hs hm
    exact ⟨(hreached m).1 hin, hhierarchy⟩
  · refine hgroups.exists_only (fun m hm m' hm' => ?_) ((hreached m).2 hm)
    exact hnames m m' ((hreached m).1 hm) ((hreached m').1 hm')

/-- A member at the top of a hierarchy. -/
def sampleMember (hierarchy name : String) (ordinal : Nat) : Member :=
  ⟨MemberPath.text ⟨[hierarchy, name]⟩, name, hierarchy, 0, ordinal, none⟩

/-- Genders and products in nodes that are not used in the order in which they were added: a union of a tuple, a join, the tuple once more and a set
of genders. One node is not used at all. -/
def sampleRevisited : Axis where
  nodes := #[
    .members [sampleMember "Gender" "F" 0, sampleMember "Gender" "M" 1],
    .members [sampleMember "Product" "Food" 1, sampleMember "Product" "Drink" 0],
    .members [sampleMember "Gender" "M" 1],
    .join .call 1 0, .join .tuple 2 1, .join .call 0 0, .union [4, 3, 4, 0]]
  root := some 6

/-- The walk over these nodes takes eleven steps, and it meets what is in the tuple twice. The genders are grouped before the products and in the
order in which they are met, which is not that of the nodes, and Food is in the group of the products, once. -/
theorem sample_selections_exactly :
    sampleRevisited.nodes.Ordered ∧ (∀ root, sampleRevisited.root = some root → root < sampleRevisited.nodes.size) ∧
    (Arena.Walk.start (some 6)).steps sampleRevisited.nodes 11 = some ⟨[], sampleRevisited.memberSets⟩ ∧
    sampleRevisited.nodes.Traversal 6 sampleRevisited.memberSets ∧
    sampleRevisited.memberSets.map (·.map (·.name)) =
      [["M"], ["Food", "Drink"], ["Food", "Drink"], ["F", "M"], ["M"], ["Food", "Drink"], ["F", "M"]] ∧
    Groups sampleRevisited.memberSets.flatten
      [⟨"Gender", [sampleMember "Gender" "M" 1, sampleMember "Gender" "F" 0]⟩,
        ⟨"Product", [sampleMember "Product" "Food" 1, sampleMember "Product" "Drink" 0]⟩] ∧
    ∃ s ∈ sampleRevisited.selections, s.members.count (sampleMember "Product" "Food" 1) = 1 ∧
      ∀ s' ∈ sampleRevisited.selections, sampleMember "Product" "Food" 1 ∈ s'.members → s' = s := by
  have ho : sampleRevisited.nodes.Ordered := by decide +kernel
  have hroot : ∀ root, sampleRevisited.root = some root → root < sampleRevisited.nodes.size := by
    rintro _ ⟨⟩
    decide
  obtain ⟨hweight, hmet, hgrouped, hnames, hfood⟩ :
      sampleRevisited.nodes.weight [6] = 11 ∧
      sampleRevisited.memberSets.map (·.map (·.name)) =
        [["M"], ["Food", "Drink"], ["Food", "Drink"], ["F", "M"], ["M"], ["Food", "Drink"], ["F", "M"]] ∧
      sampleRevisited.selections =
        [⟨"Gender", [sampleMember "Gender" "M" 1, sampleMember "Gender" "F" 0]⟩,
          ⟨"Product", [sampleMember "Product" "Food" 1, sampleMember "Product" "Drink" 0]⟩] ∧
      (∀ m ∈ sampleRevisited.members, ∀ m' ∈ sampleRevisited.members, m.uniqueName = m'.uniqueName → m = m') ∧
      sampleMember "Product" "Food" 1 ∈ sampleRevisited.members := by
    decide +kernel
  have hreached : ∀ m, m ∈ sampleRevisited.members ↔ sampleRevisited.Reached m := fun m => mem_members_iff_reached ho
  obtain ⟨-, hsteps, htraversal, hgroups, -, -, hexactly⟩ := selections_exactly ho hroot
  have hapart : ∀ m m', sampleRevisited.Reached m → sampleRevisited.Reached m' → m.uniqueName = m'.uniqueName → m = m' :=
    fun m m' hm hm' => hnames m ((hreached m).2 hm) m' ((hreached m').2 hm')
  refine ⟨ho, hroot, ?_, (htraversal 6 rfl _).2 rfl, hmet, (hgroups _).2 hgrouped.symm, hexactly hapart _ ((hreached _).1 hfood)⟩
  rw [← hweight]
  exact hsteps

end Axis

end CubeAxes
