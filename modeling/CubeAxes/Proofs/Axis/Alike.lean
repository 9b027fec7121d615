import CubeAxes.Proofs.Axis.Edited
import CubeAxes.Proofs.Catalog.Outage

/-!
# Axes that select alike

Two axes select alike when they have the same hierarchies in the same order and, of each, the same members, in whatever order and
however often; their sets may be put together in any way. A mutation comes to the same on both, to one axis node for node or to one
error, whether or not there is an outage (`Outline.Orderly.run_congr`). Where questions are asked of one member after the other, the
order of the members would tell which error comes first; it does not, because no two of these questions fail differently.
-/

namespace CubeAxes

/-- Two axes have the same hierarchies in the same order, the same members of each, and are hierarchized or not alike. -/
structure Axis.SelectsAlike (a b : Axis) : Prop where
  hierarchies : a.hierarchies = b.hierarchies
  membersOf : ∀ hierarchy m, m ∈ a.membersOf hierarchy ↔ m ∈ b.membersOf hierarchy
  hierarchize : a.hierarchize = b.hierarchize

/-! ## Answers that agree -/

/-- Two answers agree: they are one error, or both are there and stand in a relation. -/
inductive Agree {ε α β : Type} (r : α → β → Prop) : Except ε α → Except ε β → Prop
  | ok {a : α} {b : β} : r a b → Agree r (.ok a) (.ok b)
  | error (e : ε) : Agree r (.error e) (.error e)

namespace Agree

variable {ε α β γ δ : Type} {r : α → β → Prop} {s : γ → δ → Prop}

/-- What is done with answers that agree. -/
theorem bind {x : Except ε α} {y : Except ε β} {f : α → Except ε γ} {g : β → Except ε δ} (h : Agree r x y)
    (hfg : ∀ a b, x = .ok a → y = .ok b → r a b → Agree s (f a) (g b)) : Agree s (x >>= f) (y >>= g) := by
  cases h with
  | ok hab => exact hfg _ _ rfl rfl hab
  | error e => exact .error e

/-- An answer agrees with itself. -/
theorem refl {r : α → α → Prop} (h : ∀ a, r a a) (x : Except ε α) : Agree r x x := by
  cases x with
  | ok a => exact .ok (h a)
  | error e => exact .error e

/-- Answers that agree stand in any relation that all those stand in that are there. -/
theorem of_ok {r' : α → β → Prop} {x : Except ε α} {y : Except ε β} (h : Agree r x y)
    (hr : ∀ a b, x = .ok a → y = .ok b → r' a b) : Agree r' x y := by
  cases h with
  | ok _ => exact .ok (hr _ _ rfl rfl)
  | error e => exact .error e

/-- Answers that agree up to equality are the same. -/
theorem eq {x y : Except ε α} (h : Agree (· = ·) x y) : x = y := by
  cases h with
  | ok hab => rw [hab]
  | error e => rfl

/-- The same questions in any order, and any number of times, agree on whether they are answered, if no two fail differently. -/
theorem mapM {f : α → Except ε γ} {l l' : List α} (hmem : ∀ a, a ∈ l ↔ a ∈ l')
    (hone : ∀ a ∈ l, ∀ a' ∈ l, ∀ e e', f a = .error e → f a' = .error e' → e = e') :
    Agree (fun _ _ => True) (l.mapM f) (l'.mapM f) := by
  cases h : l.mapM f with
  | ok bs =>
    cases h' : l'.mapM f with
    | ok bs' => exact .ok trivial
    | error e =>
      obtain ⟨a, ha, hf⟩ := exists_of_mapM_eq_error h'
      obtain ⟨b, -, hb⟩ := exists_of_mapM_eq_ok h a ((hmem a).2 ha)
      nomatch hf.symm.trans hb
  | error e =>
    obtain ⟨a, ha, hf⟩ := exists_of_mapM_eq_error h
    cases h' : l'.mapM f with
    | ok bs' =>
      obtain ⟨b, -, hb⟩ := exists_of_mapM_eq_ok h' a ((hmem a).1 ha)
      nomatch hf.symm.trans hb
    | error e' =>
      obtain ⟨a', ha', hf'⟩ := exists_of_mapM_eq_error h'
      rw [hone a ha a' ((hmem a').2 ha') e e' hf hf']
      exact .error e'

end Agree

namespace Outline

variable {o : Outline}

variable {outage : Option String}

/-! ## Drilling and rolling up -/

/-- The members of a level below another are refused for one reason, whichever member that is. -/
theorem error_membersOf_unique (o : Outline) {l : Level} {a a' : Member} {e e' : AxisError}
    (h : asked ((o.catalog.interrupted fun _ => outage).membersOf l (some a)) = .error e)
    (h' : asked ((o.catalog.interrupted fun _ => outage).membersOf l (some a')) = .error e') : e = e' := by
  cases outage with
  | some reason => exact (Except.error.inj h).symm.trans (Except.error.inj h')
  | none =>
    simp only [Catalog.interrupted, catalog, membersOf] at h h'
    cases hh : o.hierarchy l.hierarchy with
    | error e₀ =>
      rw [hh] at h h'
      exact (Except.error.inj h).symm.trans (Except.error.inj h')
    | ok t =>
      simp only [hh, ok_bind] at h h'
      cases ht : t.levels[l.depth]? with
      | none =>
        rw [ht] at h h'
        exact (Except.error.inj h).symm.trans (Except.error.inj h')
      | some table =>
        rw [ht] at h
        cases h

/-- The ancestor of a member that is held is refused for one reason, whichever member it is. -/
theorem Consistent.error_ancestorAt_unique (hc : Consistent o) {m m' : Member} (hm : o.Holds m) (hm' : o.Holds m') {d : Nat}
    {e e' : AxisError} (h : (o.catalog.interrupted fun _ => outage).ancestorAt m d = .error e)
    (h' : (o.catalog.interrupted fun _ => outage).ancestorAt m' d = .error e') : e = e' := by
  have hi := (o.catalog.failStop_ancestorAt (fun _ => outage) m d).interruption h (hc.ancestorAt_eq hm d)
  have hi' := (o.catalog.failStop_ancestorAt (fun _ => outage) m' d).interruption h' (hc.ancestorAt_eq hm' d)
  cases outage with
  | some reason => rw [hi.eq_of_outage, hi'.eq_of_outage]
  | none =>
    obtain ⟨_, reason, hreason, -⟩ := hi
    nomatch hreason

/-- Rolling the same members up agrees. -/
theorem Consistent.agree_ancestors (hc : Consistent o) {ms ns : List Member} (hms : ∀ m ∈ ms, o.Holds m)
    (hmem : ∀ m, m ∈ ms ↔ m ∈ ns) (d : Nat) :
    Agree (fun _ _ => True) ((o.catalog.interrupted fun _ => outage).ancestors d ms)
      ((o.catalog.interrupted fun _ => outage).ancestors d ns) := by
  have hmapM := Agree.mapM (f := fun m => (o.catalog.interrupted fun _ => outage).ancestorAt m d) hmem fun m hm m' hm' _ _ =>
    hc.error_ancestorAt_unique (hms m hm) (hms m' hm')
  exact hmapM.bind fun _ _ _ _ _ => .ok trivial

/-- Drilling from the same members agrees. -/
theorem Consistent.agree_expand (hc : Consistent o) {l : Level} {ms ns : List Member} (hms : o.HoldsAll l.hierarchy ms)
    (hmem : ∀ m, m ∈ ms ↔ m ∈ ns) :
    Agree (fun xs ys => o.HoldsAll l.hierarchy xs ∧ ∀ m, m ∈ xs ↔ m ∈ ys) ((o.catalog.interrupted fun _ => outage).expand ms l)
      ((o.catalog.interrupted fun _ => outage).expand ns l) := by
  have hagree : Agree (fun _ _ => True) ((o.catalog.interrupted fun _ => outage).expand ms l)
      ((o.catalog.interrupted fun _ => outage).expand ns l) := by
    rw [Catalog.expand, Catalog.expand, anchorDepth?_congr hmem]
    cases anchorDepth? ns l with
    | some d =>
      have hanchors : ∀ m, m ∈ ms.filter (fun m => decide (m.depth = d)) ↔ m ∈ ns.filter fun m => decide (m.depth = d) := by
        intro m
        rw [List.mem_filter, List.mem_filter, hmem]
      have hmapM := Agree.mapM (f := fun a => asked ((o.catalog.interrupted fun _ => outage).membersOf l (some a))) hanchors
        fun a _ a' _ _ _ => o.error_membersOf_unique
      have hdescendants := hmapM.bind (s := fun _ _ => True) fun xss yss _ _ _ => .ok (a := xss.flatten) (b := yss.flatten) trivial
      exact hdescendants.bind fun _ _ _ _ _ => .ok trivial
    | none => exact (hc.agree_ancestors (fun m hm => (hms m hm).1) hmem l.depth).bind fun _ _ _ _ _ => .ok trivial
  refine hagree.of_ok fun xs ys hx hy => ?_
  have hx' := (o.catalog.failStop_expand _ ms l).eq_ok hx
  have hy' := (o.catalog.failStop_expand _ ns l).eq_ok hy
  exact ⟨fun m hm => ⟨(hc.spec_of_expand hms hx' m hm).1, (hc.spec_of_expand hms hx' m hm).2.1⟩,
    hc.mem_expand_congr hms hmem hx' hy'⟩

/-- Rolling up the same members that were removed at a depth agrees. -/
theorem Consistent.agree_rolledUp (hc : Consistent o) (outage : Option String) {hierarchy : String} {depths : List Nat}
    (hasc : depths.Pairwise (· < ·)) {depth : Nat} {ms ns : List Member} (hms : o.HoldsAll hierarchy ms) (hd : ∀ m ∈ ms, m.depth = depth)
    (hmem : ∀ m, m ∈ ms ↔ m ∈ ns) :
    Agree (fun xs ys => o.HoldsAll hierarchy xs ∧ ∀ m, m ∈ xs ↔ m ∈ ys)
      (Edit.rolledUp (o.catalog.interrupted fun _ => outage) depths depth ms)
      (Edit.rolledUp (o.catalog.interrupted fun _ => outage) depths depth ns) := by
  have hagree : Agree (fun _ _ => True) (Edit.rolledUp (o.catalog.interrupted fun _ => outage) depths depth ms)
      (Edit.rolledUp (o.catalog.interrupted fun _ => outage) depths depth ns) := by
    unfold Edit.rolledUp
    split
    · split
      · exact hc.agree_ancestors (fun m hm => (hms m hm).1) hmem _
      · exact .ok trivial
    · exact .ok trivial
  refine hagree.of_ok fun xs ys hx hy => ?_
  have hx' := (Edit.failStop_rolledUp _ o.catalog depths depth ms).eq_ok hx
  have hy' := (Edit.failStop_rolledUp _ o.catalog depths depth ns).eq_ok hy
  obtain ⟨xs', hxs, hxmem⟩ := hc.exists_rolledUp hasc fun m hm => ⟨(hms m hm).1, hd m hm⟩
  obtain ⟨ys', hys, hymem⟩ := hc.exists_rolledUp hasc fun m hm => ⟨(hms m ((hmem m).2 hm)).1, hd m ((hmem m).2 hm)⟩
  obtain rfl := Except.ok.inj (hxs.symm.trans hx')
  obtain rfl := Except.ok.inj (hys.symm.trans hy')
  refine ⟨hc.holdsAll_rolledUp hasc hms hd hx', fun m => ?_⟩
  rw [hxmem, hymem]
  simp only [RolledUp, hmem]

end Outline

/-! ## What axes that select alike have in common -/

namespace Axis.SelectsAlike

variable {a b : Axis}

/-- What is picked from the selections, if it is the same for each hierarchy. -/
theorem filterMap_selections (h : a.SelectsAlike b) {β : Type} {f g : Selection → Option β}
    (hfg : ∀ n, f ⟨n, a.membersOf n⟩ = g ⟨n, b.membersOf n⟩) : a.selections.filterMap f = b.selections.filterMap g := by
  rw [selections, selections, List.filterMap_map, List.filterMap_map, h.hierarchies]
  exact List.filterMap_congr fun n _ => hfg n

/-- What is made of the selections, if it is the same for each hierarchy. -/
theorem map_selections (h : a.SelectsAlike b) {β : Type} {f g : Selection → β}
    (hfg : ∀ n, f ⟨n, a.membersOf n⟩ = g ⟨n, b.membersOf n⟩) : a.selections.map f = b.selections.map g := by
  rw [← List.filterMap_eq_map, ← List.filterMap_eq_map]
  exact h.filterMap_selections fun n => congrArg some (hfg n)

/-- The depths of a hierarchy. -/
theorem depths (h : a.SelectsAlike b) (hierarchy : String) : a.depths hierarchy = b.depths hierarchy := by
  have hmem : ∀ d, d ∈ a.depths hierarchy ↔ d ∈ b.depths hierarchy := by
    intro d
    rw [mem_depths, mem_depths]
    simp only [h.membersOf hierarchy]
  have ha := pairwise_depths a hierarchy
  have hb := pairwise_depths b hierarchy
  have hperm := (List.perm_ext_iff_of_nodup (ha.imp Nat.ne_of_lt) (hb.imp Nat.ne_of_lt)).2 hmem
  exact hperm.eq_of_pairwise (fun _ _ _ _ hlt hgt => absurd hlt (Nat.lt_asymm hgt)) ha hb

/-- The visible levels of a hierarchy. -/
theorem visibleLevelsOf (h : a.SelectsAlike b) (cat : Catalog) (hierarchy : String) :
    a.visibleLevelsOf cat hierarchy = b.visibleLevelsOf cat hierarchy := by
  rw [Axis.visibleLevelsOf, Axis.visibleLevelsOf, h.depths]

end Axis.SelectsAlike

/-! ## Edits -/

namespace Outline

variable {o : Outline} {outage : Option String} {a b : Axis}

/-- Two edits leave the same selections, once these are put in order. -/
def SameInOrder (o : Outline) (e e' : Edit) : Prop := e.selections.map o.ordered = e'.selections.map o.ordered

theorem SameInOrder.refl (e : Edit) : o.SameInOrder e e := rfl

/-- The same members of a hierarchy make the same selection, once they are put in order. -/
theorem Consistent.ordered_congr (hc : Consistent o) {hierarchy : String} {ms ns : List Member} (hms : o.HoldsAll hierarchy ms)
    (hmem : ∀ m, m ∈ ms ↔ m ∈ ns) : o.ordered ⟨hierarchy, ms⟩ = o.ordered ⟨hierarchy, ns⟩ :=
  congrArg (Selection.mk hierarchy) (hc.arranged_congr hms hmem)

/-- Adding a level to axes that select alike. -/
theorem Consistent.agree_adding (hc : Consistent o) (ha : ∀ m ∈ a.members, o.Holds m) (h : a.SelectsAlike b) (l : Level)
    (position : Int) :
    Agree o.SameInOrder
      (Edit.adding (o.catalog.interrupted fun _ => outage) a l position)
      (Edit.adding (o.catalog.interrupted fun _ => outage) b l position) := by
  have hlength : a.selections.length = b.selections.length := by
    simp only [Axis.selections, List.length_map, h.hierarchies]
  have hsame : ∀ n, o.ordered ⟨n, a.membersOf n⟩ = o.ordered ⟨n, b.membersOf n⟩ := fun n =>
    hc.ordered_congr (holdsAll_membersOf ha n) (h.membersOf n)
  unfold Edit.adding
  dsimp only
  rw [hlength, h.hierarchies]
  split
  · exact .error _
  · split
    · refine (hc.agree_expand (holdsAll_membersOf ha l.hierarchy) (h.membersOf l.hierarchy)).bind ?_
      rintro xs ys - - ⟨hxs, hmem⟩
      refine .ok ?_
      rw [SameInOrder, List.map_map, List.map_map]
      refine h.map_selections fun n => ?_
      simp only [Function.comp_apply]
      split
      · next hn =>
        subst hn
        refine hc.ordered_congr (fun m hm => ?_) fun m => ?_
        · rcases List.mem_append.1 hm with hm | hm
          · exact holdsAll_membersOf ha l.hierarchy m hm
          · exact hxs m hm
        · rw [List.mem_append, List.mem_append, h.membersOf, hmem]
      · exact hsame n
    · refine (Agree.refl (r := (· = ·)) (fun _ => rfl) _).bind ?_
      rintro ms _ - - rfl
      refine .ok ?_
      rw [SameInOrder, List.map_insertIdx, List.map_insertIdx, h.map_selections hsame]

/-- What is left of the selections, where the same members are left of a hierarchy. -/
theorem Consistent.map_ordered_without_congr (hc : Consistent o) (ha : ∀ m ∈ a.members, o.Holds m) (h : a.SelectsAlike b)
    {hierarchy : String} {left left' : List Member} (hleft : o.HoldsAll hierarchy left) (hmem : ∀ m, m ∈ left ↔ m ∈ left') :
    (without hierarchy left a.selections).map o.ordered = (without hierarchy left' b.selections).map o.ordered := by
  have hnil : left = [] ↔ left' = [] := by simp only [List.eq_nil_iff_forall_not_mem, hmem]
  unfold without
  rw [List.map_filterMap, List.map_filterMap]
  refine h.filterMap_selections fun n => ?_
  by_cases hn : n = hierarchy
  · subst hn
    by_cases hl : left = []
    · rw [if_pos rfl, if_pos rfl, if_pos hl, if_pos (hnil.1 hl)]
    · have hdistinct : ∀ m, m ∈ distinctMembers left ↔ m ∈ distinctMembers left' := by
        intro m
        rw [mem_distinctMembers fun m hm => (hleft m hm).1, mem_distinctMembers fun m hm => (hleft m ((hmem m).2 hm)).1, hmem]
      rw [if_pos rfl, if_pos rfl, if_neg hl, if_neg (mt hnil.2 hl), Option.map_some, Option.map_some]
      exact congrArg some (hc.ordered_congr (fun m hm => hleft m (mem_of_mem_distinctOn hm)) hdistinct)
  · rw [if_neg hn, if_neg hn, Option.map_some, Option.map_some]
    exact congrArg some (hc.ordered_congr (holdsAll_membersOf ha n) (h.membersOf n))

/-- Removing a level from axes that select alike. -/
theorem Consistent.agree_removing (hc : Consistent o) (ha : ∀ m ∈ a.members, o.Holds m) (h : a.SelectsAlike b) (l : Level) :
    Agree o.SameInOrder
      (Edit.removing (o.catalog.interrupted fun _ => outage) a l)
      (Edit.removing (o.catalog.interrupted fun _ => outage) b l) := by
  have hheld := holdsAll_membersOf ha l.hierarchy
  have hmem := h.membersOf l.hierarchy
  unfold Edit.removing
  rw [h.visibleLevelsOf]
  refine (Agree.refl (r := (· = ·)) (fun _ => rfl) _).bind ?_
  rintro visible _ - - rfl
  split
  · simp only [List.partition_eq_filter_filter, h.depths]
    have hsame : ∀ m, m ∈ (a.membersOf l.hierarchy).filter (fun m => decide (m.depth = l.depth)) ↔
        m ∈ (b.membersOf l.hierarchy).filter fun m => decide (m.depth = l.depth) := by
      intro m
      rw [List.mem_filter, List.mem_filter, hmem]
    have hremoved := hc.agree_rolledUp outage (Axis.pairwise_depths b l.hierarchy)
      (fun m hm => hheld m (List.mem_filter.1 hm).1) (fun m hm => of_decide_eq_true (List.mem_filter.1 hm).2) hsame
    refine hremoved.bind ?_
    rintro xs ys - - ⟨hxs, hups⟩
    refine .ok (hc.map_ordered_without_congr ha h (fun m hm => ?_) fun m => ?_)
    · rcases List.mem_append.1 hm with hm | hm
      · exact hheld m (List.mem_filter.1 hm).1
      · exact hxs m hm
    · rw [List.mem_append, List.mem_append, List.mem_filter, List.mem_filter, hmem, hups]
  · exact .error _

/-- Edits of axes that select alike agree, and leave the same selections once these are put in order. -/
theorem Consistent.agree_edit (hc : Consistent o) (ha : ∀ m ∈ a.members, o.Holds m) (h : a.SelectsAlike b) (m : Mutation) :
    Agree o.SameInOrder
      (m.edit (o.catalog.interrupted fun _ => outage) a) (m.edit (o.catalog.interrupted fun _ => outage) b) := by
  cases m with
  | add l position => exact hc.agree_adding ha h l position
  | remove l => exact hc.agree_removing ha h l
  | place levels =>
    exact Agree.refl SameInOrder.refl (Edit.placing _ levels)

/-! ## Building anew -/

/-- What holds of all the members of selections can be told from the selections put in order. -/
theorem forall_mem_map_ordered {ss : List Selection} (hss : ∀ s ∈ ss, o.Sorts s) (P : Member → Prop) :
    (∀ s ∈ ss.map o.ordered, ∀ m ∈ s.members, P m) ↔ ∀ s ∈ ss, ∀ m ∈ s.members, P m := by
  rw [List.forall_mem_map]
  refine forall₂_congr fun s hs => ?_
  simp only [members_ordered, mem_arranged fun m hm => (hss s hs m hm).1]

/-- Selections that are the same once they are put in order are built into the same axis, or not built for the same reason. -/
theorem Consistent.rebuilt_congr (hc : Consistent o) {ss ss' : List Selection} (hss : ∀ s ∈ ss, o.Sorts s)
    (hss' : ∀ s ∈ ss', o.Sorts s) (h : ss.map o.ordered = ss'.map o.ordered) {keys : SortKeys} (hk : o.Remembers keys)
    (hierarchize : Bool) :
    (rebuilt (o.catalog.interrupted fun _ => outage) keys hierarchize ss).1 =
      (rebuilt (o.catalog.interrupted fun _ => outage) keys hierarchize ss').1 := by
  have hmembers : ss.map (fun s => o.arranged s.members) = ss'.map fun s => o.arranged s.members := by
    have hsets := congrArg (List.map fun s : Selection => s.members) h
    rwa [List.map_map, List.map_map] at hsets
  cases outage with
  | none =>
    obtain ⟨_, hr, -⟩ := hc.rebuilt_eq hss hk hierarchize
    obtain ⟨_, hr', -⟩ := hc.rebuilt_eq hss' hk hierarchize
    exact (congrArg Prod.fst hr).trans ((congrArg (Axis.ofSets · hierarchize) hmembers).trans (congrArg Prod.fst hr').symm)
  | some reason =>
    have hhand : (∀ s ∈ ss, ∀ m ∈ s.members, AtHand keys m) ↔ ∀ s ∈ ss', ∀ m ∈ s.members, AtHand keys m := by
      rw [← forall_mem_map_ordered hss, h, forall_mem_map_ordered hss']
    rcases hc.rebuilt_of_outage reason hss hk hierarchize with ⟨hall, heq⟩ | ⟨⟨s, hs, m, hm, hnot⟩, heq⟩ <;>
      rcases hc.rebuilt_of_outage reason hss' hk hierarchize with ⟨hall', heq'⟩ | ⟨⟨s', hs', m', hm', hnot'⟩, heq'⟩
    · exact heq.trans (hmembers ▸ heq'.symm)
    · exact absurd (hhand.1 hall s' hs' m' hm') hnot'
    · exact absurd (hhand.2 hall' s hs m hm) hnot
    · exact heq.trans heq'.symm

end Outline

/-- What comes of a mutation is built anew from what it makes of the selections. -/
theorem Mutation.result_run (m : Mutation) (cat : Catalog) (mode : HierarchizeMode) (keys : SortKeys) (axis : Axis) :
    (m.run cat mode keys axis).result =
      (m.edit cat axis).bind fun edit => (rebuilt cat keys (mode.apply axis.hierarchize) edit.selections).1 := by
  unfold run
  cases m.edit cat axis <;> rfl

namespace Outline

variable {o : Outline}

/-- A mutation comes to the same on axes of held members that select alike: to one axis, node for node, or to one error. Whether
there is an outage, and which keys are remembered, does not matter. -/
theorem Orderly.run_congr (ho : Orderly o) (outage : Option String) {a b : Axis} (ha : ∀ m ∈ a.members, o.Holds m)
    (hb : ∀ m ∈ b.members, o.Holds m) (h : a.SelectsAlike b) (m : Mutation) (mode : HierarchizeMode) {keys : SortKeys}
    (hk : o.Remembers keys) :
    (m.run (o.catalog.interrupted fun _ => outage) mode keys a).result =
      (m.run (o.catalog.interrupted fun _ => outage) mode keys b).result := by
  rw [Mutation.result_run, Mutation.result_run, h.hierarchize]
  refine (((ho.consistent.agree_edit ha h m).bind ?_) : Agree (· = ·) _ _).eq
  intro e e' he he' hsame
  have hss := ho.consistent.sorts_edit ha ((m.failStop_edit _ o.catalog a).eq_ok he)
  have hss' := ho.consistent.sorts_edit hb ((m.failStop_edit _ o.catalog b).eq_ok he')
  rw [ho.consistent.rebuilt_congr hss hss' hsame hk]
  exact Agree.refl (fun _ => rfl) _

/-- Axes of held members with the same hierarchies and the same members, however often, select alike. -/
theorem selectsAlike_of_members {a b : Axis} (ha : ∀ m ∈ a.members, o.Holds m) (hh : a.hierarchies = b.hierarchies)
    (hab : a.members ⊆ b.members) (hba : b.members ⊆ a.members) (hz : a.hierarchize = b.hierarchize) : a.SelectsAlike b := by
  refine ⟨hh, fun hierarchy m => ?_, hz⟩
  rw [mem_membersOf ha, mem_membersOf fun m hm => ha m (hba hm)]
  exact and_congr_left fun _ => ⟨fun hm => hab hm, fun hm => hba hm⟩

/-- Families of the small cube joined with its genders. -/
def sampleJoined : Axis :=
  { nodes := #[
      .members [⟨"[Product].[All].[Food [new]]]", "Food [new]", "Product", 1, 1, some "[Product].[All]"⟩,
        ⟨"[Product].[All].[Drink]", "Drink", "Product", 1, 0, some "[Product].[All]"⟩],
      .members [⟨"[Gender].[All].[F]", "F", "Gender", 1, 0, some "[Gender].[All]"⟩,
        ⟨"[Gender].[All].[M]", "M", "Gender", 1, 1, some "[Gender].[All]"⟩],
      .join .call 0 1]
    root := some 2 }

/-- The same families and genders in a union of tuples and joins, one set of which is used twice. -/
def sampleUnited : Axis :=
  { nodes := #[
      .members [⟨"[Product].[All].[Drink]", "Drink", "Product", 1, 0, some "[Product].[All]"⟩],
      .members [⟨"[Product].[All].[Food [new]]]", "Food [new]", "Product", 1, 1, some "[Product].[All]"⟩],
      .members [⟨"[Gender].[All].[M]", "M", "Gender", 1, 1, some "[Gender].[All]"⟩,
        ⟨"[Gender].[All].[F]", "F", "Gender", 1, 0, some "[Gender].[All]"⟩],
      .members [⟨"[Gender].[All].[F]", "F", "Gender", 1, 0, some "[Gender].[All]"⟩],
      .join .tuple 0 3, .join .call 1 2, .union [4, 5, 4]]
    root := some 6 }

/-- The departments of the small cube, to be added. -/
def sampleDrill : Mutation := .add ⟨"Product", "Department", 2⟩ 0

/-- On the small cube both come to one axis when the departments are added, and both fail alike when there is an outage. -/
theorem sample_run_congr :
    ∃ added e, (sampleDrill.run sample.catalog .preserve [] sampleUnited).result = .ok added ∧
      (sampleDrill.run sample.catalog .preserve [] sampleJoined).result = .ok added ∧
      (sampleDrill.run (sample.catalog.outage "down") .preserve [] sampleUnited).result = .error e ∧
      (sampleDrill.run (sample.catalog.outage "down") .preserve [] sampleJoined).result = .error e := by
  have hheld : ∀ m ∈ sampleUnited.members, sample.member? m.uniqueName = some m := by decide +kernel
  have hsub : ∀ m ∈ sampleUnited.members, m ∈ sampleJoined.members := by decide +kernel
  have hsub' : ∀ m ∈ sampleJoined.members, m ∈ sampleUnited.members := by decide +kernel
  have hh : sampleUnited.hierarchies = sampleJoined.hierarchies := by decide +kernel
  have halike : sampleUnited.SelectsAlike sampleJoined :=
    selectsAlike_of_members hheld hh (fun m hm => hsub m hm) (fun m hm => hsub' m hm) rfl
  have hrun := fun outage => orderly_sample.run_congr outage hheld (fun m hm => hheld m (hsub' m hm)) halike sampleDrill .preserve
    (remembers_nil sample)
  have hadded : (sampleDrill.run sample.catalog .preserve [] sampleUnited).result.isOk = true := by decide +kernel
  have hfails : (sampleDrill.run (sample.catalog.outage "down") .preserve [] sampleUnited).result.isOk = false := by decide +kernel
  cases hok : (sampleDrill.run sample.catalog .preserve [] sampleUnited).result with
  | error e =>
    rw [hok] at hadded
    nomatch hadded
  | ok added =>
    cases herror : (sampleDrill.run (sample.catalog.outage "down") .preserve [] sampleUnited).result with
    | ok axis =>
      rw [herror] at hfails
      nomatch hfails
    | error e => exact ⟨added, e, rfl, (hrun none).symm.trans hok, rfl, (hrun (some "down")).symm.trans herror⟩

end Outline

end CubeAxes
