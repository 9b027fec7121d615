import CubeAxes.Proofs.Axis.Membership
import CubeAxes.Proofs.Query.Steady
import CubeAxes.Proofs.TupleSet.Tuples

/-!
# Adding a level keeps the tuples of an axis

What a mutation makes of an axis is a product, so its tuples are all the ways to pick one of its members for each of its hierarchies
(`Outline.Consistent.denotes_run_iff`). Adding a level keeps all members and brings in more of one hierarchy, so that every tuple of
the axis is part of one afterwards; an axis that was a product before has exactly its tuples with any of the members of that
hierarchy in their place (`Outline.Orderly.denotes_add`).
-/

namespace CubeAxes

/-! ## Products -/

namespace TupleSet

/-- Sets of members of different hierarchies, joined one after the other, are a product. -/
theorem product_chain {α : Type} {form : JoinForm} {hierarchy : α → String} {members : α → List Member} {l : List α} {t : TupleSet}
    (h : chain form (l.map fun a => .members (members a)) = some t) (own : ∀ a ∈ l, ∀ m ∈ members a, m.hierarchy = hierarchy a)
    (hh : (l.map hierarchy).Nodup) : t.Product := by
  induction l generalizing t with
  | nil => nomatch h
  | cons a l ih =>
    obtain ⟨hown, hrest⟩ := List.forall_mem_cons.1 own
    rw [List.map_cons, List.nodup_cons] at hh
    cases l with
    | nil =>
      obtain rfl := Option.some.inj h
      exact .members hown
    | cons b l =>
      obtain ⟨t', ht', rfl⟩ := Option.map_eq_some_iff.1 h
      refine .join (.members hown) (ih ht' hrest hh.2) fun m hm n hn he => hh.1 ?_
      rw [memberSets_chain ht', List.flatMap_map] at hn
      obtain ⟨ms, hms, hn⟩ := List.mem_flatten.1 hn
      obtain ⟨c, hc, hms⟩ := List.mem_flatMap.1 hms
      obtain rfl := List.mem_singleton.1 hms
      rw [memberSets, List.flatten_singleton] at hm
      rw [← hown m hm, he, hrest c hc n hn]
      exact List.mem_map_of_mem hc

end TupleSet

namespace Outline

variable {o : Outline}

/-- A sound set without unions, with no hierarchy on both sides of a join, is a product. -/
theorem Sound.product {t : TupleSet} (h : o.Sound t) (hfree : t.UnionFree) (hapart : t.Separated) : t.Product := by
  induction h with
  | members hms _ => exact .members fun m hm => (hms m hm).2
  | join _ _ _ _ ihl ihr =>
    cases hfree with
    | join hfl hfr =>
      cases hapart with
      | join hal har ha => exact .join (ihl hfl hal) (ihr hfr har) ha
  | tuple _ hh ht => exact TupleSet.product_chain ht (fun m _ n hn => congrArg Member.hierarchy (List.mem_singleton.1 hn)) hh
  | union _ _ => nomatch hfree

end Outline

/-- The tuples of an axis are those of its set. -/
def Axis.Denotes (axis : Axis) (s : Tuple) : Prop := ∃ t, axis.tuples? = some t ∧ t.Denotes s

namespace Outline

variable {o : Outline}

/-! ## After a mutation -/

/-- The tuples of the axis that comes of a mutation are the ways to pick one of its members for each of its hierarchies, unless some
selection was not filled. -/
theorem Consistent.denotes_run_iff (hc : Consistent o) {axis axis' : Axis} (hax : ∀ m ∈ axis.members, o.Holds m) {m : Mutation}
    {mode : HierarchizeMode} {keys : SortKeys} (hk : o.Remembers keys) (h : (m.run o.catalog mode keys axis).result = .ok axis')
    (s : Tuple) : axis'.Denotes s ↔ o.Fills axis m ∧ s.Picks axis'.members := by
  obtain ⟨edit, he, hss, hh, -, hsets⟩ := hc.spec_of_run hax hk h
  obtain ⟨t, ht, hchain⟩ := exists_chain_of_ofSets hsets
  have hproduct : t.Product :=
    TupleSet.product_chain hchain (fun s hs m hm => (HoldsAll.arranged (hss s hs) m hm).2) hh
  rw [← hc.selectsNothing_edit_iff he hss, ← TupleSet.selectsNothing_chain_iff hchain, Axis.members, Axis.memberSets_of_tuples? ht,
    ← hproduct.denotes_iff, Axis.Denotes, ht]
  simp

/-! ## Tuples after adding -/

/-- The tuples of an axis to which a level was added are the ways to pick from its members, if there is one of the hierarchy of the
level. -/
theorem Consistent.denotes_add_iff (hc : Consistent o) {axis axis' : Axis} (hax : ∀ m ∈ axis.members, o.Holds m) {l : Level}
    {position : Int} {mode : HierarchizeMode} {keys : SortKeys} (hk : o.Remembers keys)
    (h : ((Mutation.add l position).run o.catalog mode keys axis).result = .ok axis') (s : Tuple) :
    axis'.Denotes s ↔ (∃ m ∈ axis'.members, m.hierarchy = l.hierarchy) ∧ s.Picks axis'.members := by
  obtain ⟨brought, hmem, hh, hcases⟩ := hc.mem_members_of_add hax hk h
  rw [hc.denotes_run_iff hax hk h]
  refine and_congr_left fun _ => ?_
  rcases hcases with ⟨hin, -⟩ | ⟨hin, hms⟩
  · obtain ⟨m, hm, hmh⟩ := Axis.mem_hierarchies.1 hin
    exact iff_of_true (Or.inl hin) ⟨m, (hmem m).2 (Or.inl hm), hmh⟩
  · obtain rfl := eq_rows_of_membersOf (congrArg asked hms)
    rw [Fills, hc.hasMembers_iff]
    constructor
    · intro hsome
      obtain ⟨m, hm⟩ := List.exists_mem_of_ne_nil _ (hsome.resolve_left hin)
      exact ⟨m, (hmem m).2 (Or.inr hm), hh m hm⟩
    · rintro ⟨m, hm, hmh⟩
      rcases (hmem m).1 hm with hm | hm
      · exact absurd (Axis.mem_hierarchies.2 ⟨m, hm, hmh⟩) hin
      · exact Or.inr (List.ne_nil_of_mem hm)

/-- A tuple among the members on the axis afterwards is part of one of its tuples. -/
theorem Consistent.exists_extends_of_add (hc : Consistent o) {axis axis' : Axis} (hax : ∀ m ∈ axis.members, o.Holds m) {l : Level}
    {position : Int} {mode : HierarchizeMode} {keys : SortKeys} (hk : o.Remembers keys)
    (h : ((Mutation.add l position).run o.catalog mode keys axis).result = .ok axis')
    (hsome : ∃ m ∈ axis'.members, m.hierarchy = l.hierarchy) {s : Tuple} (hs : s.Among axis'.members) :
    ∃ s', axis'.Denotes s' ∧ s'.Extends s := by
  obtain ⟨s', hpicks, hs'⟩ := hs.exists_picks
  exact ⟨s', (hc.denotes_add_iff hax hk h s').2 ⟨hsome, hpicks⟩, hs'⟩

/-- Where there was a product of some members, the tuples afterwards are those before with any member of the hierarchy there is. -/
theorem Consistent.denotes_add_of_product (hc : Consistent o) {axis axis' : Axis} {t : TupleSet} (ht : axis.tuples? = some t)
    (hsound : o.Sound t) {l : Level} {position : Int} {mode : HierarchizeMode} {keys : SortKeys} (hk : o.Remembers keys)
    (h : ((Mutation.add l position).run o.catalog mode keys axis).result = .ok axis') (hfree : t.UnionFree) (hapart : t.Separated)
    (hne : axis.members ≠ []) (s' : Tuple) :
    axis'.Denotes s' ↔
      ∃ s m, t.Denotes s ∧ m ∈ axis'.members ∧ m.hierarchy = l.hierarchy ∧ s' = Function.update s l.hierarchy (some m) := by
  have hax : ∀ m ∈ axis.members, o.Holds m := Carries.holds ⟨t, ht, hsound⟩
  obtain ⟨brought, hmem, hh, -⟩ := hc.mem_members_of_add hax hk h
  have hsub : axis.members ⊆ axis'.members := fun m hm => (hmem m).2 (Or.inl hm)
  have hmembers : axis.members = t.memberSets.flatten := by rw [Axis.members, Axis.memberSets_of_tuples? ht]
  have hselect := hsound.selectsNothing_iff.2 (hmembers ▸ hne)
  rw [hc.denotes_add_iff hax hk h, Tuple.picks_iff_update hsub]
  · simp only [(hsound.product hfree hapart).denotes_iff, hselect, true_and, hmembers]
  · intro m hm hother
    exact ((hmem m).1 hm).resolve_right fun hm => hother (hh m hm)

/-- Adding a level loses no tuple of an axis, in two cases. Over a catalog without an outage, of an axis on which a set was put that
resolves:
1. If the hierarchy of the level is on the axis, every tuple is part of one afterwards. If there are no unions, and no hierarchy is on
   both sides of a join, the tuples afterwards are those before, each with any member of the hierarchy in its place, be it one that was
   on the axis or one to which these were drilled.
2. If it is not, every tuple together with any member of the level is part of one afterwards. If there are no unions, no hierarchy is
   on both sides of a join, and there is a member on the axis, the tuples afterwards are those before, each together with any member
   of the level. -/
theorem Orderly.denotes_add (ho : Orderly o) {set : SetExpr} {axis axis' : Axis} {t : TupleSet}
    (hset : o.catalog.resolveAxis set = .ok axis) (ht : axis.tuples? = some t) {l : Level} {position : Int}
    {mode : HierarchizeMode} {keys : SortKeys} (hk : o.Remembers keys)
    (h : ((Mutation.add l position).run o.catalog mode keys axis).result = .ok axis') :
    (l.hierarchy ∈ axis.hierarchies →
      (∀ s, t.Denotes s → ∃ s', axis'.Denotes s' ∧ s'.Extends s) ∧
      ∃ drilled, o.catalog.expand (axis.membersOf l.hierarchy) l = .ok drilled ∧
        (t.UnionFree → t.Separated → ∀ s', axis'.Denotes s' ↔
          ∃ s m, t.Denotes s ∧ (m ∈ axis.membersOf l.hierarchy ∨ m ∈ drilled) ∧ s' = Function.update s l.hierarchy (some m))) ∧
    (l.hierarchy ∉ axis.hierarchies →
      ∃ ms, o.catalog.membersOf l none = .ok ms ∧
        (∀ s m, t.Denotes s → m ∈ ms → ∃ s', axis'.Denotes s' ∧ s'.Extends (Function.update s l.hierarchy (some m))) ∧
        (t.UnionFree → t.Separated → axis.members ≠ [] → ∀ s', axis'.Denotes s' ↔
          ∃ s m, t.Denotes s ∧ m ∈ ms ∧ s' = Function.update s l.hierarchy (some m))) := by
  have hc := ho.consistent
  have hsound : o.Sound t := by
    obtain ⟨_, ht', hsound⟩ := hc.carries_of_resolveAxis hset
    rwa [Option.some.inj (ht.symm.trans ht')]
  have hax : ∀ m ∈ axis.members, o.Holds m := Carries.holds ⟨t, ht, hsound⟩
  obtain ⟨brought, hmem, hh, hcases⟩ := hc.mem_members_of_add hax hk h
  have hbefore : ∀ {s : Tuple}, t.Denotes s → s.Among axis'.members := by
    intro s hs hierarchy m hm
    obtain ⟨hin, hmh⟩ := hs.among hierarchy m hm
    rw [← Axis.memberSets_of_tuples? ht] at hin
    exact ⟨(hmem m).2 (Or.inl hin), hmh⟩
  constructor
  · intro hin
    obtain ⟨-, hd⟩ := hcases.resolve_right fun hnot => hnot.1 hin
    obtain ⟨n, hn, hnh⟩ := Axis.mem_hierarchies.1 hin
    refine ⟨fun s hs => ?_, brought, hd, fun hfree hapart s' => ?_⟩
    · exact hc.exists_extends_of_add hax hk h ⟨n, (hmem n).2 (Or.inl hn), hnh⟩ (hbefore hs)
    · rw [hc.denotes_add_of_product ht hsound hk h hfree hapart (List.ne_nil_of_mem hn)]
      have hall : ∀ m, (m ∈ axis'.members ∧ m.hierarchy = l.hierarchy) ↔ m ∈ axis.membersOf l.hierarchy ∨ m ∈ brought := by
        intro m
        rw [hmem, mem_membersOf hax, or_and_right, and_iff_left_of_imp (hh m)]
      simp only [← hall, and_assoc]
  · intro hin
    obtain ⟨-, hms⟩ := hcases.resolve_left fun hnot => hin hnot.1
    refine ⟨brought, hms, fun s m hs hm => ?_, fun hfree hapart hne s' => ?_⟩
    · have hm' := (hmem m).2 (Or.inr hm)
      rw [← hh m hm]
      exact hc.exists_extends_of_add hax hk h ⟨m, hm', hh m hm⟩ ((hbefore hs).update hm')
    · rw [hc.denotes_add_of_product ht hsound hk h hfree hapart hne]
      have hall : ∀ m, (m ∈ axis'.members ∧ m.hierarchy = l.hierarchy) ↔ m ∈ brought := by
        intro m
        rw [hmem, or_and_right, and_iff_left_of_imp (hh m)]
        exact or_iff_right fun hm => hin (Axis.mem_hierarchies.2 ⟨m, hm⟩)
      simp only [← hall, and_assoc]

/-- The family joined with the genders, as it is written. -/
def sampleJoin : SetExpr :=
  .call .crossJoin [.reference (.member ⟨["Product", "All", "Drink"]⟩), .reference (.children ⟨["Gender", "All"]⟩)]

/-- The genders. -/
def sampleGenders : List Member :=
  [⟨"[Gender].[All].[F]", "F", "Gender", 1, 0, some "[Gender].[All]"⟩,
    ⟨"[Gender].[All].[M]", "M", "Gender", 1, 1, some "[Gender].[All]"⟩]

/-- The family joined with the genders, as it is resolved. -/
def sampleJoinTuples : TupleSet := .join .call (.members [sampleFamily]) (.members sampleGenders)

/-- On the small cube departments are added to a family joined with genders, and genders to the family alone; both times the tuples
are exactly those that are to be expected. -/
theorem sample_denotes_add :
    (∃ added drilled, ((Mutation.add ⟨"Product", "Department", 2⟩ 0).run sample.catalog .preserve []
          (.ofTuples sampleJoinTuples false)).result = .ok added ∧
        sample.catalog.expand [sampleFamily] ⟨"Product", "Department", 2⟩ = .ok drilled ∧
        ∀ s', added.Denotes s' ↔ ∃ s m, sampleJoinTuples.Denotes s ∧ (m ∈ [sampleFamily] ∨ m ∈ drilled) ∧
          s' = Function.update s "Product" (some m)) ∧
      ∃ added ms, ((Mutation.add ⟨"Gender", "Gender", 1⟩ (-1)).run sample.catalog .preserve []
          (.ofTuples (.members [sampleFamily]) false)).result = .ok added ∧
        sample.catalog.membersOf ⟨"Gender", "Gender", 1⟩ none = .ok ms ∧
        ∀ s', added.Denotes s' ↔ ∃ s m, (TupleSet.members [sampleFamily]).Denotes s ∧ m ∈ ms ∧
          s' = Function.update s "Gender" (some m) := by
  have hjoin : sample.catalog.resolveAxis sampleJoin = .ok (.ofTuples sampleJoinTuples false) := by decide +kernel
  have hfamily : sample.catalog.resolveAxis (.reference (.member ⟨["Product", "All", "Drink"]⟩)) =
      .ok (.ofTuples (.members [sampleFamily]) false) := by decide +kernel
  have hdepartments : ((Mutation.add ⟨"Product", "Department", 2⟩ 0).run sample.catalog .preserve []
      (.ofTuples sampleJoinTuples false)).result.toOption.any (fun added => decide (added.hierarchies.length = 2)) = true := by
    decide +kernel
  have hgenders : ((Mutation.add ⟨"Gender", "Gender", 1⟩ (-1)).run sample.catalog .preserve []
      (.ofTuples (.members [sampleFamily]) false)).result.toOption.any (fun added => decide (added.hierarchies.length = 2)) = true := by
    decide +kernel
  have hproduct : "Product" ∈ (Axis.ofTuples sampleJoinTuples false).hierarchies ∧
      (Axis.ofTuples sampleJoinTuples false).membersOf "Product" = [sampleFamily] := by decide +kernel
  have hgender : "Gender" ∉ (Axis.ofTuples (.members [sampleFamily]) false).hierarchies ∧
      (Axis.ofTuples (.members [sampleFamily]) false).members ≠ [] := by decide +kernel
  have hapart : TupleSet.Apart (.members [sampleFamily]) (.members sampleGenders) := by decide
  obtain ⟨added, hadded, -⟩ := exists_of_any_toOption hdepartments
  obtain ⟨added', hadded', -⟩ := exists_of_any_toOption hgenders
  obtain ⟨-, drilled, hd, hexact⟩ := (orderly_sample.denotes_add hjoin (Axis.tuples?_ofTuples _ _) (remembers_nil sample) hadded).1
    hproduct.1
  obtain ⟨ms, hms, -, hexact'⟩ := (orderly_sample.denotes_add hfamily (Axis.tuples?_ofTuples _ _) (remembers_nil sample) hadded').2
    hgender.1
  rw [hproduct.2] at hd hexact
  exact ⟨⟨added, drilled, hadded, hd, hexact (.join (.members _) (.members _)) (.join (.members _) (.members _) hapart)⟩,
    added', ms, hadded', hms, hexact' (.members _) (.members _) hgender.2⟩

end Outline

end CubeAxes
