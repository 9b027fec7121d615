import Mathlib.Data.List.Induction
import CubeAxes.Proofs.Arena.Operands
import CubeAxes.Proofs.Query.Rereading

/-!
# Changes and operands that select nothing

Reading refuses a join one of whose operands selects nothing, so on the axes of a query that was read no join has such an operand.
Changing does not refuse it: a level without members that is added beside other hierarchies, or placed with them where no other level
of its hierarchy has members either, leaves an empty set as an operand (`sampleGap_operandsSelect`). These are the only ways
(`Outline.Consistent.operandsSelect_iff_of_run`), so a run of changes keeps the operands as reading wants them just when each change
in it that succeeds fits (`Outline.Orderly.operandsSelect_changeAll_iff`).
-/

namespace CubeAxes

/-- On all axes of a query the operands select something. -/
def Query.OperandsSelect (q : Query) : Prop := ∀ name axis, q.axes name = some axis → axis.OperandsSelect

/-- A mutation brings one hierarchy to an axis on which there is no other afterwards. -/
def Mutation.Alone (axis : Axis) : Mutation → Prop
  | .add _ _ => axis.hierarchies = []
  | .remove _ => False
  | .place levels => ∀ l ∈ levels, ∀ l' ∈ levels, l.hierarchy = l'.hierarchy

/-- Of entries none of which is repeated there is at most one when all of them are the same. -/
theorem length_le_one_iff_of_nodup {α : Type} {l : List α} (h : l.Nodup) : l.length ≤ 1 ↔ ∀ a ∈ l, ∀ b ∈ l, a = b := by
  constructor
  · intro hlength a ha b hb
    match l, hlength with
    | [c], _ => rw [List.mem_singleton.1 ha, List.mem_singleton.1 hb]
  · intro hall
    match l, h with
    | [], _ => exact Nat.zero_le 1
    | [_], _ => exact Nat.le_refl 1
    | a :: b :: l, h =>
      have hab := hall a List.mem_cons_self b (List.mem_cons_of_mem a List.mem_cons_self)
      exact absurd (hab ▸ List.mem_cons_self) (List.nodup_cons.1 h).1

namespace Outline

variable {o : Outline}

/-- A mutation fits an axis when no set of members that it leaves there is empty, unless it is the only one. -/
def Fits (o : Outline) (axis : Axis) (m : Mutation) : Prop := o.Fills axis m ∨ m.Alone axis

/-! ## One mutation -/

/-- An edit that leaves empty selections leaves only one selection when the mutation brings the only hierarchy. -/
theorem length_edit_le_one_iff {axis : Axis} {m : Mutation} {edit : Edit} (h : m.edit o.catalog axis = .ok edit)
    (hnot : ¬o.Fills axis m) : edit.selections.length ≤ 1 ↔ m.Alone axis := by
  cases m with
  | add l position =>
    obtain ⟨hp, hcases⟩ := Edit.cases_of_adding h
    rcases hcases with ⟨hin, -⟩ | ⟨-, ms, -, heq⟩
    · exact absurd (Or.inl hin) hnot
    · have hindex := Edit.index_le hp
      rw [heq, List.length_insertIdx_of_le_length hindex, Mutation.Alone, ← Axis.map_hierarchy_selections, List.map_eq_nil_iff,
        ← List.length_eq_zero_iff]
      omega
  | remove l => exact absurd trivial hnot
  | place levels =>
    obtain ⟨hhierarchies, -⟩ := Edit.spec_of_placing h
    have hmem : ∀ n, n ∈ distinctOn id (levels.map (·.hierarchy)) ↔ ∃ l ∈ levels, l.hierarchy = n := fun n => by
      rw [mem_distinctOn_id, List.mem_map]
    rw [← List.length_map (f := (·.hierarchy)), hhierarchies, length_le_one_iff_of_nodup (nodup_distinctOn_id _), Mutation.Alone]
    simp only [hmem, forall_exists_index, and_imp, forall_apply_eq_imp_iff₂]

/-- On the axis that comes of a mutation the operands select something just when the mutation fits. -/
theorem Consistent.operandsSelect_iff_of_run (hc : Consistent o) {axis axis' : Axis} (hax : ∀ m ∈ axis.members, o.Holds m)
    {m : Mutation} {mode : HierarchizeMode} {keys : SortKeys} (hk : o.Remembers keys)
    (h : (m.run o.catalog mode keys axis).result = .ok axis') : axis'.OperandsSelect ↔ o.Fits axis m := by
  obtain ⟨edit, he, hss, -, -, hsets⟩ := hc.spec_of_run hax hk h
  obtain ⟨-, -, hordered, -⟩ := Axis.shape_of_ofSets hsets
  obtain ⟨t, ht, hchain⟩ := exists_chain_of_ofSets hsets
  rw [Axis.operandsSelect_iff hordered ht, TupleSet.filled_chain_iff hchain (List.forall_mem_map.2 fun s _ => .members _),
    hc.selectsNothing_edit_iff he hss, List.length_map, Fits]
  by_cases hfills : o.Fills axis m
  · exact iff_of_true (Or.inr hfills) (Or.inl hfills)
  · rw [length_edit_le_one_iff he hfills]
    exact or_comm

/-! ## Reading -/

/-- On an axis on which a set is put that resolves the operands select something. -/
theorem Consistent.operandsSelect_of_resolveAxis (hc : Consistent o) {set : SetExpr} {axis : Axis}
    (h : o.catalog.resolveAxis set = .ok axis) : axis.OperandsSelect := by
  obtain ⟨t, ht, h⟩ := bind_eq_ok h
  obtain rfl := Except.ok.inj h
  rw [Axis.operandsSelect_iff (Axis.ordered_ofTuples t _) (Axis.tuples?_ofTuples t _)]
  exact (hc.sound_of_resolve set ht).filled

/-! ## Runs of changes -/

variable {down : CatalogCall → Option String}

/-- A change leaves a query on whose axes all members are held as such. -/
theorem HoldsOn.change {q : Query} (h : o.HoldsOn q) (hc : Consistent o) (options : Options) (name : AxisName) (m : Mutation) :
    o.HoldsOn (q.change (o.catalog.interrupted down) options name m).query := by
  rcases q.change_cases (o.catalog.interrupted down) options name m with ⟨-, heq⟩ | ⟨axis, hrun, -, heq⟩
  · rw [heq]
    exact h
  · have hrun' := (m.failStop_run down o.catalog options.hierarchize [] _).eq_ok hrun
    rw [heq]
    exact Query.forall_axes_replaceAxis (hc.holds_of_run (h.getD name) (remembers_nil o) hrun') h

/-- So do any number of changes. -/
theorem HoldsOn.changeAll {q : Query} (h : o.HoldsOn q) (hc : Consistent o) (rs : List Request) :
    o.HoldsOn (q.changeAll (o.catalog.interrupted down) rs) := by
  unfold Query.changeAll
  induction rs generalizing q with
  | nil => exact h
  | cons r rs ih =>
    rw [List.foldl_cons]
    exact ih (h.change hc r.options r.axis r.mutation)

/-- One change of a query on whose axes the operands select something keeps that so just when it fails or its mutation fits. -/
theorem HoldsOn.operandsSelect_change_iff {q : Query} (h : o.HoldsOn q) (hc : Consistent o) (hselect : q.OperandsSelect)
    (r : Request) :
    (q.change (o.catalog.interrupted down) r.options r.axis r.mutation).query.OperandsSelect ↔
      ((q.change (o.catalog.interrupted down) r.options r.axis r.mutation).failure = none →
        o.Fits ((q.axes r.axis).getD {}) r.mutation) := by
  rcases q.change_cases (o.catalog.interrupted down) r.options r.axis r.mutation with ⟨hfail, heq⟩ | ⟨axis, hrun, hok, heq⟩
  · rw [heq]
    exact iff_of_true hselect fun hok => absurd hok hfail
  · have hrun' := (r.mutation.failStop_run down o.catalog r.options.hierarchize [] _).eq_ok hrun
    rw [heq, ← hc.operandsSelect_iff_of_run (h.getD r.axis) (remembers_nil o) hrun', imp_iff_right hok]
    exact ⟨fun hall => hall r.axis axis (if_pos rfl), fun hchanged => Query.forall_axes_replaceAxis hchanged hselect⟩

/-- On all axes of a query that was read the operands select something. -/
theorem Consistent.operandsSelect_of_ofText (hc : Consistent o) {render : RenderOptions} {text : String} {q : Query}
    (h : (Query.ofText o.catalog render text).1 = .ok q) : q.OperandsSelect := by
  intro name axis ha
  obtain ⟨set, hset⟩ := Query.exists_resolveAxis h ha
  exact hc.operandsSelect_of_resolveAxis hset

/-- A run of changes of a query that was read, over a catalog that may be interrupted, leaves operands that select something on all
axes all along just when every mutation in it that succeeds fits the axis of which it is asked. -/
theorem Orderly.operandsSelect_changeAll_iff (ho : Orderly o) {render : RenderOptions} {text : String} {q : Query}
    (hq : (Query.ofText (o.catalog.interrupted down) render text).1 = .ok q) (rs : List Request) :
    (∀ done, done <+: rs → (q.changeAll (o.catalog.interrupted down) done).OperandsSelect) ↔
      ∀ done r, done ++ [r] <+: rs →
        ((q.changeAll (o.catalog.interrupted down) done).change (o.catalog.interrupted down) r.options r.axis r.mutation).failure =
          none →
        o.Fits (((q.changeAll (o.catalog.interrupted down) done).axes r.axis).getD {}) r.mutation := by
  have hc := ho.consistent
  have hread := (Query.failStop_ofText down o.catalog render text).eq_ok hq
  have hheld : o.HoldsOn q := fun name axis ha => ((hc.steady_of_ofText hread).axes name axis ha).holds
  constructor
  · intro hall done r hdone
    have hbefore := hall done ((List.prefix_append done [r]).trans hdone)
    refine ((hheld.changeAll hc done).operandsSelect_change_iff hc hbefore r).1 ?_
    rw [← Query.changeAll_append_singleton]
    exact hall _ hdone
  · intro hfits done hdone
    induction done using List.reverseRecOn with
    | nil => exact hc.operandsSelect_of_ofText hread
    | append_singleton done r ih =>
      have hbefore := ih ((List.prefix_append done [r]).trans hdone)
      rw [Query.changeAll_append_singleton]
      exact ((hheld.changeAll hc done).operandsSelect_change_iff hc hbefore r).2 (hfits done r hdone)

/-- On the small cube every operand selects something after each of the sample changes, three of which succeed. -/
theorem sample_operandsSelect_changeAll :
    ∃ q, (Query.ofText (sample.catalog.interrupted fun _ => none) {} sampleText).1 = .ok q ∧
      (∀ done r, done ++ [r] <+: sampleRequests →
        sample.Fits (((q.changeAll (sample.catalog.interrupted fun _ => none) done).axes r.axis).getD {}) r.mutation) ∧
      ∀ done, done <+: sampleRequests → (q.changeAll (sample.catalog.interrupted fun _ => none) done).OperandsSelect := by
  have hsome : (Query.ofText (sample.catalog.interrupted fun _ => none) {} sampleText).1.toOption.isSome = true := by decide +kernel
  have hrows : ∀ r ∈ sampleRequests, ∀ l ∈ r.mutation.brought, sample.rows l.hierarchy l.depth ≠ [] := by decide +kernel
  cases hq : (Query.ofText (sample.catalog.interrupted fun _ => none) {} sampleText).1 with
  | error e =>
    rw [hq] at hsome
    nomatch hsome
  | ok q =>
    have hfits : ∀ done r, done ++ [r] <+: sampleRequests →
        sample.Fits (((q.changeAll (sample.catalog.interrupted fun _ => none) done).axes r.axis).getD {}) r.mutation := by
      intro done r hdone
      have hr : r ∈ sampleRequests := hdone.subset (List.mem_append_right done (List.mem_singleton_self r))
      exact Or.inl (fills_of_hasMembers (fun l hl => orderly_sample.consistent.hasMembers_iff.2 (hrows r hr l hl)) _)
    exact ⟨q, rfl, hfits, (orderly_sample.operandsSelect_changeAll_iff hq sampleRequests).2 fun done r hdone _ => hfits done r hdone⟩

/-- Two hierarchies of one level each, of which only the first has a member. -/
def sampleGap : Outline :=
  (((({} : Outline).addHierarchy "A" ["L"]).addHierarchy "B" ["M"]).addMembers? [("A", none, "a")]).getD {}

/-- The level of the second, which has no members. -/
def sampleGapLevel : Level := ⟨"B", "M", 0⟩

/-- A query about the first hierarchy only. -/
def sampleGapText : String := "SELECT \x7b[A].[a]\x7d ON ROWS FROM [C]"

/-- Its rows after the level without members was added to them. -/
def sampleGapChange (q : Query) : Change := q.change sampleGap.catalog {} .rows (.add sampleGapLevel (-1))

/-- The root of an axis is a join, on the right side of which nothing is selected. -/
def endsInNothing (axis : Axis) : Bool :=
  axis.root.any fun root =>
    match axis.nodes[root]? with
    | some (Node.join _ _ right) => (axis.nodes.tuples right).selectsNothing
    | _ => false

/-- A text is refused because nothing is selected by the second operand of a join in it. -/
def refusedForOperand (text : String) : Bool :=
  match (Query.ofText sampleGap.catalog {} text).1 with
  | .error e => decide (e = .malformedSet (.emptyOperand 2))
  | .ok _ => false

/-- On such an axis not all operands select something. -/
theorem not_operandsSelect_of_endsInNothing {axis : Axis} (h : endsInNothing axis = true) : ¬axis.OperandsSelect := by
  intro hselect
  obtain ⟨root, hroot, h⟩ := (Option.any_eq_true _ _).1 h
  split at h
  · next form left right hnode =>
    obtain ⟨-, hright⟩ := hselect root hroot root form left right .refl hnode
    exact Bool.false_ne_true (hright.symm.trans h)
  · nomatch h

/-- Adding a level without members beside another hierarchy succeeds, leaves an operand that selects nothing, and writes a text that
is not read again. -/
theorem sampleGap_operandsSelect :
    Orderly sampleGap ∧ sampleGap.HasTable sampleGapLevel ∧
      ∃ q axis, (Query.ofText sampleGap.catalog {} sampleGapText).1 = .ok q ∧ (sampleGapChange q).failure = none ∧
        (sampleGapChange q).query.axes .rows = some axis ∧ ¬axis.OperandsSelect ∧
        (Query.ofText sampleGap.catalog {} (sampleGapChange q).query.text).1 =
          .error (.malformedSet (.emptyOperand 2)) := by
  have hsome : ((({} : Outline).addHierarchy "A" ["L"]).addHierarchy "B" ["M"] |>.addMembers? [("A", none, "a")]).isSome = true := by
    decide +kernel
  have horderly : Orderly sampleGap := by
    obtain ⟨o, ho⟩ := Option.isSome_iff_exists.1 hsome
    rw [sampleGap, ho]
    exact ((Orderly.empty.addHierarchy _ rfl).addHierarchy _ rfl).addMembers? ho
  have htable : (sampleGap.table? "B" 0).isSome = true := by decide +kernel
  have hgap : (Query.ofText sampleGap.catalog {} sampleGapText).1.toOption.any (fun q =>
      decide ((sampleGapChange q).failure = none) && ((sampleGapChange q).query.axes .rows).any endsInNothing &&
        refusedForOperand (sampleGapChange q).query.text) = true := by
    decide +kernel
  obtain ⟨q, hq, hgap⟩ := exists_of_any_toOption hgap
  simp only [Bool.and_eq_true, decide_eq_true_eq] at hgap
  obtain ⟨⟨hok, hends⟩, hrefused⟩ := hgap
  obtain ⟨axis, haxis, hends⟩ := (Option.any_eq_true _ _).1 hends
  refine ⟨horderly, Option.isSome_iff_exists.1 htable, q, axis, hq, hok, haxis, not_operandsSelect_of_endsInNothing hends, ?_⟩
  unfold refusedForOperand at hrefused
  split at hrefused
  · next e he => rw [he, of_decide_eq_true hrefused]
  · nomatch hrefused

end Outline

end CubeAxes
