import CubeAxes.Proofs.Grammar.Reading
import CubeAxes.Proofs.Query.Steady
import CubeAxes.Proofs.Resolution.Rereading

/-!
# Reading the text of a query back

The text of a query that was read and then changed any number of times describes a query with the same text, the same cube and
slicer, and the same axes, each hierarchized as it was and selecting what it did (`Outline.Orderly.ofText_changeAll`). So writing a
query that was read and reading it again changes nothing more, whatever names and shapes the first text used.
-/

namespace CubeAxes

/-! ## The axes of a query in their order -/

/-- Every axis has its ordinal. -/
theorem AxisName.mem_all (a : AxisName) : a ∈ AxisName.all := by
  cases a <;> decide

/-- What is kept under the names of a list is found under them. -/
theorem lookup_filterMap_pair {β : Type} (f : AxisName → Option β) (names : List AxisName) (name : AxisName) :
    (names.filterMap fun a => (f a).map (a, ·)).lookup name = if name ∈ names then f name else none := by
  induction names with
  | nil => rfl
  | cons a names ih =>
    rw [List.filterMap_cons]
    cases hf : f a with
    | none =>
      rw [Option.map_none, ih]
      by_cases ha : name = a
      · subst ha
        simp [hf]
      · simp [ha]
    | some b =>
      rw [Option.map_some, List.lookup_cons, ih]
      by_cases ha : name = a
      · subst ha
        simp [hf]
      · simp [ha, beq_false_of_ne ha]

namespace Query

/-- The axes in their order are those of the query, each under its name. -/
theorem mem_axisList {q : Query} {a : AxisName × Axis} : a ∈ q.axisList ↔ q.axes a.1 = some a.2 := by
  obtain ⟨name, axis⟩ := a
  simp only [axisList, List.mem_filterMap, Option.map_eq_some_iff, Prod.mk.injEq]
  constructor
  · rintro ⟨n, -, b, hb, rfl, rfl⟩
    exact hb
  · intro h
    exact ⟨name, name.mem_all, axis, h, rfl, rfl⟩

/-- No axis stands twice among them. -/
theorem nodup_map_axisList (q : Query) : (q.axisList.map (·.1)).Nodup := by
  have hsub : ∀ names : List AxisName,
      ((names.filterMap fun a => (q.axes a).map (a, ·)).map (·.1)).Sublist names := by
    intro names
    induction names with
    | nil => exact List.Sublist.slnil
    | cons a names ih =>
      cases hf : q.axes a with
      | none => simpa [hf] using ih.cons a
      | some axis => simpa [hf] using ih.cons_cons a
  exact (hsub AxisName.all).nodup (by decide)

/-- The axes in their order, with others in their places. -/
theorem axisList_of_axes {q q' : Query} {axis : AxisName → Axis} (h : ∀ name, q'.axes name = (q.axes name).map fun _ => axis name) :
    q'.axisList = q.axisList.map fun a => (a.1, axis a.1) := by
  rw [axisList, axisList, List.map_filterMap]
  refine List.filterMap_congr fun a _ => ?_
  rw [h, Option.map_map, Option.map_map]
  rfl

/-- The text written from axes on each of which something stands names all of them. -/
theorem written_eq {q : Query} (h : ∀ name axis, q.axes name = some axis → axis.root.isSome = true) :
    q.written = "SELECT " ++ String.intercalate ", " (q.axisList.map fun a => a.2.text q.render ++ " ON " ++ a.1.text) ++
      " FROM " ++ bracketed q.cube ++ restrictionText q.slicer := by
  have hall : (q.axisList.filter fun a => a.2.root.isSome) = q.axisList :=
    List.filter_eq_self.2 fun a ha => h a.1 a.2 (mem_axisList.1 ha)
  rw [written, queryText, hall]

/-- The text written from other axes that read alike, each in its place, is the same. -/
theorem written_congr {q q' : Query} {axis : AxisName → Axis} (h : ∀ name, q'.axes name = (q.axes name).map fun _ => axis name)
    (hrender : q'.render = q.render) (hcube : q'.cube = q.cube) (hslicer : q'.slicer = q.slicer)
    (halike : ∀ name before, q.axes name = some before → before.root.isSome = true ∧ (axis name).root.isSome = true ∧
      (axis name).text q.render = before.text q.render) : q'.written = q.written := by
  have hroots : ∀ name after, q'.axes name = some after → after.root.isSome = true := by
    intro name after hafter
    rw [h] at hafter
    obtain ⟨before, hbefore, rfl⟩ := Option.map_eq_some_iff.1 hafter
    exact (halike name before hbefore).2.1
  have htexts : (q'.axisList.map fun a => a.2.text q.render ++ " ON " ++ a.1.text) =
      q.axisList.map fun a => a.2.text q.render ++ " ON " ++ a.1.text := by
    rw [axisList_of_axes h, List.map_map]
    refine List.map_congr_left fun a ha => ?_
    rw [Function.comp_apply, (halike a.1 a.2 (mem_axisList.1 ha)).2.2]
  rw [written_eq hroots, written_eq fun name before hbefore => (halike name before hbefore).1, hrender, hcube, hslicer, htexts]

/-- The query of a statement whose axes are those of another query, with others in their places. -/
theorem axes_ofAxes (render : RenderOptions) (s : SelectStatement) (q : Query) (axis : AxisName → Axis) (name : AxisName) :
    (ofAxes render s (q.axisList.map fun a => (a.1, axis a.1))).axes name = (q.axes name).map fun _ => axis name := by
  have hlookup := lookup_filterMap_pair (fun name => (q.axes name).map fun _ => axis name) AxisName.all name
  rw [if_pos name.mem_all] at hlookup
  rw [← hlookup]
  change (q.axisList.map fun a => (a.1, axis a.1)).lookup name = _
  rw [axisList, List.map_filterMap]
  congr 1
  refine List.filterMap_congr fun a _ => ?_
  rw [Option.map_map, Option.map_map]
  rfl

/-- Clauses on the sets of which axes are put resolve to these axes, in their order. -/
theorem resolveClauses_eq {α : Type} {cat : Catalog} {as : List α} {g : α → AxisClause} {f : α → Axis}
    (h : ∀ a ∈ as, cat.resolveAxis (g a).set = .ok (f a)) :
    (resolveClauses cat (as.map g)).1 = .ok (as.map fun a => ((g a).axis, f a)) := by
  induction as with
  | nil => rfl
  | cons a as ih =>
    obtain ⟨ha, has⟩ := List.forall_mem_cons.1 h
    rw [List.map_cons, resolveClauses_cons, ha, ih has]
    rfl

end Query

namespace Outline

variable {o : Outline}

/-! ## Reading one axis back -/

/-- A set and an axis that are read from the text of an axis: what is read is written and selects as the axis does. -/
structure Recovers (o : Outline) (render : RenderOptions) (axis : Axis) (set : SetExpr) (axis' : Axis) : Prop where
  writes : Grammar.Writes (axis.text render) set
  resolves : o.catalog.resolveAxis set = .ok axis'
  text : axis'.text render = axis.text render
  hierarchize : axis'.hierarchize = axis.hierarchize
  selections : axis'.selections = axis.selections

/-- Something stands on an axis that carries a set. -/
theorem Carries.isSome_root {axis : Axis} (h : o.Carries axis) : axis.root.isSome = true := by
  obtain ⟨t, ht, -⟩ := h
  obtain ⟨id, hid, -⟩ := Option.map_eq_some_iff.1 ht
  rw [hid]
  rfl

/-- What an axis selects depends on its members only. -/
theorem selections_congr {axis axis' : Axis} (h : axis'.members = axis.members) : axis'.selections = axis.selections := by
  simp only [Axis.selections, Axis.hierarchies, Axis.membersOf, h]

/-- The text of an axis that carries a sound set is read back. -/
theorem Carries.exists_recovers (hc : Consistent o) {axis : Axis} (h : o.Carries axis) (render : RenderOptions) :
    ∃ set axis', o.Recovers render axis set axis' := by
  obtain ⟨t, ht, hs⟩ := h
  obtain ⟨e, t', hw, hplain, hr, htext, hmembers, -⟩ := hs.rereads hc render
  have hsame : ∀ hierarchize, (Axis.ofTuples t' hierarchize).selections = axis.selections := by
    intro hierarchize
    refine selections_congr ?_
    rw [Axis.members, Axis.members, Axis.memberSets_of_tuples? ht, Axis.memberSets_of_tuples? (Axis.tuples?_ofTuples t' hierarchize),
      hmembers]
  cases hz : axis.hierarchize with
  | false =>
    refine ⟨e, .ofTuples t' false, ?_, ?_, ?_, hz.symm, hsame false⟩
    · simpa only [Axis.text, ht, hz, Bool.false_eq_true, if_false] using hw
    · rw [Catalog.resolveAxis, hr, hplain]
      rfl
    · simp only [Axis.text, ht, hz, Axis.tuples?_ofTuples, htext]
      rfl
  | true =>
    have hargs : ∀ a ∈ [(t.text render, e)], Grammar.Writes a.1 a.2 := by
      intro a ha
      obtain rfl := List.mem_singleton.1 ha
      exact hw
    have hcall := Grammar.writes_call .hierarchize render hargs rfl
    refine ⟨.call .hierarchize [e], .ofTuples t' true, ?_, ?_, ?_, hz.symm, hsame true⟩
    · simpa only [Axis.text, ht, hz, if_true, List.map_cons, List.map_nil] using hcall
    · rw [Catalog.resolveAxis, Catalog.resolve, Catalog.resolveOnly, hr]
      rfl
    · simp only [Axis.text, ht, hz, Axis.tuples?_ofTuples, htext]
      rfl

/-! ## Reading the query back -/

/-- The text of a steady query is read back. -/
theorem Steady.exists_ofText (hc : Consistent o) {q : Query} (h : o.Steady q) :
    ∃ q', (Query.ofText o.catalog q.render q.text).1 = .ok q' ∧ q'.text = q.text ∧ q'.cube = q.cube ∧ q'.slicer = q.slicer ∧
      ∀ name, (q'.axes name).map (fun a => (a.hierarchize, a.selections)) =
        (q.axes name).map fun a => (a.hierarchize, a.selections) := by
  have hall : ∀ name, ∃ read : SetExpr × Axis, ∀ axis, q.axes name = some axis → o.Recovers q.render axis read.1 read.2 := by
    intro name
    cases haxis : q.axes name with
    | none => exact ⟨(.braced [], {}), fun axis he => nomatch he⟩
    | some axis =>
      obtain ⟨set, axis', hrec⟩ := (h.axes name axis haxis).exists_recovers hc q.render
      refine ⟨(set, axis'), fun a he => ?_⟩
      obtain rfl := Option.some.inj he
      exact hrec
  obtain ⟨read, hread⟩ := Classical.axiomOfChoice hall
  have hlist : ∀ a ∈ q.axisList, o.Recovers q.render a.2 (read a.1).1 (read a.1).2 :=
    fun a ha => hread a.1 a.2 (Query.mem_axisList.1 ha)
  -- the text is that of a statement with one clause for each axis, and the sets of the clauses resolve
  have hne : q.axisList ≠ [] := by
    obtain ⟨name, axis, haxis⟩ := h.used
    exact List.ne_nil_of_mem (Query.mem_axisList (a := (name, axis)).2 haxis)
  have hroots : ∀ name axis, q.axes name = some axis → axis.root.isSome = true :=
    fun name axis haxis => (h.axes name axis haxis).isSome_root
  have hstatement := Grammar.exists_isStatement (f := fun a : AxisName × Axis => a.2.text q.render)
    (g := fun a => ⟨(read a.1).1, a.1⟩) hne (fun a ha => (hlist a ha).writes) q.nodup_map_axisList q.cube h.slicer
  have hs : SelectStatement.ofText q.text = .ok ⟨q.axisList.map fun a => ⟨(read a.1).1, a.1⟩, q.cube, q.slicer⟩ := by
    rw [h.text, Query.written_eq hroots]
    exact SelectStatement.ofText_eq_ok hstatement
  have hclauses := Query.resolveClauses_eq (g := fun a : AxisName × Axis => ⟨(read a.1).1, a.1⟩)
    (f := fun a => (read a.1).2) fun a ha => (hlist a ha).resolves
  -- the query read back has the axes of the clauses, in the same places
  have haxes := Query.axes_ofAxes q.render ⟨q.axisList.map fun a => ⟨(read a.1).1, a.1⟩, q.cube, q.slicer⟩ q fun name => (read name).2
  have hwritten := Query.written_congr haxes rfl rfl rfl fun name before hbefore => ⟨hroots name before hbefore,
    (hc.carries_of_resolveAxis (hread name before hbefore).resolves).isSome_root, (hread name before hbefore).text⟩
  refine ⟨.ofAxes q.render ⟨q.axisList.map fun a => ⟨(read a.1).1, a.1⟩, q.cube, q.slicer⟩
    (q.axisList.map fun a => (a.1, (read a.1).2)), ?_, ?_, rfl, rfl, fun name => ?_⟩
  · rw [Query.ofText_eq o.catalog q.render hs, hclauses]
    rfl
  · rw [Query.text_ofAxes, hwritten, h.text]
  · rw [haxes]
    cases haxis : q.axes name with
    | none => rfl
    | some axis =>
      have hrec := hread name axis haxis
      rw [Option.map_some, Option.map_some, Option.map_some, hrec.hierarchize, hrec.selections]

/-- The text of a query that was read, and then changed any number of times by requests that bring in levels with members only, some
of which may have failed, describes a query with the same text, the same cube and slicer, and the same axes, each hierarchized as it
was and selecting the same members of the same hierarchies in the same order. -/
theorem Orderly.ofText_changeAll (ho : Orderly o) {render : RenderOptions} {text : String} {q : Query}
    (hq : (Query.ofText o.catalog render text).1 = .ok q) {rs : List Request}
    (hr : ∀ r ∈ rs, ∀ l ∈ r.mutation.brought, o.HasMembers l) :
    ∃ q', (Query.ofText o.catalog render (q.changeAll o.catalog rs).text).1 = .ok q' ∧
      q'.text = (q.changeAll o.catalog rs).text ∧ q'.cube = (q.changeAll o.catalog rs).cube ∧
      q'.slicer = (q.changeAll o.catalog rs).slicer ∧
      ∀ name, (q'.axes name).map (fun a => (a.hierarchize, a.selections)) =
        ((q.changeAll o.catalog rs).axes name).map fun a => (a.hierarchize, a.selections) := by
  have hc := ho.consistent
  have hsteady := (hc.steady_of_ofText hq).changeAll hc hr
  have hrender : (q.changeAll o.catalog rs).render = render := by
    obtain ⟨s, axes, -, -, rfl⟩ := Query.exists_of_ofText_eq_ok hq
    exact Query.render_changeAll _ _ _
  rw [← hrender]
  exact hsteady.exists_ofText hc

/-- A text about the small cube with a short name, children, and a union of three sets, one of them empty. -/
def sampleText : String := "select union([Gender].[F], [Gender].[All].Children, \x7b\x7d) on rows from [Sales]"

/-- Changes of the rows and of an axis that the text does not use, the second of which fails. -/
def sampleRequests : List Request :=
  [⟨.rows, .add ⟨"Product", "Department", 2⟩ (-1), {}⟩, ⟨.columns, .place [], {}⟩,
    ⟨.columns, .place sampleLevels, { hierarchize := .always }⟩, ⟨.rows, .remove ⟨"Gender", "Gender", 1⟩, {}⟩]

/-- The text about the small cube is read, and after the changes its query is read back. -/
theorem sample_ofText_changeAll :
    ∃ q q', (Query.ofText sample.catalog {} sampleText).1 = .ok q ∧
      (∀ r ∈ sampleRequests, ∀ l ∈ r.mutation.brought, sample.HasMembers l) ∧
      (Query.ofText sample.catalog {} (q.changeAll sample.catalog sampleRequests).text).1 = .ok q' ∧
      q'.text = (q.changeAll sample.catalog sampleRequests).text := by
  have hsome : (Query.ofText sample.catalog {} sampleText).1.toOption.isSome = true := by decide +kernel
  have hrows : ∀ r ∈ sampleRequests, ∀ l ∈ r.mutation.brought, sample.rows l.hierarchy l.depth ≠ [] := by decide +kernel
  have hmembers : ∀ r ∈ sampleRequests, ∀ l ∈ r.mutation.brought, sample.HasMembers l :=
    fun r hr l hl => orderly_sample.consistent.hasMembers_iff.2 (hrows r hr l hl)
  cases hq : (Query.ofText sample.catalog {} sampleText).1 with
  | error e =>
    rw [hq] at hsome
    nomatch hsome
  | ok q =>
    obtain ⟨q', hq', htext, -⟩ := orderly_sample.ofText_changeAll hq hmembers
    exact ⟨q, q', rfl, hmembers, hq', htext⟩

end Outline

end CubeAxes
