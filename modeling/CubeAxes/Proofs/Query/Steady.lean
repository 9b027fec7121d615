import CubeAxes.Query.Change
import CubeAxes.Proofs.Axis.Keeping
import CubeAxes.Proofs.Catalog.Interruption
import CubeAxes.Proofs.Grammar.Deriving

/-!
# Queries over an outline, from reading through any changes

A query is steady when its text is the one written from its axes, each of its axes carries a sound set, it has an axis, and its
slicer is one that the grammar derives. Every query that is read is steady (`Outline.Consistent.steady_of_ofText`), and every run of
changes keeps it so, whichever of them fail (`Outline.Steady.changeAll`), if the levels that are brought in have members.
-/

namespace CubeAxes

/-- A change that is asked for. -/
structure Request where
  axis : AxisName
  mutation : Mutation
  options : Options

namespace Query

/-! ## Reading -/

/-- The query of a statement whose axes are resolved. -/
def ofAxes (render : RenderOptions) (s : SelectStatement) (axes : List (AxisName × Axis)) : Query :=
  refreshed { cube := s.cube, axes := (axes.lookup ·), slicer := s.slicer, render, text := "" }

/-- The text of such a query is the one written from its axes. -/
theorem text_ofAxes (render : RenderOptions) (s : SelectStatement) (axes : List (AxisName × Axis)) :
    (ofAxes render s axes).text = (ofAxes render s axes).written := rfl

/-- Resolving a clause comes before resolving those behind it. -/
theorem resolveClauses_cons (cat : Catalog) (c : AxisClause) (cs : List AxisClause) :
    (resolveClauses cat (c :: cs)).1 =
      (cat.resolveAxis c.set).bind fun axis => (resolveClauses cat cs).1.map ((c.axis, axis) :: ·) := by
  rw [resolveClauses]
  cases cat.resolveAxis c.set <;> rfl

/-- The query that a text describes is that of the statement that it is read as. -/
theorem ofText_eq (cat : Catalog) (render : RenderOptions) {text : String} {s : SelectStatement}
    (h : SelectStatement.ofText text = .ok s) :
    (ofText cat render text).1 = (resolveClauses cat s.clauses).1.map (ofAxes render s) := by
  rw [ofText, h]
  simp only [ofStatement]
  split
  · next hr =>
    rw [hr]
    rfl
  · next hr =>
    rw [hr]
    rfl

/-- A text that describes a query is read as a statement, all the clauses of which are resolved. -/
theorem exists_of_ofText_eq_ok {cat : Catalog} {render : RenderOptions} {text : String} {q : Query}
    (h : (ofText cat render text).1 = .ok q) :
    ∃ s axes, SelectStatement.ofText text = .ok s ∧ (resolveClauses cat s.clauses).1 = .ok axes ∧ q = ofAxes render s axes := by
  cases hs : SelectStatement.ofText text with
  | error e =>
    rw [ofText, hs] at h
    nomatch h
  | ok s =>
    rw [ofText_eq cat render hs] at h
    cases haxes : (resolveClauses cat s.clauses).1 with
    | error e =>
      rw [haxes] at h
      nomatch h
    | ok axes =>
      rw [haxes] at h
      exact ⟨s, axes, rfl, haxes, (Except.ok.inj h).symm⟩

/-- The axes of clauses are named as the clauses say, and each is that on which some set is put. -/
theorem spec_of_resolveClauses {cat : Catalog} {cs : List AxisClause} {axes : List (AxisName × Axis)}
    (h : (resolveClauses cat cs).1 = .ok axes) :
    axes.map (·.1) = cs.map (·.axis) ∧ ∀ a ∈ axes, ∃ set, cat.resolveAxis set = .ok a.2 := by
  induction cs generalizing axes with
  | nil =>
    obtain rfl := Except.ok.inj h
    exact ⟨rfl, fun a ha => absurd ha List.not_mem_nil⟩
  | cons c cs ih =>
    rw [resolveClauses_cons] at h
    obtain ⟨axis, haxis, h⟩ := bind_eq_ok h
    cases hrest : (resolveClauses cat cs).1 with
    | error e =>
      rw [hrest] at h
      nomatch h
    | ok rest =>
      rw [hrest] at h
      obtain rfl := Except.ok.inj h
      obtain ⟨hnames, hall⟩ := ih hrest
      exact ⟨by rw [List.map_cons, List.map_cons, hnames], List.forall_mem_cons.2 ⟨⟨c.set, haxis⟩, hall⟩⟩

/-- The axes of a query that is read are those on which the sets of its clauses are put. -/
theorem exists_resolveAxis {cat : Catalog} {render : RenderOptions} {text : String} {q : Query}
    (h : (ofText cat render text).1 = .ok q) {name : AxisName} {axis : Axis} (ha : q.axes name = some axis) :
    ∃ set, cat.resolveAxis set = .ok axis := by
  obtain ⟨s, axes, -, haxes, rfl⟩ := exists_of_ofText_eq_ok h
  obtain ⟨before, after, heq, -⟩ := List.lookup_eq_some_iff.1 ha
  have hmem : (name, axis) ∈ axes := by
    rw [heq]
    exact List.mem_append_right before List.mem_cons_self
  exact (spec_of_resolveClauses haxes).2 _ hmem

/-- What clauses resolve to over an interrupted catalog. -/
theorem failStop_resolveClauses (down : CatalogCall → Option String) (cat : Catalog) (cs : List AxisClause) :
    FailStop down (resolveClauses (cat.interrupted down) cs).1 (resolveClauses cat cs).1 := by
  induction cs with
  | nil => exact FailStop.refl _
  | cons c cs ih =>
    rw [resolveClauses_cons, resolveClauses_cons]
    exact (cat.failStop_resolveAxis down c.set).bind fun axis => ih.map _

/-- What a text is read as over an interrupted catalog. -/
theorem failStop_ofText (down : CatalogCall → Option String) (cat : Catalog) (render : RenderOptions) (text : String) :
    FailStop down (ofText (cat.interrupted down) render text).1 (ofText cat render text).1 := by
  cases hs : SelectStatement.ofText text with
  | error e =>
    rw [ofText, ofText, hs]
    exact FailStop.refl _
  | ok s =>
    rw [ofText_eq _ render hs, ofText_eq cat render hs]
    exact (failStop_resolveClauses down cat s.clauses).map _

/-! ## Changing -/

/-- The query after changes that are asked for one after the other; one that fails leaves it as it is. -/
def changeAll (q : Query) (cat : Catalog) (rs : List Request) : Query :=
  rs.foldl (fun q r => (q.change cat r.options r.axis r.mutation).query) q

/-- The last of several changes is made after the others. -/
theorem changeAll_append_singleton (q : Query) (cat : Catalog) (rs : List Request) (r : Request) :
    q.changeAll cat (rs ++ [r]) = ((q.changeAll cat rs).change cat r.options r.axis r.mutation).query := by
  rw [changeAll, List.foldl_append]
  rfl

/-- A change fails and leaves the query as it is, or puts what comes of the mutation in the place of the axis. -/
theorem change_cases (q : Query) (cat : Catalog) (o : Options) (name : AxisName) (m : Mutation) :
    ((q.change cat o name m).failure ≠ none ∧ (q.change cat o name m).query = q) ∨
      ∃ axis, (m.run cat o.hierarchize [] ((q.axes name).getD {})).result = .ok axis ∧
        (q.change cat o name m).failure = none ∧ (q.change cat o name m).query = q.replaceAxis name axis := by
  unfold change
  cases hr : (m.run cat o.hierarchize [] ((q.axes name).getD {})).result with
  | error e => exact Or.inl ⟨by simp only [hr, ne_eq, reduceCtorEq, not_false_eq_true], by simp only [hr]⟩
  | ok axis => exact Or.inr ⟨axis, rfl, by simp only [hr], by simp only [hr]⟩

/-- What holds of the axes of a query and of the axis that is put in the place of one holds of the axes afterwards. -/
theorem forall_axes_replaceAxis {q : Query} {name : AxisName} {axis : Axis} {P : Axis → Prop} (haxis : P axis)
    (hq : ∀ name axis, q.axes name = some axis → P axis) :
    ∀ name' axis', (q.replaceAxis name axis).axes name' = some axis' → P axis' := by
  intro name' axis' ha
  change (if name' = name then some axis else q.axes name') = some axis' at ha
  split at ha
  · obtain rfl := Option.some.inj ha
    exact haxis
  · exact hq name' axis' ha

/-- How a query is written stays as it was settled when it was read. -/
theorem render_changeAll (q : Query) (cat : Catalog) (rs : List Request) : (q.changeAll cat rs).render = q.render := by
  unfold changeAll
  induction rs generalizing q with
  | nil => rfl
  | cons r rs ih =>
    rw [List.foldl_cons, ih]
    rcases q.change_cases cat r.options r.axis r.mutation with ⟨-, h⟩ | ⟨axis, -, -, h⟩
    · rw [h]
    · rw [h]
      rfl

end Query

namespace Outline

variable {o : Outline}

/-- An axis of which the set is sound. -/
def Carries (o : Outline) (axis : Axis) : Prop := ∃ t, axis.tuples? = some t ∧ o.Sound t

/-- The members on such an axis are held. -/
theorem Carries.holds {axis : Axis} (h : o.Carries axis) : ∀ m ∈ axis.members, o.Holds m := by
  obtain ⟨t, ht, hs⟩ := h
  rw [Axis.members, Axis.memberSets_of_tuples? ht]
  exact hs.holds

/-- An axis on which a set is put that resolves is such an axis. -/
theorem Consistent.carries_of_resolveAxis (hc : Consistent o) {set : SetExpr} {axis : Axis}
    (h : o.catalog.resolveAxis set = .ok axis) : o.Carries axis := by
  obtain ⟨t, ht, h⟩ := bind_eq_ok h
  obtain rfl := Except.ok.inj h
  exact ⟨t, Axis.tuples?_ofTuples t _, hc.sound_of_resolve set ht⟩

/-- A query on all of whose axes all members are held. -/
def HoldsOn (o : Outline) (q : Query) : Prop := ∀ name axis, q.axes name = some axis → ∀ m ∈ axis.members, o.Holds m

/-- An axis that such a query does not use counts as one without members. -/
theorem HoldsOn.getD {q : Query} (h : o.HoldsOn q) (name : AxisName) : ∀ m ∈ ((q.axes name).getD {}).members, o.Holds m := by
  cases haxis : q.axes name with
  | some axis => exact h name axis haxis
  | none =>
    intro m hm
    rw [Option.getD_none, Axis.members, Axis.memberSets_of_tuples?_eq_none rfl] at hm
    exact absurd hm List.not_mem_nil

/-- A query whose text is written from its axes, which are sound, and that can be read. -/
structure Steady (o : Outline) (q : Query) : Prop where
  text : q.text = q.written
  axes : ∀ name axis, q.axes name = some axis → o.Carries axis
  used : ∃ name axis, q.axes name = some axis
  slicer : ∀ s, q.slicer = some s → ∃ ts, Grammar.IsSlicer ts s

/-- A query that is read is steady. -/
theorem Consistent.steady_of_ofText (hc : Consistent o) {render : RenderOptions} {text : String} {q : Query}
    (h : (Query.ofText o.catalog render text).1 = .ok q) : o.Steady q := by
  have hcarries : ∀ name axis, q.axes name = some axis → o.Carries axis := by
    intro name axis ha
    obtain ⟨set, hset⟩ := Query.exists_resolveAxis h ha
    exact hc.carries_of_resolveAxis hset
  obtain ⟨s, axes, hs, haxes, rfl⟩ := Query.exists_of_ofText_eq_ok h
  obtain ⟨hne, hslicer⟩ := (SelectStatement.isStatement_of_ofText hs).spec
  obtain ⟨hnames, -⟩ := Query.spec_of_resolveClauses haxes
  refine ⟨Query.text_ofAxes render s axes, hcarries, ?_, hslicer⟩
  cases axes with
  | nil => exact absurd (List.map_eq_nil_iff.1 hnames.symm) hne
  | cons a axes =>
    refine ⟨a.1, a.2, ?_⟩
    change List.lookup a.1 (a :: axes) = some a.2
    rw [List.lookup_cons, beq_self_eq_true]

/-- Another axis that is sound in the place of one keeps a query steady. -/
theorem Steady.replaceAxis {q : Query} (h : o.Steady q) {name : AxisName} {axis : Axis} (ha : o.Carries axis) :
    o.Steady (q.replaceAxis name axis) :=
  ⟨rfl, Query.forall_axes_replaceAxis ha h.axes, ⟨name, axis, if_pos rfl⟩, h.slicer⟩

/-- A change keeps a query steady, whether it succeeds or fails. -/
theorem Steady.change {q : Query} (h : o.Steady q) (hc : Consistent o) {m : Mutation} (hm : ∀ l ∈ m.brought, o.HasMembers l)
    (options : Options) (name : AxisName) : o.Steady (q.change o.catalog options name m).query := by
  rcases q.change_cases o.catalog options name m with ⟨-, heq⟩ | ⟨axis, hrun, -, heq⟩
  · rw [heq]
    exact h
  · have hheld : o.HoldsOn q := fun name axis ha => (h.axes name axis ha).holds
    rw [heq]
    exact h.replaceAxis (hc.exists_sound_of_run (hheld.getD name) (fills_of_hasMembers hm _) (remembers_nil o) hrun)

/-- Any number of changes keep a query steady. -/
theorem Steady.changeAll {q : Query} (h : o.Steady q) (hc : Consistent o) {rs : List Request}
    (hr : ∀ r ∈ rs, ∀ l ∈ r.mutation.brought, o.HasMembers l) : o.Steady (q.changeAll o.catalog rs) := by
  unfold Query.changeAll
  induction rs generalizing q with
  | nil => exact h
  | cons r rs ih =>
    obtain ⟨hfirst, hrest⟩ := List.forall_mem_cons.1 hr
    rw [List.foldl_cons]
    exact ih (h.change hc hfirst r.options r.axis) hrest

end Outline

end CubeAxes
