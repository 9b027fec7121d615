import CubeAxes.Proofs.Arena.Shape
import CubeAxes.Proofs.Axis.Alike
import CubeAxes.Proofs.Query.Rereading

/-!
# Changes are atomic

A change is attempted over a catalog some calls of which fail, others at each attempt. If it fails, whichever call struck it, the query
is what it was; if it succeeds, one axis has changed and with it its clause in the text, and the attempt comes out as it would have over
the catalog with all its calls (`Query.Atomic`). The text is at all times the one written from the axes, in the case that was settled
when the query was read (`Query.atomic_attempt`): nothing but the text and the axes is written by an attempt, and on each axis of a
query something stands, so each axis has its clause.
-/

namespace CubeAxes

/-- A change that is asked for, and the catalog that it is made over, of which the calls that `down` gives a reason for fail. -/
structure Attempt where
  request : Request
  catalog : Catalog
  down : CatalogCall → Option String

/-- Something stands on an axis that comes of a mutation. -/
theorem Mutation.isSome_root_of_run {cat : Catalog} {mode : HierarchizeMode} {keys : SortKeys} {axis axis' : Axis} {m : Mutation}
    (h : (m.run cat mode keys axis).result = .ok axis') : axis'.root.isSome = true := by
  rw [m.result_run] at h
  obtain ⟨edit, -, h⟩ := bind_eq_ok h
  obtain ⟨sets, -, hsets⟩ := bind_eq_ok h
  obtain ⟨-, -, -, root, hroot, -⟩ := Axis.shape_of_ofSets hsets
  exact Option.isSome_iff_exists.2 ⟨root, hroot⟩

namespace Query

/-- What comes of an attempt. -/
def attempt (q : Query) (a : Attempt) : Change :=
  q.change (a.catalog.interrupted a.down) a.request.options a.request.axis a.request.mutation

/-- The query after attempts made one after the other. -/
def attemptAll (q : Query) (as : List Attempt) : Query := as.foldl (fun q a => (q.attempt a).query) q

/-- The clause of an axis as it is written. -/
def clauseText? (q : Query) (name : AxisName) : Option String :=
  (q.axes name).map fun axis => axis.text q.render ++ " ON " ++ name.text

/-- The statement that consists of the clauses of all axes by ordinal, the cube, and the restriction. -/
def statementText (q : Query) : String :=
  "SELECT " ++ String.intercalate ", " (AxisName.all.filterMap q.clauseText?) ++ " FROM " ++ bracketed q.cube ++
    restrictionText q.slicer

/-- What an attempt does with a query: nothing, or one axis has changed. -/
structure Atomic (q : Query) (a : Attempt) : Prop where
  text : (q.attempt a).query.text = (q.attempt a).query.written
  kept : (q.attempt a).failure ≠ none → (q.attempt a).query = q
  behind : (∃ e, Interruption a.down e ∧ (q.attempt a).failure = some e) ∨
    (q.attempt a).failure = (q.change a.catalog a.request.options a.request.axis a.request.mutation).failure ∧
      (q.attempt a).query = (q.change a.catalog a.request.options a.request.axis a.request.mutation).query
  changed : (q.attempt a).failure = none →
    (∃ axis, (a.request.mutation.run a.catalog a.request.options.hierarchize [] ((q.axes a.request.axis).getD {})).result = .ok axis ∧
      (q.attempt a).query.axes a.request.axis = some axis) ∧
    (∀ other, other ≠ a.request.axis →
      (q.attempt a).query.axes other = q.axes other ∧ (q.attempt a).query.clauseText? other = q.clauseText? other) ∧
    (q.attempt a).query.cube = q.cube ∧ (q.attempt a).query.slicer = q.slicer ∧ (q.attempt a).query.render = q.render ∧
    q.text = q.statementText ∧ (q.attempt a).query.text = (q.attempt a).query.statementText

/-! ## The invariant -/

/-- A query that is written in the case settled for it, with something on each of its axes. -/
structure Kept (render : RenderOptions) (q : Query) : Prop where
  text : q.text = q.written
  stands : ∀ name axis, q.axes name = some axis → axis.root.isSome = true
  render : q.render = render

variable {render : RenderOptions} {q : Query}

/-- A query that is read is such a query. -/
theorem kept_of_ofText {cat : Catalog} {text : String} (h : (ofText cat render text).1 = .ok q) : q.Kept render := by
  have hstands : ∀ name axis, q.axes name = some axis → axis.root.isSome = true := by
    intro name axis ha
    obtain ⟨set, hset⟩ := exists_resolveAxis h ha
    obtain ⟨t, -, hset⟩ := bind_eq_ok hset
    obtain rfl := Except.ok.inj hset
    rfl
  obtain ⟨s, axes, -, -, rfl⟩ := exists_of_ofText_eq_ok h
  exact ⟨text_ofAxes render s axes, hstands, rfl⟩

/-- The text of such a query is the statement that consists of its clauses. -/
theorem Kept.text_eq (h : q.Kept render) : q.text = q.statementText := by
  rw [h.text, written_eq h.stands, statementText, axisList, List.map_filterMap]
  simp only [Option.map_map, Function.comp_def]
  rfl

/-- An attempt leaves such a query as such, whether it succeeds or fails. -/
theorem Kept.attempt (h : q.Kept render) (a : Attempt) : (q.attempt a).query.Kept render := by
  rcases q.change_cases (a.catalog.interrupted a.down) a.request.options a.request.axis a.request.mutation with
    ⟨-, heq⟩ | ⟨axis, hrun, -, heq⟩
  · rw [Query.attempt, heq]
    exact h
  · rw [Query.attempt, heq]
    exact ⟨rfl, forall_axes_replaceAxis (Mutation.isSome_root_of_run hrun) h.stands, h.render⟩

/-- So do any number of attempts. -/
theorem Kept.attemptAll (h : q.Kept render) (as : List Attempt) : (q.attemptAll as).Kept render := by
  unfold Query.attemptAll
  induction as generalizing q with
  | nil => exact h
  | cons a as ih => exact ih (h.attempt a)

/-! ## Attempts -/

/-- An attempt comes out as the change does over the catalog with all its calls, or is interrupted and changes nothing. -/
theorem attempt_cases (q : Query) (a : Attempt) :
    ((∃ e, Interruption a.down e ∧ (q.attempt a).failure = some e) ∧ (q.attempt a).query = q) ∨
      (q.attempt a).failure = (q.change a.catalog a.request.options a.request.axis a.request.mutation).failure ∧
        (q.attempt a).query = (q.change a.catalog a.request.options a.request.axis a.request.mutation).query := by
  unfold Query.attempt change
  rcases a.request.mutation.failStop_run a.down a.catalog a.request.options.hierarchize [] ((q.axes a.request.axis).getD {}) with
    heq | ⟨e, he, heq⟩
  · simp only [heq]
    refine Or.inr ⟨?_, ?_⟩ <;> split <;> rfl
  · refine Or.inl ⟨⟨e, he, ?_⟩, ?_⟩ <;> simp only [heq]

/-- An attempt on a query that is written as settled is atomic. -/
theorem Kept.atomic (h : q.Kept render) (a : Attempt) : q.Atomic a := by
  have hafter := h.attempt a
  refine ⟨hafter.text, fun hfail => ?_, (q.attempt_cases a).imp_left And.left, fun hok => ?_⟩
  · rcases q.change_cases (a.catalog.interrupted a.down) a.request.options a.request.axis a.request.mutation with
      ⟨-, heq⟩ | ⟨-, -, hok, -⟩
    · exact heq
    · exact absurd hok hfail
  · rcases q.change_cases (a.catalog.interrupted a.down) a.request.options a.request.axis a.request.mutation with
      ⟨hfail, -⟩ | ⟨axis, hrun, -, heq⟩
    · exact absurd hok hfail
    have hbehind := (a.request.mutation.failStop_run a.down a.catalog a.request.options.hierarchize [] _).eq_ok hrun
    have htext := hafter.text_eq
    rw [Query.attempt, heq] at htext ⊢
    refine ⟨⟨axis, hbehind, if_pos rfl⟩, fun other hother => ?_, rfl, rfl, rfl, h.text_eq, htext⟩
    have hsame : (q.replaceAxis a.request.axis axis).axes other = q.axes other := if_neg hother
    exact ⟨hsame, by rw [clauseText?, hsame]; rfl⟩

/-- Whatever was attempted since a query was read, over catalogs any calls of which failed, its text is the one written from its axes
in the case that was settled when it was read, and the next attempt is atomic. -/
theorem atomic_attempt {cat : Catalog} {text : String} (hq : (ofText cat render text).1 = .ok q) (done : List Attempt) (a : Attempt) :
    (q.attemptAll done).text = (q.attemptAll done).written ∧ (q.attemptAll done).render = render ∧
      (q.attemptAll done).Atomic a := by
  have hkept := (kept_of_ofText hq).attemptAll done
  exact ⟨hkept.text, hkept.render, hkept.atomic a⟩

end Query

namespace Outline

/-- Departments are put on the columns of the small cube, while some calls fail. -/
def sampleAttempt (down : CatalogCall → Option String) : Attempt :=
  ⟨⟨.columns, .add ⟨"Product", "Department", 2⟩ (-1), {}⟩, sample.catalog, down⟩

/-- No member is found. -/
def sampleOutage : CatalogCall → Option String
  | .member _ => some "timeout"
  | _ => none

/-- The departments are enumerated and then no parent of theirs is found, which leaves the query; made again the attempt succeeds. -/
theorem sample_atomic_attempt :
    ∃ q, (Query.ofText sample.catalog ⟨.upper⟩ sampleText).1 = .ok q ∧
      (q.attempt (sampleAttempt sampleOutage)).failure ≠ none ∧ (q.attempt (sampleAttempt sampleOutage)).query = q ∧
      ((q.attemptAll [sampleAttempt sampleOutage]).attempt (sampleAttempt fun _ => none)).failure = none ∧
      ((q.attemptAll [sampleAttempt sampleOutage]).attempt (sampleAttempt fun _ => none)).query.clauseText? .rows =
        q.clauseText? .rows := by
  have hruns : (Query.ofText sample.catalog ⟨.upper⟩ sampleText).1.toOption.any (fun q =>
      (q.attempt (sampleAttempt sampleOutage)).failure.isSome &&
        ((q.attemptAll [sampleAttempt sampleOutage]).attempt (sampleAttempt fun _ => none)).failure.isNone) = true := by
    decide +kernel
  obtain ⟨q, hq, hruns⟩ := exists_of_any_toOption hruns
  simp only [Bool.and_eq_true, Option.isSome_iff_ne_none, Option.isNone_iff_eq_none] at hruns
  obtain ⟨hfail, hok⟩ := hruns
  have hkept := (Query.atomic_attempt hq [] (sampleAttempt sampleOutage)).2.2.kept hfail
  have hrows := (((Query.atomic_attempt hq [sampleAttempt sampleOutage] (sampleAttempt fun _ => none)).2.2.changed hok).2.1
    .rows (by decide)).2
  exact ⟨q, hq, hfail, hkept, hok, hrows.trans (congrArg (·.clauseText? .rows) hkept)⟩

end Outline

end CubeAxes
