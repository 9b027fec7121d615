import CubeAxes.Query.Change
import CubeAxes.Proofs.Query.Steady

/-!
# Reading, asking and changing over an interrupted catalog

A catalog may fail at any of its calls, while members are enumerated, parents are looked up or keys are worked out. Whatever is done
over it, be it that a query is read, that its visible levels are asked for or that it is changed, then comes out as over the catalog
with all its calls, or passes the interruption on (`Catalog.failStop`). So nothing that succeeds was cut short.
-/

namespace CubeAxes

/-- What came of a change: the query afterwards, or why it failed. -/
def Change.result (c : Change) : Except AxisError Query :=
  match c.failure with
  | some e => .error e
  | none => .ok c.query

variable (down : CatalogCall → Option String) (cat : Catalog)

/-- The visible levels of an axis over an interrupted catalog. -/
theorem Axis.failStop_visibleLevels (axis : Axis) :
    FailStop down (axis.visibleLevels (cat.interrupted down)) (axis.visibleLevels cat) :=
  (FailStop.mapM (axis.failStop_visibleLevelsOf down cat) axis.hierarchies).bind fun _ => FailStop.refl _

namespace Query

/-- The visible levels of one of its axes. -/
theorem failStop_visibleLevels (q : Query) (name : AxisName) :
    FailStop down (q.visibleLevels (cat.interrupted down) name) (q.visibleLevels cat name) := by
  unfold visibleLevels
  split
  · next axis _ => exact axis.failStop_visibleLevels down cat
  · exact FailStop.refl _

/-- The visible levels of a hierarchy, on whichever axis it occurs. -/
theorem failStop_visibleLevelsOf (q : Query) (hierarchy : String) :
    FailStop down (q.visibleLevelsOf (cat.interrupted down) hierarchy) (q.visibleLevelsOf cat hierarchy) := by
  unfold visibleLevelsOf
  split
  · next axis _ => exact axis.failStop_visibleLevelsOf down cat hierarchy
  · exact FailStop.refl _

/-- What comes of a change is told from what comes of its mutation. -/
theorem result_change (q : Query) (o : Options) (name : AxisName) (m : Mutation) :
    (q.change cat o name m).result =
      (m.run cat o.hierarchize [] ((q.axes name).getD {})).result.map (q.replaceAxis name) := by
  unfold change
  cases hr : (m.run cat o.hierarchize [] ((q.axes name).getD {})).result with
  | error e =>
    simp only [hr]
    rfl
  | ok axis =>
    simp only [hr]
    rfl

/-- What comes of a change. -/
theorem failStop_change (q : Query) (o : Options) (name : AxisName) (m : Mutation) :
    FailStop down (q.change (cat.interrupted down) o name m).result (q.change cat o name m).result := by
  rw [result_change, result_change]
  exact (m.failStop_run down cat o.hierarchize [] _).map _

end Query

/-- Interrupting any calls of a catalog turns outcomes into interruptions and changes no other: for every text that is read, every set
that is put on an axis, every axis that is asked for its visible levels, every mutation of an axis, whichever keys are remembered, and
every change of a query, what comes of it is what comes of it over the catalog itself, or an interruption. -/
theorem Catalog.failStop :
    (∀ render text,
      FailStop down (Query.ofText (cat.interrupted down) render text).1 (Query.ofText cat render text).1) ∧
    (∀ set, FailStop down ((cat.interrupted down).resolveAxis set) (cat.resolveAxis set)) ∧
    (∀ axis : Axis, FailStop down (axis.visibleLevels (cat.interrupted down)) (axis.visibleLevels cat) ∧
      ∀ hierarchy, FailStop down (axis.visibleLevelsOf (cat.interrupted down) hierarchy) (axis.visibleLevelsOf cat hierarchy)) ∧
    (∀ (m : Mutation) mode keys axis,
      FailStop down (m.run (cat.interrupted down) mode keys axis).result (m.run cat mode keys axis).result) ∧
    ∀ q : Query,
      (∀ name, FailStop down (q.visibleLevels (cat.interrupted down) name) (q.visibleLevels cat name)) ∧
      (∀ hierarchy, FailStop down (q.visibleLevelsOf (cat.interrupted down) hierarchy) (q.visibleLevelsOf cat hierarchy)) ∧
      ∀ o name m, FailStop down (q.change (cat.interrupted down) o name m).result (q.change cat o name m).result :=
  ⟨Query.failStop_ofText down cat, cat.failStop_resolveAxis down,
    fun axis => ⟨axis.failStop_visibleLevels down cat, axis.failStop_visibleLevelsOf down cat⟩,
    fun m => m.failStop_run down cat,
    fun q => ⟨q.failStop_visibleLevels down cat, q.failStop_visibleLevelsOf down cat, q.failStop_change down cat⟩⟩

end CubeAxes
