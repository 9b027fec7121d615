import CubeAxes.Placement
import CubeAxes.Query

/-!
# Changes: mutations of the axes of a query

A mutation of one axis either succeeds, and then the query has the new axis and a new text, or fails, and then the query is what
it was. An axis that the query does not use counts as one on which nothing stands. Each change starts without remembered sort
keys. The options decide about the hierarchizing wrapper; how the query is written was settled when it was read.
-/

namespace CubeAxes

/-- The name of a mutation. -/
def Mutation.name : Mutation → String
  | .add .. => "add_level"
  | .remove .. => "remove_level"
  | .place .. => "place_levels"

/-- What a mutation is asked to do with an axis. -/
def Mutation.request (axis : AxisName) : Mutation → String
  | .add level position => axis.text ++ " " ++ level.uniqueName ++ " at " ++ Int.repr position
  | .remove level => axis.text ++ " " ++ level.uniqueName
  | .place levels => axis.text ++ " with " ++ Nat.repr levels.length ++ " levels"

/-- What comes of a change: the query afterwards, why it failed if it did, and what was reported. -/
structure Change where
  query : Query
  failure : Option AxisError
  log : List LogLine

/-- Changes one axis of a query. -/
def Query.change (q : Query) (cat : Catalog) (o : Options) (name : AxisName) (m : Mutation) : Change :=
  let outcome := m.run cat o.hierarchize [] ((q.axes name).getD {})
  let log := ⟨.debug, .axis, "ENTER " ++ m.name ++ " " ++ m.request name⟩ :: outcome.log
  match outcome.result with
  | .ok axis =>
    let q := q.replaceAxis name axis
    { query := q
      failure := none
      log := log ++ [⟨.info, .axis, m.name ++ " on " ++ name.text ++ ": " ++ q.text⟩, ⟨.debug, .axis, "EXIT " ++ m.name⟩] }
  | .error e =>
    { query := q
      failure := some e
      log := log ++ [⟨.warn, .axis, m.name ++ " on " ++ name.text ++ " failed: " ++ e.message⟩] }

end CubeAxes
