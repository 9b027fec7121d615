import CubeAxes.Json

/-!
# Options: how a changed axis is written back

Options say what becomes of the hierarchizing wrapper of an axis that is changed, and in which case functions are written. They
are read from JSON, from an object or from an array of the values in order: a field that is missing has its default, a field that
is not known is passed over, and a field that is repeated, or whose value is none of its choices, makes the whole unreadable.
-/

namespace CubeAxes

/-- What becomes of the hierarchizing wrapper of an axis that is changed: kept as it is, always put there, or never. -/
inductive HierarchizeMode where
  | preserve | always | never
  deriving DecidableEq, Repr

/-- Whether an axis that is changed is wrapped, given whether it was. -/
def HierarchizeMode.apply : HierarchizeMode → Bool → Bool
  | .preserve, previous => previous
  | .always, _ => true
  | .never, _ => false

/-- How the names of functions are written. -/
inductive FunctionCase where
  | pascal | upper
  deriving DecidableEq, Repr

/-- How an axis is written. -/
structure RenderOptions where
  functionCase : FunctionCase := .pascal
  deriving DecidableEq, Repr

/-- How a changed axis is written back. -/
structure Options where
  hierarchize : HierarchizeMode := .preserve
  render : RenderOptions := {}
  deriving DecidableEq, Repr

/-- The names of the modes. -/
def HierarchizeMode.names : List (String × HierarchizeMode) :=
  [("Preserve", preserve), ("Always", always), ("Never", never)]

/-- The names of the cases. -/
def FunctionCase.names : List (String × FunctionCase) := [("Pascal", pascal), ("Upper", upper)]

/-- The name of a mode. -/
def HierarchizeMode.name : HierarchizeMode → String
  | .preserve => "Preserve"
  | .always => "Always"
  | .never => "Never"

/-- The name of a case. -/
def FunctionCase.name : FunctionCase → String
  | .pascal => "Pascal"
  | .upper => "Upper"

/-- The options for writing that a JSON value describes. -/
def RenderOptions.ofJson? (value : Json) : Option RenderOptions := do
  let fields ← value.fields? ["function_case"]
  let functionCase ← Json.readField "function_case" (Json.choice? FunctionCase.names) .pascal fields
  return { functionCase }

namespace Options

/-- The options that a JSON value describes. -/
def ofJson? (value : Json) : Option Options := do
  let fields ← value.fields? ["hierarchize", "render"]
  let hierarchize ← Json.readField "hierarchize" (Json.choice? HierarchizeMode.names) .preserve fields
  let render ← Json.readField "render" RenderOptions.ofJson? {} fields
  return { hierarchize, render }

/-- The options that a JSON text describes. -/
def ofText? (text : String) : Option Options := (Json.ofText? text).bind ofJson?

/-- Options as a JSON text. -/
def text (o : Options) : String :=
  "\x7b\"hierarchize\":\"" ++ o.hierarchize.name ++ "\",\"render\":\x7b\"function_case\":\"" ++
    o.render.functionCase.name ++ "\"\x7d\x7d"

end Options

end CubeAxes
