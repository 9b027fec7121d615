/-!
# Log lines: what is reported while a query is read and changed

A line has a severity, a topic by which a host can filter, and a text. The library writes no log: it gives the lines back with
the result.
-/

namespace CubeAxes

/-- How much a line matters. -/
inductive Severity where
  | debug | info | warn
  deriving DecidableEq, Repr

/-- The name of a severity. -/
def Severity.name : Severity → String
  | .debug => "DEBUG"
  | .info => "INFO"
  | .warn => "WARN"

/-- What a line is about: changing an axis, or reading a query. -/
inductive Topic where
  | axis | parse
  deriving DecidableEq, Repr

/-- The name of a topic. -/
def Topic.name : Topic → String
  | .axis => "AXIS"
  | .parse => "PARSE"

/-- A line of the log. -/
structure LogLine where
  severity : Severity
  topic : Topic
  text : String
  deriving DecidableEq, Repr

end CubeAxes
