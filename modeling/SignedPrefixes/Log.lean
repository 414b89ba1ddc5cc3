/-!
# Log lines

Processing and merging say what they do in lines of a log. The lines are part of
their results.
-/

namespace SignedPrefixes

/-- How much a log line matters. -/
inductive LogLevel where
  | warn
  | debug
  | trace
  deriving DecidableEq, Repr

instance : ToString LogLevel where
  toString
    | .warn => "WARN"
    | .debug => "DEBUG"
    | .trace => "TRACE"

/-- A line of a log. -/
structure LogLine where
  /-- How much the line matters. -/
  level : LogLevel
  /-- What the line says. -/
  message : String
  deriving DecidableEq, Repr

instance : ToString LogLine := ⟨fun l => toString l.level ++ " " ++ l.message⟩

end SignedPrefixes
