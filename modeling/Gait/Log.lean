import Gait.Error
import Gait.Binary32.Shortest

/-!
# The log

The lines that operations leave behind for people to read, by what they are about.
-/

namespace Gait

/-- How much a line matters. -/
inductive LogLevel where
  | warn
  | debug
  | trace
  deriving DecidableEq, Repr

/-- The word for a level. -/
def LogLevel.word : LogLevel → String
  | warn => "WARN"
  | debug => "DEBUG"
  | trace => "TRACE"

/-- A line of the log. -/
inductive LogLine where
  /-- A clip names a rate that nothing can be sampled at, and another one is used. -/
  | invalidRate (rate fallback : Float32)
  /-- A clip would need more intervals than are allowed. -/
  | capped (duration rate wanted : Float32) (cap : Nat)
  /-- An evaluator was given a playback that leaves something open. -/
  | unresolved (evaluator : Evaluator) (cause : ContextError)
  /-- The actor with a number and a name had no motion joint and was given one. -/
  | jointChosen (actor : Nat) (name : String) (joint : Nat)
  /-- An evaluator has come to a value. -/
  | value (evaluator : Evaluator) (found : Float32)

namespace LogLine

/-- How much the line matters. -/
def level : LogLine → LogLevel
  | .invalidRate .. | .capped .. | .unresolved .. => .warn
  | .jointChosen .. => .debug
  | .value .. => .trace

/-- The words of the line. -/
def message : LogLine → String
  | .invalidRate rate fallback =>
    "Clip sample rate " ++ Binary32.text rate ++ " is invalid, using " ++ Binary32.text fallback ++ " Hz"
  | .capped duration rate wanted cap =>
    "Sampling " ++ Binary32.text duration ++ "s at " ++ Binary32.text rate ++ " Hz needs " ++ Binary32.text wanted ++
      " intervals, capping at " ++ toString cap
  | .unresolved evaluator cause => evaluator.displayName ++ ": " ++ cause.message
  | .jointChosen _ name joint =>
    "Actor '" ++ name ++ "': using joint JointIndex(" ++ toString joint ++ ") for motion extraction"
  | .value evaluator found => evaluator.displayName ++ " = " ++ Binary32.text found

/-- The line as it is written. -/
def text (line : LogLine) : String := line.level.word ++ " " ++ line.message

end LogLine

end Gait
