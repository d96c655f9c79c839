import Gait.World.Evaluation

/-!
# Blend spaces

A blend space has one axis or two, each with an evaluator. The values of the evaluators for a playback are the coordinates at
which its motion is placed.
-/

namespace Gait

/-- The coordinates of one motion. -/
abbrev Coordinates := List Float32

/-- The evaluators of the axes. -/
inductive AxisLayout where
  | line (x : Evaluator)
  | plane (x y : Evaluator)
  deriving DecidableEq, Repr

/-- The axes of a blend space. -/
structure Axes where
  layout : AxisLayout
  settings : Settings := {}

namespace Axes

/-- The evaluators of the axes, in order. -/
def evaluators (a : Axes) : List Evaluator :=
  match a.layout with
  | .line x => [x]
  | .plane x y => [x, y]

/-- The number of axes. -/
def dimensions (a : Axes) : Nat := a.evaluators.length

/-- A blend space has one axis or two. -/
theorem dimensions_eq_one_or_two (a : Axes) : a.dimensions = 1 ∨ a.dimensions = 2 := by
  cases h : a.layout <;> simp [dimensions, evaluators, h]

/-- The axes with the evaluators given, of which there must be one or two. -/
def ofEvaluators (kinds : List Evaluator) (settings : Settings) : Except Error Axes :=
  match kinds with
  | [x] => .ok ⟨.line x, settings⟩
  | [x, y] => .ok ⟨.plane x y, settings⟩
  | _ => .error (.invalidAxisCount kinds.length)

/-- The axes without an evaluator, along which motions are placed by hand. -/
def manual (a : Axes) : List Nat :=
  (List.range a.dimensions).filter fun k => a.evaluators[k]?.any (·.isPlaceholder)

/-- The coordinates of a playback, from axis to axis. -/
def coordinates (a : Axes) (p : Playback) : Action (Except AssertionFailure Coordinates) :=
  Action.eachUntilError (fun (e : Evaluator) => e.evaluate p a.settings) a.evaluators

/-- The coordinates of each playback, one playback after the other. -/
def coordinatesAll (a : Axes) (ps : List Playback) : Action (Except AssertionFailure (List Coordinates)) :=
  Action.eachUntilError a.coordinates ps

/-! ## Bounds -/

/-- The corner with each coordinate replaced by what `pick` makes of it and the point's; a coordinate past the last axis, or one
that the point has not, stays. -/
def widen (a : Axes) (pick : Float32 → Float32 → Float32) (corner point : Coordinates) : Coordinates :=
  corner.mapIdx fun k c => if k < a.dimensions then (point[k]?.map (pick c)).getD c else c

/-- The least and the greatest corner of the box around some points. -/
def bounds (a : Axes) (points : List Coordinates) : Option (Coordinates × Coordinates) :=
  match points with
  | [] => none
  | first :: rest => some (rest.foldl (a.widen Scalar.min) first, rest.foldl (a.widen Scalar.max) first)

end Axes

end Gait
