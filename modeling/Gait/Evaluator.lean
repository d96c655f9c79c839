/-!
# The evaluators

The features that a motion can be placed by in a blend space, with the names they go by.
-/

namespace Gait

/-- The features of a motion, and the place that is left for one. -/
inductive Evaluator where
  /-- No feature is selected: motions are placed by hand. -/
  | unselected
  /-- The length of the way, per second. -/
  | moveSpeed
  /-- The turns added up, per second. -/
  | turnSpeed
  /-- The direction on the ground from the start to the end, clockwise from the front. -/
  | travelDirection
  /-- The mean angle of climb. -/
  | travelSlope
  /-- The turns added up. -/
  | turnAngle
  /-- The distance from the start to the end. -/
  | travelDistance
  /-- The way made to the right, per second. -/
  | leftRightVelocity
  /-- The way made to the front, per second. -/
  | frontBackVelocity
  deriving DecidableEq, Repr, Inhabited

namespace Evaluator

/-- All evaluators, in the order in which they are offered. -/
def all : List Evaluator :=
  [unselected, moveSpeed, turnSpeed, travelDirection, travelSlope, turnAngle, travelDistance, leftRightVelocity,
    frontBackVelocity]

/-- The name that is shown to people. -/
def displayName : Evaluator → String
  | unselected => "Select an evaluator"
  | moveSpeed => "Move speed"
  | turnSpeed => "Turn speed"
  | travelDirection => "Travel direction"
  | travelSlope => "Travel slope"
  | turnAngle => "Turn angle"
  | travelDistance => "Travel distance"
  | leftRightVelocity => "Left-right velocity"
  | frontBackVelocity => "Front-back velocity"

/-- The name that is stored in files. -/
def tag : Evaluator → String
  | unselected => "None"
  | moveSpeed => "MoveSpeed"
  | turnSpeed => "TurnSpeed"
  | travelDirection => "TravelDirection"
  | travelSlope => "TravelSlope"
  | turnAngle => "TurnAngle"
  | travelDistance => "TravelDistance"
  | leftRightVelocity => "LeftRightVelocity"
  | frontBackVelocity => "FrontBackVelocity"

/-- Whether this is the place left for an evaluator. -/
def isPlaceholder (e : Evaluator) : Bool := e == unselected

/-- Whether the feature is read off all the sampled poses; the others need two poses at most. -/
def isSampled : Evaluator → Bool
  | moveSpeed | turnSpeed | travelSlope | turnAngle | leftRightVelocity | frontBackVelocity => true
  | unselected | travelDirection | travelDistance => false

theorem mem_all (e : Evaluator) : e ∈ all := by cases e <;> decide

end Evaluator

end Gait
