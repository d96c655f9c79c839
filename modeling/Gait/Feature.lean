import Gait.Sampling.Plan
import Gait.Evaluator

/-!
# Features

Each feature of a motion as a formula: of the sampled poses in order, or of the two poses at the start and the end.
`Evaluator.measure` says which evaluator is which formula, and that a motion without a positive duration has only zeros.
-/

namespace Gait

variable {α : Type} [Scalar α]

/-! ## Over the sampled poses -/

/-- The length of the way through the poses. -/
def pathLength (poses : List (Transform α)) : α :=
  Scalar.sum ((steps poses).map fun (previous, current) => (current.position - previous.position).length)

/-- The turns from pose to pose added up. -/
def totalTurn (poses : List (Transform α)) : α :=
  Scalar.sum ((steps poses).map fun (previous, current) => previous.rotation.turn current.rotation)

/-- The way made along an axis. -/
def distanceAlong (axis : Vec3 α) (poses : List (Transform α)) : α :=
  Scalar.sum ((steps poses).map fun (previous, current) => (current.position - previous.position).dot axis)

/-- What is known of the slope so far: the last position that counted, and the sum and the number of the angles of climb. -/
structure Climb (α : Type) where
  anchor : Vec3 α
  total : α
  count : Nat

/-- One more position. It counts if it is away from the last one that did, as seen from above; a position straight above or
below that one is passed over. -/
def Climb.add (climb : Climb α) (position : Vec3 α) : Climb α :=
  let step := position - climb.anchor
  let ground := step.groundLength
  if 0 < ground then ⟨position, climb.total + Scalar.atan2 step.z ground, climb.count + 1⟩ else climb

/-- The mean angle of climb; zero if no position counts after the first. -/
def meanSlope (poses : List (Transform α)) : α :=
  match poses with
  | [] => 0
  | first :: rest =>
    let climb := (rest.map (·.position)).foldl Climb.add ⟨first.position, 0, 0⟩
    if climb.count = 0 then 0 else climb.total / Scalar.ofNat climb.count

/-! ## From the start to the end -/

/-- The straight way from where a motion starts to where it is at its end. -/
def displacement (duration : α) (pose : α → Transform α) : Vec3 α := (pose duration).position - (pose 0).position

/-! ## The evaluators -/

/-- The value of a feature for the motion that is at `pose t` at the time `t`, sampled as planned. -/
def Evaluator.measure (e : Evaluator) (duration : α) (plan : Plan α) (pose : α → Transform α) : α :=
  if 0 < duration then
    match e with
    | unselected => 0
    | moveSpeed => pathLength (plan.poses pose) / duration
    | turnSpeed => totalTurn (plan.poses pose) / duration
    | travelDirection => let d := displacement duration pose; Scalar.atan2 d.x d.y
    | travelSlope => meanSlope (plan.poses pose)
    | turnAngle => totalTurn (plan.poses pose)
    | travelDistance => (displacement duration pose).length
    | leftRightVelocity => distanceAlong Vec3.right (plan.poses pose) / duration
    | frontBackVelocity => distanceAlong Vec3.front (plan.poses pose) / duration
  else 0

end Gait
