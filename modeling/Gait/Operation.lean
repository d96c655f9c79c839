import Gait.Axes

/-!
# Histories

The operations that a world with actors goes through, as data, and what a run of them does. Only `assign` changes a motion joint
because it is told to; each of the others finds at most the joint that its actor lacks.
-/

namespace Gait

/-- An operation on a world. -/
inductive Operation where
  /-- A playback is resolved. -/
  | resolve (p : Playback)
  /-- A playback is evaluated. -/
  | evaluate (e : Evaluator) (p : Playback) (s : Settings)
  /-- A sampler is made for a playback. -/
  | sample (p : Playback) (s : Settings)
  /-- A playback is placed in a blend space. -/
  | place (a : Axes) (p : Playback)
  /-- Several playbacks are placed in a blend space. -/
  | placeAll (a : Axes) (ps : List Playback)
  /-- An actor's motion joint is set or cleared. -/
  | assign (actor : Nat) (joint : Option Nat)

/-- What an operation answers. -/
inductive Answer where
  | motion (found : Except ContextError (Motion Float32))
  | value (found : Except AssertionFailure Float32)
  | sampler (made : Except ContextError Sampler)
  | coordinates (found : Except AssertionFailure Coordinates)
  | points (found : Except AssertionFailure (List Coordinates))
  | done

namespace Operation

/-- What an operation does. -/
def run : Operation → Action Answer
  | .resolve p => return .motion (← p.resolve)
  | .evaluate e p s => return .value (← e.evaluate p s)
  | .sample p s => return .sampler (← p.sampler s)
  | .place a p => return .coordinates (← a.coordinates p)
  | .placeAll a ps => return .points (← a.coordinatesAll ps)
  | .assign actor joint => fun w => ⟨.done, w.setMotionJoint actor joint, []⟩

/-- What operations do, one after the other. -/
def runAll : List Operation → Action (List Answer) := Action.each run

end Operation

end Gait
