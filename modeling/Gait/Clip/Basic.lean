import Gait.Actor

/-!
# Clips

A clip is all that the features ask of a piece of motion: how long it is, at how many frames a second it was made, and where it
puts a joint of an actor at a time. Where the frames come from is the business of each kind of clip; `Gait.Clip.Keyframed` and
`Gait.Clip.Baked` are two.
-/

namespace Gait

/-- A piece of motion. -/
structure Clip (α : Type) where
  /-- The length in seconds. -/
  duration : α
  /-- The frames a second. -/
  rate : α
  /-- Where a joint of an actor is at a time, with the motion adapted to the actor's build or as it was made. -/
  pose (actor : Actor α) (joint : Nat) (time : α) (retargeting : Bool) : Transform α

end Gait
