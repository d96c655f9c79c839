import Gait.Skeleton
import Gait.Transform

/-!
# Actors

What does not change about a figure: its name, its skeleton and the pose it was built in.
-/

namespace Gait

/-- A figure that clips are played on. The bind pose may have fewer or more entries than the skeleton has joints. -/
structure Actor (α : Type) where
  name : String
  skeleton : Skeleton
  bindPose : Array (Transform α)

namespace Actor

variable {α : Type} [Scalar α]

/-- An actor whose joints are all bound at the identity. -/
def ofSkeleton (name : String) (skeleton : Skeleton) : Actor α :=
  ⟨name, skeleton, Array.replicate skeleton.size Transform.identity⟩

/-- Where a joint is in the bind pose; one without an entry is at the identity. -/
def bindTransform (actor : Actor α) (joint : Nat) : Transform α := actor.bindPose[joint]?.getD Transform.identity

end Actor

end Gait
