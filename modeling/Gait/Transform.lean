import Gait.Vec3
import Gait.Quat

/-!
# Where a joint is
-/

namespace Gait

/-- The position and the rotation of one joint at one instant. -/
structure Transform (α : Type) where
  position : Vec3 α
  rotation : Quat α
  deriving DecidableEq, Repr

namespace Transform

variable {α : Type} [Scalar α]

/-- At the origin, without rotation. -/
def identity : Transform α := ⟨Vec3.zero, Quat.identity⟩

/-- At a position, without rotation. -/
def ofPosition (p : Vec3 α) : Transform α := ⟨p, Quat.identity⟩

/-- At the origin, with a rotation. -/
def ofRotation (r : Quat α) : Transform α := ⟨Vec3.zero, r⟩

end Transform

end Gait
