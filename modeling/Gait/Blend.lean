import Gait.Vec3
import Gait.Quat

/-!
# Blending between two keys

What lies between two keys of a track: a straight way, or a cubic through the two values with a tangent given at each.
-/

namespace Gait

/-- Values that can be blended: `linear a b t` is the share `t` of the way from `a` to `b`, and `cubic a out into b t dt` the
share `t` of the way along the cubic that leaves `a` with the velocity `out` and reaches `b` with the velocity `into` after `dt`
seconds. -/
class Blend (V : Type) (α : outParam Type) where
  linear (a b : V) (t : α) : V
  cubic (a out into b : V) (t dt : α) : V

/-- The weights of the four ingredients of a cubic: the first value, its tangent, the second value, its tangent. -/
structure Hermite (α : Type) where
  start : α
  leaving : α
  stop : α
  reaching : α

variable {α : Type} [Scalar α]

/-- The weights at the share `t` of the way. -/
def Hermite.at (t : α) : Hermite α :=
  let t2 := t * t
  let t3 := t2 * t
  let stop := -2 * t3 + 3 * t2
  let reaching := t3 - t2
  { start := 1 - stop
    leaving := reaching - t2 + t
    stop
    reaching }

instance Vec3.instBlend : Blend (Vec3 α) α where
  linear := Vec3.lerp
  cubic a out into b t dt :=
    let h := Hermite.at t
    a * h.start + out * (dt * h.leaving) + b * h.stop + into * (dt * h.reaching)

instance Quat.instBlend : Blend (Quat α) α where
  linear := Quat.slerp
  cubic a out into b t dt :=
    let h := Hermite.at t
    (a * h.start + out * (dt * h.leaving) + b * h.stop + into * (dt * h.reaching)).normalize

end Gait
