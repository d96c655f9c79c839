import Gait.Scalar

/-!
# Quaternions

Rotations of a joint, as four components of which the last is the real part. Nothing requires a quaternion to have length one.
Turning is measured about the third axis, which points up, and is counted positive clockwise.
-/

namespace Gait

/-- A quaternion. -/
structure Quat (α : Type) where
  x : α
  y : α
  z : α
  w : α
  deriving DecidableEq, Repr

namespace Quat

variable {α : Type} [Scalar α]

/-! ## Arithmetic by components -/

instance : Add (Quat α) := ⟨fun a b => ⟨a.x + b.x, a.y + b.y, a.z + b.z, a.w + b.w⟩⟩

instance : HMul (Quat α) α (Quat α) := ⟨fun q s => ⟨q.x * s, q.y * s, q.z * s, q.w * s⟩⟩

instance : HDiv (Quat α) α (Quat α) := ⟨fun q s => ⟨q.x / s, q.y / s, q.z / s, q.w / s⟩⟩

@[simp] theorem add_def (a b : Quat α) : a + b = ⟨a.x + b.x, a.y + b.y, a.z + b.z, a.w + b.w⟩ := rfl

@[simp] theorem scale_def (q : Quat α) (s : α) : q * s = ⟨q.x * s, q.y * s, q.z * s, q.w * s⟩ := rfl

@[simp] theorem shrink_def (q : Quat α) (s : α) : q / s = ⟨q.x / s, q.y / s, q.z / s, q.w / s⟩ := rfl

/-- The rotation that leaves everything in place. -/
def identity : Quat α := ⟨0, 0, 0, 1⟩

/-- The sum of the products of the components, paired first with third and second with last. -/
def dot (a b : Quat α) : α := (a.x * b.x + a.z * b.z) + (a.y * b.y + a.w * b.w)

/-- The quaternion of length one in the same direction. -/
def normalize (q : Quat α) : Quat α := q / Scalar.sqrt (q.dot q)

/-- The quaternion with its imaginary part negated: for one of length one, the rotation back. -/
def conj (q : Quat α) : Quat α := ⟨-q.x, -q.y, -q.z, q.w⟩

/-! ## The product -/

/-- The product of quaternions: the rotation `r` followed by the rotation `l`. Each component is the sum of two sums of two
products, the real part of `l` first. -/
instance : Mul (Quat α) where
  mul l r :=
    { x := (l.w * r.x + l.x * r.w) + (l.y * r.z + l.z * -r.y)
      y := (l.w * r.y + l.x * -r.z) + (l.y * r.w + l.z * r.x)
      z := (l.w * r.z + l.x * r.y) + (l.y * -r.x + l.z * r.w)
      w := (l.w * r.w + l.x * -r.x) + (l.y * -r.y + l.z * -r.z) }

theorem mul_def (l r : Quat α) : l * r =
    ⟨(l.w * r.x + l.x * r.w) + (l.y * r.z + l.z * -r.y), (l.w * r.y + l.x * -r.z) + (l.y * r.w + l.z * r.x),
      (l.w * r.z + l.x * r.y) + (l.y * -r.x + l.z * r.w), (l.w * r.w + l.x * -r.x) + (l.y * -r.y + l.z * -r.z)⟩ :=
  rfl

/-! ## The way from one rotation to another -/

/-- The cosine above which two rotations count as near: one minus two to the power minus twenty-three. -/
def nearCosine : α := 1 - 1 / (2048 * 4096)

/-- The rotation that lies the share `s` of the way from `a` to `b` along the arc between them, the shorter of the two that the
sign of `b` allows; between near rotations, along the chord. -/
def slerp (a b : Quat α) (s : α) : Quat α :=
  let cosine := a.dot b
  let opposed := cosine < 0
  let b := if opposed then b * (-1 : α) else b
  let cosine := if opposed then -cosine else cosine
  if nearCosine < cosine then
    (a * (1 - s) + b * s).normalize
  else
    let angle := Scalar.arccos cosine
    (a * Scalar.sin (angle * (1 - s)) + b * Scalar.sin (angle * s)) / Scalar.sin angle

/-! ## Turning -/

/-- The angle of a rotation about the upward axis, counter-clockwise. -/
def yaw (q : Quat α) : α :=
  Scalar.atan2 (2 * (q.x * q.y + q.z * q.w)) (1 - 2 * (q.y * q.y + q.z * q.z))

/-- The turn from one rotation to the next about the upward axis, clockwise. -/
def turn (previous current : Quat α) : α := -(current * previous.conj).yaw

end Quat

end Gait
