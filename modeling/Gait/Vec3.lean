import Gait.Scalar

/-!
# Vectors of three components

Positions and displacements. The third axis points up; the first two span the ground.
-/

namespace Gait

/-- A vector of three components. -/
structure Vec3 (α : Type) where
  x : α
  y : α
  z : α
  deriving DecidableEq, Repr

namespace Vec3

variable {α : Type} [Scalar α]

instance : Add (Vec3 α) := ⟨fun a b => ⟨a.x + b.x, a.y + b.y, a.z + b.z⟩⟩

instance : Sub (Vec3 α) := ⟨fun a b => ⟨a.x - b.x, a.y - b.y, a.z - b.z⟩⟩

instance : HMul (Vec3 α) α (Vec3 α) := ⟨fun v s => ⟨v.x * s, v.y * s, v.z * s⟩⟩

@[simp] theorem add_def (a b : Vec3 α) : a + b = ⟨a.x + b.x, a.y + b.y, a.z + b.z⟩ := rfl

@[simp] theorem sub_def (a b : Vec3 α) : a - b = ⟨a.x - b.x, a.y - b.y, a.z - b.z⟩ := rfl

@[simp] theorem scale_def (v : Vec3 α) (s : α) : v * s = ⟨v.x * s, v.y * s, v.z * s⟩ := rfl

/-- The vector without length. -/
def zero : Vec3 α := ⟨0, 0, 0⟩

/-- The unit vector to the right. -/
def right : Vec3 α := ⟨1, 0, 0⟩

/-- The unit vector to the front. -/
def front : Vec3 α := ⟨0, 1, 0⟩

/-- The sum of the products of the components, from the first to the third; a product with a zero counts as well. -/
def dot (a b : Vec3 α) : α := a.x * b.x + a.y * b.y + a.z * b.z

/-- The length of a vector. -/
def length (v : Vec3 α) : α := Scalar.sqrt (v.dot v)

/-- The length of the part of a vector that lies on the ground. -/
def groundLength (v : Vec3 α) : α := Scalar.sqrt (v.x * v.x + v.y * v.y)

/-- The point that lies the share `s` of the way from `a` to `b`. -/
def lerp (a b : Vec3 α) (s : α) : Vec3 α := a * (1 - s) + b * s

end Vec3

end Gait
