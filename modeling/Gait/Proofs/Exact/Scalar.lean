import Mathlib
import Gait.Quat
import Gait.Vec3

/-!
# Exact arithmetic

Over an ordered field the formulas of the library are exact. The square root, the sine and the two functions of angles stay open:
`Functions` is any choice of them, and what is proved here holds for every choice. Vectors and quaternions have their usual laws
then; over binary32 numbers none of these holds.
-/

namespace Gait

/-- The functions that exact arithmetic leaves open. -/
class Functions (K : Type) where
  sqrt : K → K
  sin : K → K
  arccos : K → K
  atan2 : K → K → K

namespace Exact

variable {K : Type} [Field K] [LinearOrder K] [Functions K]

/-- The numbers of an ordered field as scalars: every numeral and every result is exact. -/
scoped instance (priority := low) instScalar : Scalar K where
  add a b := a + b
  sub a b := a - b
  mul a b := a * b
  div a b := a / b
  neg a := -a
  lt a b := a < b
  le a b := a ≤ b
  ofNat n := n
  ofDecimal m e := m / 10 ^ e
  sqrt := Functions.sqrt
  sin := Functions.sin
  arccos := Functions.arccos
  atan2 := Functions.atan2
  lt_decidable a b := inferInstanceAs (Decidable (a < b))
  le_decidable a b := inferInstanceAs (Decidable (a ≤ b))

/-- Moving two positions by the same offset leaves the way between them. -/
theorem sub_offset (p q s a : Vec3 K) : (p - s + a) - (q - s + a) = p - q := by
  simp only [Vec3.sub_def, Vec3.add_def, Vec3.mk.injEq]
  refine ⟨?_, ?_, ?_⟩ <;> ring

/-! ## Quaternions -/

section Quaternions

variable (l m r q : Quat K)

theorem mul_assoc_quat : l * m * r = l * (m * r) := by
  simp only [Quat.mul_def, Quat.mk.injEq]
  refine ⟨?_, ?_, ?_, ?_⟩ <;> ring

/-- The conjugate of a product is the product of the conjugates the other way round. -/
theorem conj_mul : (l * r).conj = r.conj * l.conj := by
  simp only [Quat.mul_def, Quat.conj, Quat.mk.injEq]
  refine ⟨?_, ?_, ?_, ?_⟩ <;> ring

theorem dot_conj : q.conj.dot q.conj = q.dot q := by
  simp only [Quat.conj, Quat.dot]
  ring

/-- The squares of the lengths are multiplied. -/
theorem dot_mul : (l * r).dot (l * r) = l.dot l * r.dot r := by
  simp only [Quat.mul_def, Quat.dot]
  ring

/-- Multiplying by a quaternion and by its conjugate stretches by the square of its length. -/
theorem mul_mul_conj : l * q * q.conj = l * q.dot q := by
  simp only [Quat.mul_def, Quat.conj, Quat.dot, Quat.scale_def, Quat.mk.injEq]
  refine ⟨?_, ?_, ?_, ?_⟩ <;> ring

variable {q}

/-- What has length one is left alone when it is brought to length one. -/
theorem normalize_of_dot (hsqrt : Functions.sqrt (1 : K) = 1) (h : q.dot q = 1) : q.normalize = q := by
  have hroot : Scalar.sqrt (q.dot q) = 1 := by
    rw [h]
    exact hsqrt
  rw [Quat.normalize, hroot]
  simp only [Quat.shrink_def]
  change (⟨q.x / 1, q.y / 1, q.z / 1, q.w / 1⟩ : Quat K) = q
  simp only [div_one]

/-- The same rotation before two others leaves the turn between them. -/
theorem turn_mul_right (h : q.dot q = 1) : (l * q).turn (r * q) = l.turn r := by
  have hcancel : r * q * q.conj = r := by
    rw [mul_mul_conj, h]
    simp only [Quat.scale_def, mul_one]
  rw [Quat.turn, Quat.turn, conj_mul, ← mul_assoc_quat, hcancel]

end Quaternions

end Exact

end Gait
