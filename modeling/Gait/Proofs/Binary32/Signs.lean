import Gait.Proofs.Binary32.Zeros

/-!
# Rounding does not see the sign

A real number and its negative are rounded to numbers of opposite values. So a formula of sums and products whose terms change
their signs together gives the value it gave, under a sign, however much is rounded on the way; and two such values of opposite
signs cancel to a zero.
-/

namespace Gait

namespace Binary32

open Float.Model.UnpackedFloat (Sign)

/-- Two finite numbers of which the second has the value of the first under a sign. -/
structure Mirrored (s : Sign) (x x' : Float32) : Prop where
  left : x.isFinite = true
  right : x'.isFinite = true
  value_eq : toReal x' = unit s * toReal x

section Mirror

variable {r : ℝ} {s t : Sign} {x x' y y' z z' : Float32}

theorem mirrored_self (hx : x.isFinite = true) : Mirrored .positive x x := ⟨hx, hx, by simp [unit]⟩

theorem mirrored_neg (hx : x.isFinite = true) : Mirrored .negative x (-x) :=
  ⟨hx, by rw [neg_isFinite]; exact hx, by simp [unit]⟩

/-- What is rounded from a real number under a sign. -/
theorem Rounded.mirrored (h : Rounded z r) (h' : Rounded z' (unit s * r)) (hz : z.isFinite = true) : Mirrored s z z' := by
  have hval := h.toReal_eq hz
  have hle : |nearest (unit s * r)| ≤ largest := by
    have hunit : |(unit s : ℝ)| = 1 := by exact_mod_cast abs_unit s
    rw [nearest_unit_mul, abs_mul, hunit, one_mul, ← hval]
    exact abs_toReal_le z
  obtain ⟨hfin, hval'⟩ := h'.finite hle
  exact ⟨hz, hfin, by rw [hval', nearest_unit_mul, hval]⟩

theorem Mirrored.neg (h : Mirrored s x x') : Mirrored s (-x) (-x') := by
  refine ⟨by rw [neg_isFinite]; exact h.left, by rw [neg_isFinite]; exact h.right, ?_⟩
  rw [toReal_neg, toReal_neg, h.value_eq, mul_neg]

/-- Two sums whose terms add up to real numbers of the same magnitude. -/
theorem mirrored_add (hx : x.isFinite = true) (hy : y.isFinite = true) (hx' : x'.isFinite = true) (hy' : y'.isFinite = true)
    (h : toReal x' + toReal y' = unit s * (toReal x + toReal y)) (hfin : (x + y).isFinite = true) :
    Mirrored s (x + y) (x' + y') := by
  have hround := rounded_add hx' hy'
  rw [h] at hround
  exact (rounded_add hx hy).mirrored hround hfin

/-- Two products whose factors have real products of the same magnitude. -/
theorem mirrored_mul (hx : x.isFinite = true) (hy : y.isFinite = true) (hx' : x'.isFinite = true) (hy' : y'.isFinite = true)
    (h : toReal x' * toReal y' = unit s * (toReal x * toReal y)) (hfin : (x * y).isFinite = true) :
    Mirrored s (x * y) (x' * y') := by
  have hround := rounded_mul hx' hy'
  rw [h] at hround
  exact (rounded_mul hx hy).mirrored hround hfin

theorem Mirrored.add (hx : Mirrored s x x') (hy : Mirrored s y y') (hfin : (x + y).isFinite = true) :
    Mirrored s (x + y) (x' + y') := by
  refine mirrored_add hx.left hy.left hx.right hy.right ?_ hfin
  rw [hx.value_eq, hy.value_eq, mul_add]

theorem Mirrored.sub (hx : Mirrored s x x') (hy : Mirrored s y y') (hfin : (x - y).isFinite = true) :
    Mirrored s (x - y) (x' - y') := by
  rw [sub_eq_add_minus] at hfin ⊢
  rw [sub_eq_add_minus]
  exact hx.add hy.neg hfin

theorem Mirrored.mul (hx : Mirrored s x x') (hy : Mirrored t y y') (hfin : (x * y).isFinite = true) :
    Mirrored (s * t) (x * y) (x' * y') := by
  refine mirrored_mul hx.left hy.left hx.right hy.right ?_ hfin
  rw [hx.value_eq, hy.value_eq, unit_mul]
  push_cast
  ring

/-- A sum of two products; its terms are finite because it is. -/
theorem Mirrored.mul_add_mul {a a' b b' : Float32} (hx : Mirrored s x x') (hy : Mirrored t y y') (ha : Mirrored s a a')
    (hb : Mirrored t b b') (hfin : (x * y + a * b).isFinite = true) : Mirrored (s * t) (x * y + a * b) (x' * y' + a' * b') := by
  obtain ⟨hxy, hab⟩ := isFinite_of_add hfin
  exact (hx.mul hy hxy).add (ha.mul hb hab) hfin

/-- Under the positive sign the values are equal. -/
theorem Mirrored.alike (h : Mirrored .positive x x') : Alike x x' := by
  rw [alike_iff h.left h.right, h.value_eq]
  simp [unit]

/-- Numbers of opposite values cancel. -/
theorem Mirrored.exactly_add (h : Mirrored .negative x x') : Exactly 0 (x + x') := by
  have hround := rounded_add h.left h.right
  rw [h.value_eq] at hround
  simp only [unit, Int.cast_neg, Int.cast_one, neg_mul, one_mul, add_neg_cancel] at hround
  exact exactly_zero.of_rounded hround

end Mirror

end Binary32

end Gait
