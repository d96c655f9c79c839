import Gait.Proofs.Binary32.Parts

/-!
# The order of binary32 numbers

Finite numbers compare as their values do. A number that is none compares with nothing, and the infinities lie at the ends.
-/

namespace Gait

namespace Binary32

open Float.Model (UnpackedFloat)
open Float.Model.UnpackedFloat (Sign)

/-- Of canonical parts the larger exponent makes the larger value. -/
theorem Canonical.mul_zpow_lt {s t : Sign} {m n : ℕ} {e f : ℤ} {hm : 0 < m} {hn : 0 < n}
    (hu : Canonical (.finite s m e hm)) (hv : Canonical (.finite t n f hn)) (h : e < f) :
    (m : ℝ) * 2 ^ e < n * 2 ^ f := by
  obtain ⟨hm24, he, -⟩ := hu
  obtain ⟨-, -, hlow⟩ := hv
  have hn23 : 2 ^ 23 ≤ n := hlow.resolve_right (by omega)
  have hm' : (m : ℝ) < 2 ^ 24 := by exact_mod_cast hm24
  have hn' : (2 : ℝ) ^ 23 ≤ n := by exact_mod_cast hn23
  calc (m : ℝ) * 2 ^ e < 2 ^ 24 * 2 ^ e := mul_lt_mul_of_pos_right hm' (by positivity)
    _ = 2 ^ 23 * 2 ^ (e + 1) := by rw [zpow_add_one₀ (by norm_num)]; ring
    _ ≤ 2 ^ 23 * 2 ^ f := mul_le_mul_of_nonneg_left (zpow_le_zpow_right₀ (by norm_num) (by omega)) (by positivity)
    _ ≤ n * 2 ^ f := mul_le_mul_of_nonneg_right hn' (by positivity)

/-- Canonical parts compare by the exponents and then by the mantissas as their magnitudes do. -/
theorem Canonical.compare_magnitudes {s t : Sign} {m n : ℕ} {e f : ℤ} {hm : 0 < m} {hn : 0 < n}
    (hu : Canonical (.finite s m e hm)) (hv : Canonical (.finite t n f hn)) :
    ((m : ℝ) * 2 ^ e < n * 2 ^ f ∧ (compare e f).then (compare m n) = .lt) ∨
      ((m : ℝ) * 2 ^ e = n * 2 ^ f ∧ (compare e f).then (compare m n) = .eq) ∨
      ((n : ℝ) * 2 ^ f < m * 2 ^ e ∧ (compare e f).then (compare m n) = .gt) := by
  rcases lt_trichotomy e f with h | rfl | h
  · exact Or.inl ⟨hu.mul_zpow_lt hv h, by rw [Int.compare_eq_lt.mpr h]; rfl⟩
  · have hpow : (0 : ℝ) < 2 ^ e := by positivity
    rw [Int.compare_eq_eq.mpr rfl, Ordering.eq_then]
    rcases lt_trichotomy m n with h | rfl | h
    · exact Or.inl ⟨mul_lt_mul_of_pos_right (by exact_mod_cast h) hpow, Nat.compare_eq_lt.mpr h⟩
    · exact Or.inr (Or.inl ⟨rfl, Nat.compare_eq_eq.mpr rfl⟩)
    · exact Or.inr (Or.inr ⟨mul_lt_mul_of_pos_right (by exact_mod_cast h) hpow, Nat.compare_eq_gt.mpr h⟩)
  · exact Or.inr (Or.inr ⟨hv.mul_zpow_lt hu h, by rw [Int.compare_eq_gt.mpr h]; rfl⟩)

/-- Finite parts compare as their values do. -/
theorem Canonical.compare_values {u v : UnpackedFloat} (hu : Canonical u) (hv : Canonical v) (fu : u.isFinite = true)
    (fv : v.isFinite = true) : (value u < value v ∧ u.compare v = some .lt) ∨ (value u = value v ∧ u.compare v = some .eq) ∨
      (value v < value u ∧ u.compare v = some .gt) := by
  have hpos : ∀ {m : ℕ} {e : ℤ}, 0 < m → (0 : ℝ) < m * 2 ^ e := by
    intro m e hm
    positivity
  rcases isFinite_cases fu with ⟨s, rfl⟩ | ⟨s, m, e, hm, rfl⟩ <;>
    rcases isFinite_cases fv with ⟨t, rfl⟩ | ⟨t, n, f, hn, rfl⟩
  · exact Or.inr (Or.inl ⟨rfl, rfl⟩)
  · have := hpos (e := f) hn
    cases t <;> simp [unit, UnpackedFloat.compare, value, this]
  · have := hpos (e := e) hm
    cases s <;> simp [unit, UnpackedFloat.compare, value, this]
  · have hm' := hpos (e := e) hm
    have hn' := hpos (e := f) hn
    have hmag := hu.compare_magnitudes hv
    simp only [value_finite, mul_assoc]
    cases s <;> cases t <;> simp only [unit, UnpackedFloat.compare, Int.cast_one, Int.cast_neg, one_mul, neg_mul]
    · rcases hmag with ⟨h, hc⟩ | ⟨h, hc⟩ | ⟨h, hc⟩
      · exact Or.inr (Or.inr ⟨neg_lt_neg h, by rw [hc]; rfl⟩)
      · exact Or.inr (Or.inl ⟨by rw [h], by rw [hc]; rfl⟩)
      · exact Or.inl ⟨neg_lt_neg h, by rw [hc]; rfl⟩
    · exact Or.inl ⟨by linarith, trivial⟩
    · exact Or.inr (Or.inr ⟨by linarith, trivial⟩)
    · rcases hmag with ⟨h, hc⟩ | ⟨h, hc⟩ | ⟨h, hc⟩
      · exact Or.inl ⟨h, by rw [hc]⟩
      · exact Or.inr (Or.inl ⟨h, by rw [hc]⟩)
      · exact Or.inr (Or.inr ⟨h, by rw [hc]⟩)

/-- Numbers compare as their parts do. -/
theorem lt_iff_compare {x y : Float32} : x < y ↔ (parts x).compare (parts y) = some .lt := by
  show decide (((parts x).compare (parts y) == some .lt) = true) = true ↔ _
  simp

theorem le_iff_compare {x y : Float32} : x ≤ y ↔ ((parts x).compare (parts y)).any (·.isLE) = true := by
  show decide (((parts x).compare (parts y)).any (·.isLE) = true) = true ↔ _
  simp

/-- A finite number is below another if its value is. -/
theorem lt_iff {x y : Float32} (hx : x.isFinite = true) (hy : y.isFinite = true) : x < y ↔ toReal x < toReal y := by
  rw [lt_iff_compare]
  unfold toReal
  rcases (canonical_parts x).compare_values (canonical_parts y) hx hy with ⟨hv, hc⟩ | ⟨hv, hc⟩ | ⟨hv, hc⟩ <;> rw [hc]
  · simp [hv]
  · simp [hv]
  · simp [hv.le]

/-- A finite number is at most another if its value is. -/
theorem le_iff {x y : Float32} (hx : x.isFinite = true) (hy : y.isFinite = true) : x ≤ y ↔ toReal x ≤ toReal y := by
  rw [le_iff_compare]
  unfold toReal
  rcases (canonical_parts x).compare_values (canonical_parts y) hx hy with ⟨hv, hc⟩ | ⟨hv, hc⟩ | ⟨hv, hc⟩ <;> rw [hc]
  · simp [hv.le]
  · simp [hv.le]
  · simpa using hv

/-- An infinite number is above every finite one. -/
theorem lt_of_parts_infinity {x y : Float32} (hx : x.isFinite = true) (hy : parts y = .infinity .positive) : x < y := by
  rw [lt_iff_compare, hy]
  rcases isFinite_cases hx with ⟨s, h⟩ | ⟨s, m, e, hm, h⟩ <;> unfold parts <;> rw [h]
  · rfl
  · cases s <;> rfl

theorem lt_of_parts_neg_infinity {x y : Float32} (hx : x.isFinite = true) (hy : parts y = .infinity .negative) : y < x := by
  rw [lt_iff_compare, hy]
  rcases isFinite_cases hx with ⟨s, h⟩ | ⟨s, m, e, hm, h⟩ <;> unfold parts <;> rw [h]
  · rfl
  · cases s <;> rfl

end Binary32

end Gait
