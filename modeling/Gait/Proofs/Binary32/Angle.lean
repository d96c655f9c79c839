import Gait.Binary32.Arctan
import Gait.Proofs.Binary32.Range
import Gait.Proofs.Binary32.Special

/-!
# Angles are small

Every angle that `atan2` gives is a number and of ordinary size, unless a coordinate is no number. Each term of the series is at
most half of the one before, so an angle is at most twice its first term; how near to the true angle it is does not matter here.
-/

namespace Gait

namespace Binary32

open Float.Model (UnpackedFloat)
open Float.Model.UnpackedFloat (Sign)

/-! ## The series -/

/-- With a ratio of at most a half the terms add up to at most twice the first. -/
theorem eulerSum_le {num den : ℕ} (h : 2 * num ≤ den) : ∀ fuel k term, eulerSum num den fuel k term ≤ 2 * term := by
  intro fuel
  induction fuel with
  | zero => exact fun k term => Nat.zero_le _
  | succ fuel ih =>
    intro k term
    unfold eulerSum
    split_ifs with h0
    · exact Nat.zero_le _
    · have hnext : 2 * (term * ((2 * k + 2) * num) / ((2 * k + 3) * den)) ≤ term := by
        refine (Nat.mul_div_le_mul_div_assoc _ _ _).trans (Nat.div_le_of_le_mul ?_)
        calc 2 * (term * ((2 * k + 2) * num)) = (2 * k + 2) * (2 * num) * term := by ring
          _ ≤ (2 * k + 3) * den * term := Nat.mul_le_mul_right _ (Nat.mul_le_mul (by omega) h)
      have hrest := ih (k + 1) (term * ((2 * k + 2) * num) / ((2 * k + 3) * den))
      omega

/-- An angle of a tangent of at most one is at most one. -/
theorem arctanUnits_le (bits : ℕ) {a b : ℕ} (h : a ≤ b) : arctanUnits bits a b ≤ 2 ^ bits := by
  have hratio : 2 * (a * a) ≤ a * a + b * b := by
    have := Nat.mul_le_mul h h
    omega
  have hprod : 2 * (a * b) ≤ a * a + b * b := by nlinarith [sq_nonneg ((a : ℤ) - b)]
  have hterm : 2 * (((a * b) <<< bits) / (a * a + b * b)) ≤ 2 ^ bits := by
    rw [Nat.shiftLeft_eq]
    refine (Nat.mul_div_le_mul_div_assoc _ _ _).trans (Nat.div_le_of_le_mul ?_)
    rw [← mul_assoc]
    exact Nat.mul_le_mul_right _ hprod
  exact (eulerSum_le hratio _ _ _).trans hterm

theorem tabulated_getD_le (k : ℕ) : tabulated.getD k 0 ≤ 2 ^ angleBits := by
  unfold tabulated
  by_cases hk : k < 65
  · have hget : (((List.range 65).map fun k => arctanUnits angleBits k 64).toArray).getD k 0 = arctanUnits angleBits k 64 := by
      simp [Array.getD, hk]
    rw [hget]
    exact arctanUnits_le _ (by omega)
  · have hget : (((List.range 65).map fun k => arctanUnits angleBits k 64).toArray).getD k 0 = 0 := by
      simp [Array.getD, hk]
    rw [hget]
    exact Nat.zero_le _

theorem octantAngle_le (a : ℕ) {b : ℕ} (hb : 0 < b) : octantAngle a b ≤ 2 ^ 97 := by
  have hrest : arctanUnits angleBits (64 * a % b) (64 * b + 64 * a / b * a) ≤ 2 ^ angleBits :=
    arctanUnits_le _ (by have := Nat.mod_lt (64 * a) hb; omega)
  have htable := tabulated_getD_le (64 * a / b)
  have hbits : 2 ^ 97 = 2 ^ angleBits + 2 ^ angleBits := by decide
  show tabulated.getD (64 * a / b) 0 + arctanUnits angleBits (64 * a % b) (64 * b + 64 * a / b * a) ≤ 2 ^ 97
  omega

theorem eighthTurn_le : eighthTurn ≤ 2 ^ 97 := octantAngle_le 1 (by norm_num)

/-! ## The angle -/

/-- What lies in an interval of units becomes a number of the size that the units say. -/
theorem small_ofInterval {m b j : ℕ} (hm : m ≤ 2 ^ (b + j)) (hj : j + 1 ≤ 127) : Small (j + 1) (ofInterval m (-b)) := by
  obtain ⟨d, hd⟩ : ∃ d, d = m.log2 - 25 := ⟨_, rfl⟩
  have hdropped : (2 * (m >>> d) + 1) * 2 ^ d ≤ 2 ^ (b + j + 2) := by
    have hshift : m >>> d * 2 ^ d ≤ m := by
      rw [Nat.shiftRight_eq_div_pow]
      exact Nat.div_mul_le_self m (2 ^ d)
    have hpow : 2 ^ d ≤ 2 ^ (b + j) := by
      refine Nat.pow_le_pow_right (by norm_num) ?_
      have hlog : m.log2 ≤ b + j := by
        rcases Nat.eq_zero_or_pos m with rfl | hpos
        · simp
        · have hle := (Nat.log2_self_le hpos.ne').trans hm
          exact (Nat.pow_le_pow_iff_right (by norm_num)).mp hle
      omega
    calc (2 * (m >>> d) + 1) * 2 ^ d = 2 * (m >>> d * 2 ^ d) + 2 ^ d := by ring
      _ ≤ 2 * 2 ^ (b + j) + 2 ^ (b + j) := by omega
      _ ≤ 2 ^ (b + j + 2) := by rw [pow_add 2 (b + j)]; omega
  have hval : (((2 * (m >>> d) + 1 : ℕ) : ℝ)) * 2 ^ (-(b : ℤ) + d - 1) ≤ 2 ^ (j + 1) := by
    have hcast : (((2 * (m >>> d) + 1) * 2 ^ d : ℕ) : ℝ) ≤ ((2 ^ (b + j + 2) : ℕ) : ℝ) := by exact_mod_cast hdropped
    have hsplit : (2 : ℝ) ^ (-(b : ℤ) + d - 1) = 2 ^ d / 2 ^ (b + 1) := by
      rw [zpow_sub_one₀ (by norm_num), zpow_add₀ (by norm_num), zpow_neg, zpow_natCast, zpow_natCast, pow_succ]
      field_simp
    have hsplit' : (2 : ℝ) ^ (b + j + 2) = 2 ^ (j + 1) * 2 ^ (b + 1) := by
      rw [← pow_add]
      congr 1
      omega
    rw [hsplit, ← mul_div_assoc, div_le_iff₀ (by positivity), ← hsplit']
    push_cast at hcast ⊢
    exact hcast
  unfold ofInterval
  rw [← hd]
  refine (rounded_ofDyadic _ _).small hj ?_
  rw [abs_of_nonneg (by positivity)]
  exact hval

theorem small_withSign {k : ℕ} {x : Float32} (s : Sign) (h : Small k x) : Small k (withSign s x) := by
  cases s with
  | positive => exact h
  | negative => exact h.neg

theorem small_eighths {n : ℕ} (h : n ≤ 4) : Small 5 (eighths n) := by
  have hle : n * eighthTurn ≤ 2 ^ (angleBits + 3) := by
    have := eighthTurn_le
    have hbits : 2 ^ (angleBits + 3) = 4 * 2 ^ 97 := by decide
    nlinarith
  exact (small_ofInterval hle (by norm_num)).mono (by norm_num)

theorem small_angleOf (obtuse : Bool) {a b : ℕ} (ha : 0 < a) (hb : 0 < b) : Small 5 (angleOf obtuse a b) := by
  have heighth := eighthTurn_le
  have hab := octantAngle_le a hb
  have hba := octantAngle_le b ha
  have hangle : ∀ units ≤ 4 * 2 ^ 97, Small 5 (ofInterval units (-angleBits)) := by
    intro units hle
    have hbits : 2 ^ (angleBits + 3) = 4 * 2 ^ 97 := by decide
    exact (small_ofInterval (j := 3) (by omega) (by norm_num)).mono (by norm_num)
  unfold angleOf
  split_ifs with h
  · simp only [Bool.and_eq_true, decide_eq_true_eq] at h
    have hunits : arctanUnits (angleBits + (b.log2 - a.log2)) a b ≤ 2 ^ (angleBits + (b.log2 - a.log2) + 0) :=
      arctanUnits_le _ (by omega)
    exact (small_ofInterval hunits (by norm_num)).mono (by norm_num)
  · exact hangle _ (by omega)
  · exact hangle _ (by omega)
  · exact hangle _ (by omega)
  · exact hangle _ (by omega)

theorem small_of_zero {k : ℕ} {x : Float32} {s : Sign} (h : parts x = .zero s) : Small k x := by
  refine ⟨isFinite_iff.mpr (Or.inl ⟨s, h⟩), ?_⟩
  rw [toReal, h, value_zero, abs_zero]
  positivity

/-- The angle of a point is finite and of ordinary size, unless a coordinate is no number. -/
theorem small_atan2 {x y : Float32} (hy : ¬ IsNaN y) (hx : ¬ IsNaN x) : Small 5 (atan2 y x) := by
  have hnum : Small 5 0 := small_ofNat (n := 0) (by norm_num) (by norm_num)
  unfold IsNaN at hx hy
  unfold atan2
  cases hpy : parts y with
  | notANumber => exact absurd hpy hy
  | zero s =>
    cases hpx : parts x with
    | notANumber => exact absurd hpx hx
    | zero t =>
      cases t with
      | positive => exact small_of_zero hpy
      | negative => exact small_withSign s (small_eighths (by norm_num))
    | finite t m e hm =>
      cases t with
      | positive => exact small_of_zero hpy
      | negative => exact small_withSign s (small_eighths (by norm_num))
    | infinity t =>
      cases t with
      | positive => exact small_of_zero hpy
      | negative => exact small_withSign s (small_eighths (by norm_num))
  | infinity s =>
    cases hpx : parts x with
    | notANumber => exact absurd hpx hx
    | infinity t => cases t <;> exact small_withSign s (small_eighths (by norm_num))
    | _ => exact small_withSign s (small_eighths (by norm_num))
  | finite s a ea ha =>
    cases hpx : parts x with
    | notANumber => exact absurd hpx hx
    | zero t => exact small_withSign s (small_eighths (by norm_num))
    | infinity t =>
      cases t with
      | positive => exact small_withSign s hnum
      | negative => exact small_withSign s (small_eighths (by norm_num))
    | finite t b eb hb =>
      have hpos : ∀ {k : ℕ} (n : ℕ), 0 < k → 0 < k <<< n := by
        intro k n hk
        rw [Nat.shiftLeft_eq]
        positivity
      exact small_withSign s (small_angleOf _ (hpos _ ha) (hpos _ hb))

/-- The angle of a point is no number if its second coordinate is none. -/
theorem IsNaN.atan2 {x y : Float32} (h : IsNaN y) : IsNaN (atan2 y x) := by
  unfold IsNaN at h
  unfold Binary32.atan2
  rw [h]
  exact h

end Binary32

end Gait
