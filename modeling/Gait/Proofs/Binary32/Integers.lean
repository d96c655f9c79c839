import Gait.Proofs.Binary32.Operations
import Gait.Proofs.Binary32.Order

/-!
# Integers among binary32 numbers

Natural numbers of up to twenty-four bits are binary32 numbers. The other way round a number is cut off behind the point.
-/

namespace Gait

namespace Binary32

open Float.Model (UnpackedFloat Format totalExponent)
open Float.Model.UnpackedFloat

theorem two_pow_le_largest : (2 : ℝ) ^ 127 ≤ largest := by norm_num [largest]

/-- A number of the grid that is not too large is left as it is. -/
theorem Rounded.exact {z : Float32} {x : ℝ} (h : Rounded z x) (hg : Grid x) (hx : |x| ≤ largest) :
    z.isFinite = true ∧ toReal z = x := by
  have hnear := hg.nearest_eq
  have hz := h.finite (by rwa [hnear])
  rwa [hnear] at hz

/-! ## From natural numbers -/

theorem natCast_le_largest {n : ℕ} (h : n ≤ 2 ^ 24) : |(n : ℝ)| ≤ largest := by
  have hn : (n : ℝ) ≤ 2 ^ 24 := by exact_mod_cast h
  rw [abs_of_nonneg (by positivity)]
  exact hn.trans (le_trans (by norm_num) two_pow_le_largest)

theorem uint32_toFloat32 {n : UInt32} (h : n.toNat ≤ 2 ^ 24) :
    n.toFloat32.isFinite = true ∧ toReal n.toFloat32 = n.toNat :=
  (rounded_ofNat n.toNat).exact (grid_natCast h) (natCast_le_largest h)

theorem uint64_toFloat32 {n : UInt64} (h : n.toNat ≤ 2 ^ 24) :
    n.toFloat32.isFinite = true ∧ toReal n.toFloat32 = n.toNat :=
  (rounded_ofNat n.toNat).exact (grid_natCast h) (natCast_le_largest h)

/-- The word for one. -/
theorem parts_ofBits_one : parts (Float32.ofBits 0x3F800000) = .finite .positive (2 ^ 23) (-23) (by norm_num) := by
  rfl

/-- A numeral of twenty-three bits is multiplied by the zeroth power of ten. -/
theorem rounded_ofNat_of_lt {n : ℕ} (h : n < 2 ^ 23) : Rounded (Float32.ofNat n) n := by
  have hprod : Float32.ofNat n = n.toUInt64.toFloat32 * Float32.ofBits 0x3F800000 := by
    show Float32.ofScientific n false 0 = _
    unfold Float32.ofScientific
    rw [dif_pos ⟨h, by norm_num⟩]
    rfl
  have hmod : n.toUInt64.toNat = n := by
    show n % 2 ^ 64 = n
    omega
  obtain ⟨hfin, hval⟩ := uint64_toFloat32 (n := n.toUInt64) (by omega)
  have hone : toReal (Float32.ofBits 0x3F800000) = 1 := by
    rw [toReal_of_parts parts_ofBits_one]
    norm_num [unit]
  have hround := rounded_mul hfin (isFinite_of_parts parts_ofBits_one)
  rwa [hval, hone, mul_one, hmod, ← hprod] at hround

/-- A larger numeral is read digit by digit. -/
theorem rounded_ofNat_of_le {n : ℕ} (h : 2 ^ 23 ≤ n) : Rounded (Float32.ofNat n) n := by
  have hn : n ≠ 0 := by omega
  have hcut : ¬ (0 : ℤ) < -((2 ^ Format.binary32.exponentBits : ℤ) + n.log2) := by
    show ¬ (0 : ℤ) < -((2 ^ 8 : ℤ) + n.log2)
    omega
  have hdigits : ofScientific Format.binary32 n 0 =
      roundWithAccuracy Format.binary32 .positive (n * 2 ^ 24) (-24) .exact := by
    unfold ofScientific
    rw [dif_neg hn, if_neg (by decide), if_neg hcut, if_pos le_rfl]
    simp only [mul, Nat.shiftLeft_eq]
    show roundWithAccuracy _ .positive (n * 2 ^ 24 * 1) (-24 + 0) _ = _
    rw [mul_one, add_zero]
  have hval : (n : ℝ) = unit .positive * (((n * 2 ^ 24 : ℕ) : ℝ) * 2 ^ (-24 : ℤ)) := by
    rw [unit, Int.cast_one, one_mul, Nat.cast_mul, mul_assoc]
    norm_num
  have hround : RoundsTo (ofScientific Format.binary32 n 0) n := by
    rw [hdigits, hval]
    apply roundsTo_roundWithAccuracy
    · rw [mul_div_cancel_right₀ _ (by positivity)]
      exact truncates_exact _
    · rw [log2_mul_two_pow hn]
      push_cast
      omega
  have hnum : Float32.ofNat n = ⟨Float32.Model.pack (ofScientific Format.binary32 n 0)⟩ := by
    show Float32.ofScientific n false 0 = _
    unfold Float32.ofScientific
    rw [dif_neg (by omega)]
    rfl
  rw [hnum]
  exact hround.rounded

/-- A numeral stands for the nearest number. -/
theorem rounded_float32_ofNat (n : ℕ) : Rounded (Float32.ofNat n) n := by
  rcases Nat.lt_or_ge n (2 ^ 23) with h | h
  · exact rounded_ofNat_of_lt h
  · exact rounded_ofNat_of_le h

theorem float32_ofNat {n : ℕ} (h : n ≤ 2 ^ 24) : (Float32.ofNat n).isFinite = true ∧ toReal (Float32.ofNat n) = n :=
  (rounded_float32_ofNat n).exact (grid_natCast h) (natCast_le_largest h)

@[simp] theorem isFinite_zero : (0 : Float32).isFinite = true := (float32_ofNat (Nat.zero_le _)).1

@[simp] theorem toReal_zero : toReal 0 = 0 := by
  have h : toReal 0 = (0 : ℕ) := (float32_ofNat (Nat.zero_le _)).2
  rw [h, Nat.cast_zero]

@[simp] theorem isFinite_one : (1 : Float32).isFinite = true := (float32_ofNat (by norm_num)).1

@[simp] theorem toReal_one : toReal 1 = 1 := by
  have h : toReal 1 = (1 : ℕ) := (float32_ofNat (by norm_num)).2
  rw [h, Nat.cast_one]

/-! ## To natural numbers -/

/-- Cutting off behind the point rounds the magnitude down. -/
theorem roundToInt_eq (s : Sign) (m : ℕ) (e : ℤ) : roundToInt s m e = s.apply ⌊(m : ℝ) * 2 ^ e⌋₊ := by
  obtain ⟨k, hk⟩ : ∃ k, k = (0 - (e - e.toNat)).toNat := ⟨_, rfl⟩
  have htrunc : Truncates ((ExtendedMantissa.ofMantissaAndAccuracy (m * 2 ^ e.toNat) .exact) >>> k) (m * 2 ^ e) := by
    have hsplit : (m : ℝ) * 2 ^ e = ((m * 2 ^ e.toNat : ℕ) : ℝ) / 2 ^ k := by
      rw [eq_div_iff (by positivity), mul_assoc, ← zpow_natCast, ← zpow_add₀ (by norm_num)]
      push_cast
      rw [← zpow_natCast]
      congr 2
      omega
    rw [hsplit]
    exact (truncates_exact _).shiftRight k
  have hfloor : ⌊(m : ℝ) * 2 ^ e⌋₊ =
      ((ExtendedMantissa.ofMantissaAndAccuracy (m * 2 ^ e.toNat) .exact) >>> k).mantissa := by
    rw [Nat.floor_eq_iff (by positivity)]
    exact ⟨htrunc.mantissa_le, htrunc.lt_mantissa_add_one⟩
  unfold roundToInt decreaseExponent shiftToExponent
  simp only [sub_zero, Nat.shiftLeft_eq, ← hk]
  rw [hfloor]

/-- A number that is not above a natural number is cut off to at most that one. -/
theorem toUInt32_le {x : Float32} {n : UInt32} (hn : n.toNat ≤ 2 ^ 24) (h : ¬ n.toFloat32 < x) :
    x.toUInt32.toNat ≤ n.toNat := by
  obtain ⟨hfin, hval⟩ := uint32_toFloat32 hn
  have hint : ((parts x).toInt 0 (UInt32.size - 1)).toNat ≤ n.toNat := by
    cases hp : parts x with
    | notANumber => exact Nat.zero_le _
    | infinity s =>
      cases s with
      | positive => exact absurd (lt_of_parts_infinity hfin hp) h
      | negative => exact Nat.zero_le _
    | zero s => exact Nat.zero_le _
    | finite s m e hm =>
      rw [lt_iff hfin (isFinite_of_parts hp), hval, toReal_of_parts hp, not_lt, mul_assoc] at h
      simp only [toInt, roundToInt_eq]
      cases s with
      | negative =>
        simp only [Sign.apply]
        omega
      | positive =>
        simp only [unit, Int.cast_one, one_mul] at h
        simp only [Sign.apply, Int.toNat_natCast]
        exact Nat.floor_le_of_le h
  show (UInt32.ofNatClamp ((parts x).toInt 0 (UInt32.size - 1)).toNat).toNat ≤ n.toNat
  unfold UInt32.ofNatClamp
  split_ifs with hlt
  · exact hint
  · exact absurd (lt_of_le_of_lt hint n.toNat_lt) hlt

end Binary32

end Gait
