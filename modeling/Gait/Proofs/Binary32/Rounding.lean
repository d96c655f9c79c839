import Gait.Proofs.Binary32.Parts

/-!
# Rounding, bit by bit

The operations keep of an exact result its leading digits, the next digit and whether anything follows. `Truncates` says which
real numbers such an extended mantissa may stand for; shifting it to the right and rounding it are then shifting and rounding
these numbers. From this the rounded result of every operation has canonical parts and the value `nearest` gives.
-/

namespace Gait

namespace Binary32

open Float.Model (UnpackedFloat Format totalExponent)
open Float.Model.UnpackedFloat

/-! ## Extended mantissas -/

/-- A half if the bit is set. -/
noncomputable def halfBit (b : Bool) : ℝ := if b then 1 / 2 else 0

/-- The extended mantissa holds the digits of a number down to the one behind the point, and whether a digit follows that one. -/
structure Truncates (em : ExtendedMantissa) (x : ℝ) : Prop where
  le : em.mantissa + halfBit em.roundBit ≤ x
  lt : x < em.mantissa + halfBit em.roundBit + 1 / 2
  sticky : em.stickyBit = true ↔ em.mantissa + halfBit em.roundBit < x

theorem halfBit_nonneg (b : Bool) : 0 ≤ halfBit b := by cases b <;> norm_num [halfBit]

theorem halfBit_le (b : Bool) : halfBit b ≤ 1 / 2 := by cases b <;> norm_num [halfBit]

/-- An integer is truncated to itself. -/
theorem truncates_exact (m : ℕ) : Truncates (ExtendedMantissa.ofMantissaAndAccuracy m .exact) m := by
  constructor <;> simp [ExtendedMantissa.ofMantissaAndAccuracy, halfBit]

theorem Truncates.nonneg {em : ExtendedMantissa} {x : ℝ} (h : Truncates em x) : 0 ≤ x := by
  have := halfBit_nonneg em.roundBit
  exact le_trans (by positivity) h.le

theorem Truncates.mantissa_le {em : ExtendedMantissa} {x : ℝ} (h : Truncates em x) : (em.mantissa : ℝ) ≤ x := by
  linarith [h.le, halfBit_nonneg em.roundBit]

theorem Truncates.lt_mantissa_add_one {em : ExtendedMantissa} {x : ℝ} (h : Truncates em x) : x < em.mantissa + 1 := by
  linarith [h.lt, halfBit_le em.roundBit]

/-- A shift by one digit halves the number. -/
theorem Truncates.shiftRightOne {em : ExtendedMantissa} {x : ℝ} (h : Truncates em x) :
    Truncates em.shiftRightOne (x / 2) := by
  obtain ⟨m, r, s⟩ := em
  obtain ⟨hle, hlt, hs⟩ := h
  have hr0 := halfBit_nonneg r
  have hr1 := halfBit_le r
  have hm : (m : ℝ) = 2 * (m / 2 : ℕ) + (m % 2 : ℕ) := by exact_mod_cast (Nat.div_add_mod m 2).symm
  -- the digit shifted out becomes the round bit
  have hbit : halfBit (m % 2 != 0) = (m % 2 : ℕ) / 2 := by
    rcases Nat.mod_two_eq_zero_or_one m with h | h <;> simp [h, halfBit]
  -- what the round bit was worth is now below a quarter
  have hsticky : (r || s) = true ↔ (m : ℝ) < x := by
    cases r with
    | true =>
      simp only [Bool.true_or, true_iff]
      simp only [halfBit, if_true] at hle
      linarith
    | false =>
      simpa [halfBit] using hs
  simp only [ExtendedMantissa.shiftRightOne]
  constructor
  · show ((m / 2 : ℕ) : ℝ) + halfBit (m % 2 != 0) ≤ x / 2
    simp only at hle
    linarith
  · show x / 2 < ((m / 2 : ℕ) : ℝ) + halfBit (m % 2 != 0) + 1 / 2
    simp only at hlt
    linarith
  · show (r || s) = true ↔ ((m / 2 : ℕ) : ℝ) + halfBit (m % 2 != 0) < x / 2
    rw [hsticky, hbit]
    constructor <;> intro h <;> linarith

/-- A shift divides the number by a power of two. -/
theorem Truncates.shiftRight {em : ExtendedMantissa} {x : ℝ} (h : Truncates em x) (n : ℕ) :
    Truncates (em >>> n) (x / 2 ^ n) := by
  show Truncates (n.repeat ExtendedMantissa.shiftRightOne em) (x / 2 ^ n)
  induction n with
  | zero => simpa [Nat.repeat] using h
  | succ n ih =>
    rw [Nat.repeat, pow_succ, ← div_div]
    exact ih.shiftRightOne

/-- Rounding the extended mantissa rounds the number. -/
theorem Truncates.roundedMantissa {em : ExtendedMantissa} {x : ℝ} (h : Truncates em x) :
    (em.roundedMantissa : ℤ) = halfEven x := by
  symm
  rw [halfEven_eq_iff]
  obtain ⟨m, r, s⟩ := em
  obtain ⟨hle, hlt, hs⟩ := h
  simp only at hle hlt hs
  unfold IsHalfEven
  cases r <;> cases s <;> simp only [halfBit, if_true, Bool.false_eq_true, if_false, false_iff, true_iff, not_lt] at hle hlt hs
  · left
    have hx : x = m := by linarith
    simp [ExtendedMantissa.roundedMantissa, ExtendedMantissa.accuracy, Accuracy.roundToNearestEven, hx]
  · left
    simp only [ExtendedMantissa.roundedMantissa, ExtendedMantissa.accuracy, Accuracy.roundToNearestEven, Int.cast_natCast]
    rw [abs_of_nonneg (by linarith)]
    linarith
  · right
    have hx : x = m + 1 / 2 := by linarith
    simp only [ExtendedMantissa.roundedMantissa, ExtendedMantissa.accuracy, Accuracy.roundToNearestEven, hx]
    refine ⟨?_, ?_⟩
    · rcases Nat.mod_two_eq_zero_or_one m with h | h <;> rw [h]
      · norm_num
      · push_cast
        norm_num
    · rw [Int.even_iff]
      omega
  · left
    simp only [ExtendedMantissa.roundedMantissa, ExtendedMantissa.accuracy, Accuracy.roundToNearestEven]
    push_cast
    rw [abs_of_neg (by linarith)]
    linarith

/-! ## The exponent of the result -/

/-- The exponent that a result gets whose leading digit stands before the place given. -/
theorem targetExponent_def (t : ℤ) : Format.binary32.targetExponent t = max (t - 24) (-149) := rfl

/-- The exponent that a result with these leading digits gets. -/
theorem targetExponent_eq (m : ℕ) (e : ℤ) :
    Format.binary32.targetExponent (totalExponent m e) = max (m.log2 + e - 23) (-149) := by
  rw [targetExponent_def, totalExponent]
  congr 1
  omega

/-- It is the exponent of the last place of the exact result, if no digit of that is missing. -/
theorem ulpExp_eq_target {m : ℕ} {e : ℤ} {x : ℝ} (h0 : 0 < x) (hle : (m : ℝ) * 2 ^ e ≤ x) (hlt : x < (m + 1) * 2 ^ e)
    (he : e ≤ max (m.log2 + e - 23) (-149)) : ulpExp x = max (m.log2 + e - 23) (-149) := by
  have hpow : (0 : ℝ) < 2 ^ e := by positivity
  rcases Nat.eq_zero_or_pos m with rfl | hm
  · rw [Nat.log2_zero] at he ⊢
    have hx : |x| < 2 ^ e := by
      rw [abs_of_pos h0]
      simpa using hlt
    rw [ulpExp_eq (e := -149) le_rfl (Or.inr ⟨rfl, h0.ne'⟩)]
    · omega
    · exact hx.trans_le (zpow_le_zpow_right₀ (by norm_num) (by omega))
  · have hlog : Int.log 2 x = m.log2 + e := by
      have hlo : ((2 ^ m.log2 : ℕ) : ℝ) ≤ m := by exact_mod_cast Nat.log2_self_le hm.ne'
      have hhi : ((m + 1 : ℕ) : ℝ) ≤ ((2 ^ (m.log2 + 1) : ℕ) : ℝ) := by exact_mod_cast Nat.lt_log2_self
      push_cast at hlo hhi
      apply le_antisymm
      · rw [← Int.lt_add_one_iff, ← Int.lt_zpow_iff_log_lt (by norm_num) h0]
        calc x < (m + 1) * 2 ^ e := hlt
          _ ≤ 2 ^ (m.log2 + 1) * 2 ^ e := mul_le_mul_of_nonneg_right hhi hpow.le
          _ = ((2 : ℕ) : ℝ) ^ ((m.log2 : ℤ) + e + 1) := by
            rw [← zpow_natCast, ← zpow_add₀ (by norm_num)]
            push_cast
            congr 1
            omega
      · rw [← Int.zpow_le_iff_le_log (by norm_num) h0]
        calc ((2 : ℕ) : ℝ) ^ ((m.log2 : ℤ) + e) = 2 ^ m.log2 * 2 ^ e := by
              rw [← zpow_natCast, ← zpow_add₀ (by norm_num)]
              push_cast
              rfl
          _ ≤ m * 2 ^ e := mul_le_mul_of_nonneg_right hlo hpow.le
          _ ≤ x := hle
    unfold ulpExp
    rw [abs_of_pos h0, hlog]

/-! ## The rounded result -/

/-- A rounded mantissa is canonical once a twenty-fifth digit, which is a zero then, is shifted out. -/
theorem shiftToTargetExponent_exact {k : ℕ} {t : ℤ} (hk : k ≤ 2 ^ 24) (ht : -149 ≤ t) (hlow : 2 ^ 23 ≤ k ∨ t = -149) :
    shiftToTargetExponent Format.binary32 k t .exact =
      if k = 2 ^ 24 then (⟨2 ^ 23, false, false⟩, t + 1) else (⟨k, false, false⟩, t) := by
  unfold shiftToTargetExponent shiftToExponent
  simp only [targetExponent_eq]
  split_ifs with h
  · have htarget : max (((2 ^ 24 : ℕ).log2 : ℤ) + t - 23) (-149) = t + 1 := by
      rw [Nat.log2_two_pow]
      omega
    rw [h, htarget, add_sub_cancel_left]
    rfl
  · have hlog : k.log2 ≤ 23 := by
      rcases Nat.eq_zero_or_pos k with rfl | hpos
      · simp
      · have := (Nat.log2_lt hpos.ne').mpr (lt_of_le_of_ne hk h)
        omega
    have hshift : (max ((k.log2 : ℤ) + t - 23) (-149) - t).toNat = 0 := by omega
    rw [hshift]
    simp only [Nat.cast_zero, add_zero]
    rfl

/-- Canonical parts of what a real number is rounded to, infinity not being thought of yet. -/
structure RoundsTo (u : UnpackedFloat) (x : ℝ) : Prop where
  canonical : Canonical u
  value_eq : value u = nearest x
  isFinite : u.isFinite = true

theorem nearest_unit_mul (s : Sign) (x : ℝ) : nearest (unit s * x) = unit s * nearest x := by
  cases s <;> simp [unit, nearest_neg]

/-- The exact result in units of its last place rounds to a mantissa of twenty-four bits, fewer under the least exponent, or to
the next power of two. -/
theorem halfEven_target {m : ℕ} {e : ℤ} {x : ℝ} (h0 : 0 ≤ x) (hle : (m : ℝ) * 2 ^ e ≤ x) (hlt : x < (m + 1) * 2 ^ e)
    (he : e ≤ max (m.log2 + e - 23) (-149)) {t : ℤ} (ht : t = max (m.log2 + e - 23) (-149)) :
    halfEven (x / 2 ^ t) ≤ 2 ^ 24 ∧ (2 ^ 23 ≤ halfEven (x / 2 ^ t) ∨ t = -149) ∧
      halfEven (x / 2 ^ t) * 2 ^ t = nearest x := by
  rcases h0.eq_or_lt with rfl | hpos
  · have hm : (m : ℝ) = 0 := by
      have hm0 : (0 : ℝ) ≤ m := by positivity
      have hpow : (0 : ℝ) < 2 ^ e := by positivity
      nlinarith
    obtain rfl : m = 0 := by exact_mod_cast hm
    rw [Nat.log2_zero] at he ht
    refine ⟨by simp, Or.inr (by omega), by simp⟩
  · rw [← ulpExp_eq_target hpos hle hlt he] at ht
    subst ht
    refine ⟨halfEven_div_le h0, ?_, rfl⟩
    rcases (le_ulpExp x).eq_or_lt with h | h
    · exact Or.inr h.symm
    · exact Or.inl (le_halfEven_div hpos h)

/-- What the operations end in rounds the exact result, if they give digits enough. -/
theorem roundsTo_roundWithAccuracy {m : ℕ} {e : ℤ} {acc : Accuracy} {x : ℝ} (s : Sign)
    (h : Truncates (ExtendedMantissa.ofMantissaAndAccuracy m acc) (x / 2 ^ e))
    (he : e ≤ max (m.log2 + e - 23) (-149)) :
    RoundsTo (roundWithAccuracy Format.binary32 s m e acc) (unit s * x) := by
  have hm : (ExtendedMantissa.ofMantissaAndAccuracy m acc).mantissa = m := by
    rcases acc with _ | o
    · rfl
    · cases o <;> rfl
  have hpow : (0 : ℝ) < 2 ^ e := by positivity
  have hx0 : 0 ≤ x := by
    have := h.nonneg
    rwa [le_div_iff₀ hpow, zero_mul] at this
  have hlo : (m : ℝ) * 2 ^ e ≤ x := by
    have := h.mantissa_le
    rwa [hm, le_div_iff₀ hpow] at this
  have hhi : x < (m + 1) * 2 ^ e := by
    have := h.lt_mantissa_add_one
    rwa [hm, div_lt_iff₀ hpow] at this
  obtain ⟨t, ht⟩ : ∃ t, t = max ((m.log2 : ℤ) + e - 23) (-149) := ⟨_, rfl⟩
  obtain ⟨em, hem⟩ : ∃ em, em = ExtendedMantissa.ofMantissaAndAccuracy m acc >>> (t - e).toNat := ⟨_, rfl⟩
  -- the mantissa of the result is that of `x` in units of `2 ^ t`
  have htrunc : Truncates em (x / 2 ^ t) := by
    have hsplit : (2 : ℝ) ^ t = 2 ^ e * 2 ^ (t - e).toNat := by
      rw [← zpow_natCast, ← zpow_add₀ (by norm_num)]
      congr 1
      omega
    rw [hem, hsplit, ← div_div]
    exact h.shiftRight _
  obtain ⟨k, hkdef⟩ : ∃ k, k = em.roundedMantissa := ⟨_, rfl⟩
  have hk : (k : ℤ) = halfEven (x / 2 ^ t) := by rw [hkdef, htrunc.roundedMantissa]
  obtain ⟨hk24, hk23, hnear⟩ := halfEven_target hx0 hlo hhi he ht
  rw [← hk] at hk24 hk23 hnear
  have hk24' : k ≤ 2 ^ 24 := by exact_mod_cast hk24
  have hk23' : 2 ^ 23 ≤ k ∨ t = -149 := by exact_mod_cast hk23
  have hnear' : (k : ℝ) * 2 ^ t = nearest x := by exact_mod_cast hnear
  have hfirst : shiftToTargetExponent Format.binary32 m e acc = (em, t) := by
    unfold shiftToTargetExponent shiftToExponent
    simp only [targetExponent_eq, ← ht, ← hem]
    congr 1
    omega
  unfold roundWithAccuracy
  simp only [hfirst, ← hkdef, shiftToTargetExponent_exact hk24' (by omega : -149 ≤ t) hk23']
  by_cases hcarry : k = 2 ^ 24
  · simp only [if_pos hcarry]
    rw [dif_neg (by norm_num)]
    refine ⟨⟨by norm_num, by omega, Or.inl le_rfl⟩, ?_, rfl⟩
    rw [nearest_unit_mul, value_finite, ← hnear', hcarry, zpow_add_one₀ (by norm_num)]
    push_cast
    ring
  · simp only [if_neg hcarry]
    by_cases hzero : k = 0
    · rw [dif_pos hzero]
      refine ⟨trivial, ?_, rfl⟩
      rw [nearest_unit_mul, value_zero, ← hnear', hzero]
      simp
    · rw [dif_neg hzero]
      refine ⟨⟨lt_of_le_of_ne hk24' hcarry, by omega, hk23'⟩, ?_, rfl⟩
      rw [nearest_unit_mul, value_finite, ← hnear', mul_assoc]

/-- Nothing is rounded to nothing. -/
theorem roundWithAccuracy_zero (s : Sign) (e : ℤ) : roundWithAccuracy Format.binary32 s 0 e .exact = .zero s := by
  have hshift : ∀ n : ℕ, (ExtendedMantissa.ofMantissaAndAccuracy 0 .exact) >>> n = ⟨0, false, false⟩ := by
    intro n
    show n.repeat ExtendedMantissa.shiftRightOne _ = _
    induction n with
    | zero => rfl
    | succ n ih =>
      rw [Nat.repeat, ih]
      rfl
  have hround : (ExtendedMantissa.mk 0 false false).roundedMantissa = 0 := rfl
  unfold roundWithAccuracy
  simp only [shiftToTargetExponent, shiftToExponent, hshift, hround]
  rfl

/-- Digits of zeros are added below a mantissa without changing what it stands for. -/
theorem decreaseExponent_eq (m : ℕ) {e t : ℤ} (h : t ≤ e) : decreaseExponent m e t = (m * 2 ^ (e - t).toNat, t) := by
  unfold decreaseExponent
  simp only [Nat.shiftLeft_eq]
  congr 1
  omega

theorem mul_two_pow_toNat_mul_zpow (m : ℕ) {e t : ℤ} (h : t ≤ e) :
    ((m * 2 ^ (e - t).toNat : ℕ) : ℝ) * 2 ^ t = m * 2 ^ e := by
  push_cast
  rw [mul_assoc, ← zpow_natCast, ← zpow_add₀ (by norm_num)]
  congr 2
  omega

theorem log2_mul_two_pow {m : ℕ} (hm : m ≠ 0) (n : ℕ) : (m * 2 ^ n).log2 = m.log2 + n := by
  rw [Nat.log2_eq_iff (by positivity), pow_add, add_right_comm, pow_add]
  exact ⟨Nat.mul_le_mul_right _ (Nat.log2_self_le hm), Nat.mul_lt_mul_of_pos_right Nat.lt_log2_self (by positivity)⟩

/-- The product of a mantissa and a power of two is rounded whatever the two are. -/
theorem roundsTo_round (s : Sign) (m : ℕ) (e : ℤ) : RoundsTo (round Format.binary32 s m e) (unit s * (m * 2 ^ e)) := by
  rcases Nat.eq_zero_or_pos m with rfl | hm
  · have h : round Format.binary32 s 0 e = .zero s := by
      unfold UnpackedFloat.round decreaseExponent
      simp only [Nat.zero_shiftLeft]
      exact roundWithAccuracy_zero s _
    rw [h]
    exact ⟨trivial, by simp, rfl⟩
  · have hround : round Format.binary32 s m e = roundWithAccuracy Format.binary32 s
        (m * 2 ^ (e - max (m.log2 + e - 23) (-149)).toNat) (e - (e - max (m.log2 + e - 23) (-149)).toNat) .exact := by
      unfold UnpackedFloat.round decreaseExponent
      simp only [targetExponent_eq, Nat.shiftLeft_eq]
    have hsplit : (m : ℝ) * 2 ^ e = ((m * 2 ^ (e - max (m.log2 + e - 23) (-149)).toNat : ℕ) : ℝ) *
        2 ^ (e - (e - max (m.log2 + e - 23) (-149)).toNat) := by
      push_cast
      rw [mul_assoc, ← zpow_natCast, ← zpow_add₀ (by norm_num)]
      congr 2
      omega
    rw [hround, hsplit]
    apply roundsTo_roundWithAccuracy
    · rw [mul_div_cancel_right₀ _ (by positivity)]
      exact truncates_exact _
    · rw [log2_mul_two_pow hm.ne']
      push_cast
      omega

/-- A signed multiple of a power of two is rounded, the sign going with the multiple. -/
theorem roundsTo_normalize (k : ℤ) (e : ℤ) (z : Sign) : RoundsTo (UnpackedFloat.normalize Format.binary32 k e z) (k * 2 ^ e) := by
  unfold UnpackedFloat.normalize
  rcases lt_trichotomy k 0 with h | rfl | h
  · have hk : (((-k).toNat : ℕ) : ℝ) = -k := by exact_mod_cast Int.toNat_of_nonneg (by omega : 0 ≤ -k)
    have hround := roundsTo_round .negative (-k).toNat e
    rw [hk] at hround
    simpa [Int.compare_eq_lt.mpr h, unit] using hround
  · rw [Int.compare_eq_eq.mpr rfl]
    exact ⟨trivial, by simp, rfl⟩
  · have hk : ((k.toNat : ℕ) : ℝ) = k := by exact_mod_cast Int.toNat_of_nonneg h.le
    have hround := roundsTo_round .positive k.toNat e
    rw [hk] at hround
    simpa [Int.compare_eq_gt.mpr h, unit] using hround

/-- Canonical parts round to themselves. -/
theorem roundsTo_self {u : UnpackedFloat} (hc : Canonical u) (hf : u.isFinite = true) : RoundsTo u (value u) :=
  ⟨hc, hc.grid.nearest_eq.symm, hf⟩

end Binary32

end Gait
