import Gait.Proofs.Binary32.Rounding

/-!
# The operations

Each operation on finite numbers gives the number nearest to the exact result, or infinity if that is too large: `Rounded`. The
proofs go by the cases of the definitions; with a zero nothing is to be rounded, and otherwise the digits that the definition
computes are those that `roundsTo_roundWithAccuracy` or `roundsTo_normalize` asks for.
-/

namespace Gait

namespace Binary32

open Float.Model (UnpackedFloat Format totalExponent)
open Float.Model.UnpackedFloat

/-! ## On parts -/

/-- The values of two numbers as multiples of the same power of two. -/
theorem value_eq_at_min (s : Sign) (m : ℕ) {e t : ℤ} (hm : 0 < m) (ht : t ≤ e) :
    value (.finite s m e hm) = ((s.apply (decreaseExponent m e t).1 : ℤ) : ℝ) * 2 ^ t := by
  rw [decreaseExponent_eq m ht, apply_eq_unit_mul, value_finite, mul_assoc, ← mul_two_pow_toNat_mul_zpow m ht]
  push_cast
  ring

theorem roundsTo_zero (s : Sign) : RoundsTo (.zero s) 0 := ⟨trivial, by simp, rfl⟩

theorem roundsTo_add {u v : UnpackedFloat} (hu : Canonical u) (hv : Canonical v) (fu : u.isFinite = true)
    (fv : v.isFinite = true) : RoundsTo (add Format.binary32 u v) (value u + value v) := by
  rcases isFinite_cases fu with ⟨s, rfl⟩ | ⟨s, m, e, hm, rfl⟩ <;>
    rcases isFinite_cases fv with ⟨t, rfl⟩ | ⟨t, n, f, hn, rfl⟩
  · simp only [value_zero, add_zero]
    cases s <;> cases t <;> exact roundsTo_zero _
  · simpa [add] using roundsTo_self hv fv
  · simpa [add] using roundsTo_self hu fu
  · have hsum : value (.finite s m e hm) + value (.finite t n f hn) =
        ((s.apply (decreaseExponent m e (min e f)).1 + t.apply (decreaseExponent n f (min e f)).1 : ℤ) : ℝ) *
          2 ^ min e f := by
      rw [value_eq_at_min s m hm (min_le_left e f), value_eq_at_min t n hn (min_le_right e f)]
      push_cast
      ring
    rw [hsum]
    exact roundsTo_normalize _ _ _

theorem canonical_neg {u : UnpackedFloat} (h : Canonical u) : Canonical u.neg := by cases u <;> exact h

theorem bounded_neg {u : UnpackedFloat} (h : Bounded u) : Bounded u.neg := by cases u <;> exact h

theorem isFinite_neg (u : UnpackedFloat) : u.neg.isFinite = u.isFinite := by cases u <;> rfl

theorem value_neg (u : UnpackedFloat) : value u.neg = -value u := by
  cases u with
  | finite s m e hm =>
    show value (.finite (-s) m e hm) = -value (.finite s m e hm)
    rw [value_finite, value_finite, unit_neg]
    push_cast
    ring
  | _ => simp [neg, value]

/-- Subtracting is adding the negated number. -/
theorem sub_eq_add (u v : UnpackedFloat) : sub Format.binary32 u v = add Format.binary32 u v.neg := by
  cases u with
  | finite s m e hm =>
    cases v with
    | finite t n f hn =>
      have happly : ∀ k : ℤ, (-t).apply k = -t.apply k := by
        intro k
        rw [apply_eq_unit_mul, apply_eq_unit_mul, unit_neg]
        ring
      simp only [sub, add, neg, happly]
      rfl
    | _ => rfl
  | _ => cases v <;> rfl

theorem roundsTo_sub {u v : UnpackedFloat} (hu : Canonical u) (hv : Canonical v) (fu : u.isFinite = true)
    (fv : v.isFinite = true) : RoundsTo (sub Format.binary32 u v) (value u - value v) := by
  have h := roundsTo_add hu (canonical_neg hv) fu (by rw [isFinite_neg]; exact fv)
  rw [value_neg, ← sub_eq_add_neg] at h
  rwa [sub_eq_add]

theorem roundsTo_mul {u v : UnpackedFloat} (hu : Canonical u) (hv : Canonical v) (fu : u.isFinite = true)
    (fv : v.isFinite = true) : RoundsTo (mul Format.binary32 u v) (value u * value v) := by
  rcases isFinite_cases fu with ⟨s, rfl⟩ | ⟨s, m, e, hm, rfl⟩ <;>
    rcases isFinite_cases fv with ⟨t, rfl⟩ | ⟨t, n, f, hn, rfl⟩
  · simpa [mul] using roundsTo_zero _
  · simpa [mul] using roundsTo_zero _
  · simpa [mul] using roundsTo_zero _
  · obtain ⟨-, hem, hm'⟩ := hu
    obtain ⟨-, hen, hn'⟩ := hv
    have hmn : 0 < m * n := Nat.mul_pos hm hn
    have hprod : value (.finite s m e hm) * value (.finite t n f hn) =
        unit (s * t) * (((m * n : ℕ) : ℝ) * 2 ^ (e + f)) := by
      rw [value_finite, value_finite, unit_mul, zpow_add₀ (by norm_num)]
      push_cast
      ring
    rw [hprod]
    apply roundsTo_roundWithAccuracy
    · rw [mul_div_cancel_right₀ _ (by positivity)]
      exact truncates_exact _
    · -- one factor with all its digits gives the product enough
      by_cases hbig : 2 ^ 23 ≤ m * n
      · have hlog := (Nat.le_log2 hmn.ne').mpr hbig
        omega
      · have hm'' : ¬ 2 ^ 23 ≤ m := fun h => hbig (h.trans (Nat.le_mul_of_pos_right m hn))
        have hn'' : ¬ 2 ^ 23 ≤ n := fun h => hbig (h.trans (Nat.le_mul_of_pos_left n hm))
        omega

/-! ### Division -/

/-- The remainder of a division tells where the quotient lies above its integer part. -/
theorem truncates_accuracyOfFraction (q : ℕ) {r d : ℕ} (hr : r < d) :
    Truncates (ExtendedMantissa.ofMantissaAndAccuracy q (accuracyOfFraction r d)) (q + r / d) := by
  have hd : (0 : ℝ) < d := by exact_mod_cast (Nat.zero_le r).trans_lt hr
  have hr' : (r : ℝ) / d < 1 := by
    rw [div_lt_one hd]
    exact_mod_cast hr
  have hr0 : (0 : ℝ) ≤ (r : ℝ) / d := by positivity
  unfold accuracyOfFraction
  split_ifs with h
  · rw [h, Nat.cast_zero, zero_div, add_zero]
    exact truncates_exact q
  · have hpos : (0 : ℝ) < (r : ℝ) / d := by positivity
    rcases lt_trichotomy (2 * r) d with hlt | heq | hgt
    · have hhalf : (r : ℝ) / d < 1 / 2 := by
        rw [div_lt_div_iff₀ hd (by norm_num)]
        exact_mod_cast (by omega : r * 2 < 1 * d)
      rw [Nat.compare_eq_lt.mpr hlt]
      constructor <;> simp only [ExtendedMantissa.ofMantissaAndAccuracy, halfBit]
      · simpa using hr0
      · simpa using hhalf
      · simpa using hpos
    · have hhalf : (r : ℝ) / d = 1 / 2 := by
        rw [div_eq_div_iff hd.ne' (by norm_num)]
        exact_mod_cast (by omega : r * 2 = 1 * d)
      rw [Nat.compare_eq_eq.mpr heq, hhalf]
      constructor <;> simp [ExtendedMantissa.ofMantissaAndAccuracy, halfBit]
    · have hhalf : 1 / 2 < (r : ℝ) / d := by
        rw [div_lt_div_iff₀ (by norm_num) hd]
        exact_mod_cast (by omega : 1 * d < r * 2)
      rw [Nat.compare_eq_gt.mpr hgt]
      constructor <;> simp only [ExtendedMantissa.ofMantissaAndAccuracy, halfBit, if_true]
      · linarith
      · linarith
      · simpa using hhalf

theorem roundsTo_div {u v : UnpackedFloat} (fu : u.isFinite = true) (fv : v.isFinite = true) (h0 : value v ≠ 0) :
    RoundsTo (div Format.binary32 u v) (value u / value v) := by
  rcases isFinite_cases fv with ⟨t, rfl⟩ | ⟨t, n, f, hn, rfl⟩
  · exact absurd rfl h0
  rcases isFinite_cases fu with ⟨s, rfl⟩ | ⟨s, m, e, hm, rfl⟩
  · simpa [div] using roundsTo_zero _
  · obtain ⟨g, hg⟩ : ∃ g, g = min (e - f) (Format.binary32.targetExponent (totalExponent m e - totalExponent n f)) :=
      ⟨_, rfl⟩
    obtain ⟨k, hk⟩ : ∃ k, k = m * 2 ^ (e - f - g).toNat := ⟨_, rfl⟩
    have hdiv : div Format.binary32 (.finite s m e hm) (.finite t n f hn) =
        roundWithAccuracy Format.binary32 (s / t) (k / n) g (accuracyOfFraction (k % n) n) := by
      simp only [div, divCore, Nat.shiftLeft_eq, ← hg, ← hk]
    have hgle : g ≤ e - f := by
      rw [hg]
      exact min_le_left _ _
    have hquot : value (.finite s m e hm) / value (.finite t n f hn) =
        unit (s / t) * (((k / n : ℕ) + (k % n : ℕ) / n) * 2 ^ g) := by
      have hn' : (n : ℝ) ≠ 0 := by positivity
      have hqr : ((k / n : ℕ) + (k % n : ℕ) / n : ℝ) = k / n := by
        rw [eq_div_iff hn', add_mul, div_mul_cancel₀ _ hn', mul_comm]
        exact_mod_cast Nat.div_add_mod k n
      have hkg : (k : ℝ) * 2 ^ g = m * 2 ^ (e - f) := by
        rw [hk]
        exact mul_two_pow_toNat_mul_zpow m hgle
      have hut : (unit t : ℝ) * unit t = 1 := by exact_mod_cast unit_mul_self t
      have hut0 : (unit t : ℝ) ≠ 0 := fun h => by simp [h] at hut
      rw [hqr, div_mul_eq_mul_div, hkg, value_finite, value_finite, unit_div, zpow_sub₀ (by norm_num)]
      push_cast
      rw [div_eq_iff (by positivity)]
      field_simp
      rw [sq, hut, mul_one]
    rw [hdiv, hquot]
    apply roundsTo_roundWithAccuracy
    · rw [mul_div_cancel_right₀ _ (by positivity)]
      exact truncates_accuracyOfFraction _ (Nat.mod_lt _ hn)
    · -- above the least exponent the dividend is given twenty-four digits more than the divisor has
      rw [targetExponent_def, totalExponent, totalExponent] at hg
      by_cases hlow : g ≤ -149
      · omega
      · have hq : 2 ^ 23 ≤ k / n := by
          rw [Nat.le_div_iff_mul_le hn]
          calc 2 ^ 23 * n ≤ 2 ^ 23 * 2 ^ (n.log2 + 1) := Nat.mul_le_mul_left _ Nat.lt_log2_self.le
            _ = 2 ^ (n.log2 + 24) := by rw [← pow_add]; congr 1; omega
            _ ≤ 2 ^ (m.log2 + (e - f - g).toNat) := Nat.pow_le_pow_right (by norm_num) (by omega)
            _ = 2 ^ m.log2 * 2 ^ (e - f - g).toNat := pow_add _ _ _
            _ ≤ k := by rw [hk]; exact Nat.mul_le_mul_right _ (Nat.log2_self_le hm.ne')
        have hlog := (Nat.le_log2 (by positivity)).mpr hq
        omega

/-! ### Square roots -/

/-- The remainder of an integer square root tells where the root lies above its integer part; half way it never does. -/
theorem truncates_sqrt (m : ℕ) : Truncates (ExtendedMantissa.ofMantissaAndAccuracy (Nat.sqrt m)
    (if m - Nat.sqrt m * Nat.sqrt m = 0 then .exact
      else .inexact (if m - Nat.sqrt m * Nat.sqrt m ≤ Nat.sqrt m then .lt else .gt))) (√m) := by
  obtain ⟨q, hq⟩ : ∃ q, q = Nat.sqrt m := ⟨_, rfl⟩
  have hle : q * q ≤ m := hq ▸ Nat.sqrt_le m
  have hroot : (q : ℝ) ≤ √m := hq ▸ Real.nat_sqrt_le_real_sqrt
  have hroot' : √m < q + 1 := hq ▸ Real.real_sqrt_lt_nat_sqrt_succ
  rw [← hq]
  split_ifs with h h'
  · have hm : (m : ℝ) = q ^ 2 := by
      rw [sq]
      exact_mod_cast (by omega : m = q * q)
    rw [hm, Real.sqrt_sq (by positivity)]
    exact truncates_exact q
  · have hpos : (q : ℝ) < √m := by
      rw [Real.lt_sqrt (by positivity), sq]
      exact_mod_cast (by omega : q * q < m)
    have hhalf : √m < q + 1 / 2 := by
      have hm : (m : ℝ) ≤ q * q + q := by exact_mod_cast (by omega : m ≤ q * q + q)
      rw [Real.sqrt_lt' (by positivity)]
      linarith
    constructor <;> simp only [ExtendedMantissa.ofMantissaAndAccuracy, halfBit]
    · simpa using hroot
    · simpa using hhalf
    · simpa using hpos
  · have hhalf : q + 1 / 2 < √m := by
      have hm : (q : ℝ) * q + q + 1 ≤ m := by exact_mod_cast (by omega : q * q + q + 1 ≤ m)
      rw [Real.lt_sqrt (by positivity)]
      linarith
    constructor <;> simp only [ExtendedMantissa.ofMantissaAndAccuracy, halfBit, if_true]
    · exact hhalf.le
    · linarith
    · simpa using hhalf

theorem roundsTo_sqrt {u : UnpackedFloat} (fu : u.isFinite = true) (h0 : 0 ≤ value u) :
    RoundsTo (sqrt Format.binary32 u) (√(value u)) := by
  rcases isFinite_cases fu with ⟨s, rfl⟩ | ⟨s, m, e, hm, rfl⟩
  · simpa [sqrt] using roundsTo_zero _
  · have hs : s = .positive := by
      cases s with
      | positive => rfl
      | negative =>
        rw [value_finite, unit, mul_assoc] at h0
        push_cast at h0
        have : (0 : ℝ) < m * 2 ^ e := by positivity
        linarith
    subst hs
    obtain ⟨g, hg⟩ : ∃ g, g = min (e.ediv 2) (Format.binary32.targetExponent ((totalExponent m e + 1).ediv 2)) :=
      ⟨_, rfl⟩
    obtain ⟨k, hk⟩ : ∃ k, k = m * 2 ^ (e - 2 * g).toNat := ⟨_, rfl⟩
    have hgle : 2 * g ≤ e := by
      have : g ≤ e / 2 := by
        rw [hg]
        exact min_le_left _ _
      omega
    have hroot : √(value (.finite .positive m e hm)) = unit .positive * (√k * 2 ^ g) := by
      have hsq : value (.finite .positive m e hm) = k * (2 ^ g) ^ 2 := by
        rw [value_finite, hk, ← zpow_natCast, ← zpow_mul, mul_comm g, Nat.cast_ofNat, mul_two_pow_toNat_mul_zpow m hgle]
        simp [unit]
      rw [hsq, Real.sqrt_mul (by positivity), Real.sqrt_sq (by positivity)]
      simp [unit]
    rw [hroot]
    unfold sqrt sqrtCore
    simp only [Nat.shiftLeft_eq, ← hg, ← hk]
    apply roundsTo_roundWithAccuracy
    · rw [mul_div_cancel_right₀ _ (by positivity)]
      exact truncates_sqrt k
    · -- above the least exponent the radicand is given forty-seven digits, and so the root twenty-four
      rw [targetExponent_def, totalExponent] at hg
      by_cases hlow : g ≤ -149
      · omega
      · have hdiv : (m.log2 + 1 + e + 1 : ℤ).ediv 2 = (m.log2 + 1 + e + 1 : ℤ) / 2 := rfl
        rw [hdiv] at hg
        have hq : 2 ^ 23 ≤ Nat.sqrt k := by
          rw [Nat.le_sqrt, hk]
          calc 2 ^ 23 * 2 ^ 23 = 2 ^ 46 := by norm_num
            _ ≤ 2 ^ (m.log2 + (e - 2 * g).toNat) := Nat.pow_le_pow_right (by norm_num) (by omega)
            _ = 2 ^ m.log2 * 2 ^ (e - 2 * g).toNat := pow_add _ _ _
            _ ≤ m * 2 ^ (e - 2 * g).toNat := Nat.mul_le_mul_right _ (Nat.log2_self_le hm.ne')
        have hlog := (Nat.le_log2 (by omega)).mpr hq
        omega

/-! ## On numbers -/

/-- The number is the one nearest to a real number, or infinity under its sign if that would be too large. -/
structure Rounded (z : Float32) (x : ℝ) : Prop where
  finite (h : |nearest x| ≤ largest) : z.isFinite = true ∧ toReal z = nearest x
  infinite (h : largest < |nearest x|) : parts z = .infinity (if 0 < x then .positive else .negative)

theorem Rounded.toReal_eq {z : Float32} {x : ℝ} (h : Rounded z x) (hz : z.isFinite = true) : toReal z = nearest x := by
  rcases le_or_gt |nearest x| largest with hle | hgt
  · exact (h.finite hle).2
  · have hfin : (parts z).isFinite = true := hz
    rw [h.infinite hgt] at hfin
    cases hfin

/-- Packing canonical parts gives the number they stand for, or infinity if they are too large. -/
theorem RoundsTo.rounded {u : UnpackedFloat} {x : ℝ} (h : RoundsTo u x) : Rounded ⟨Float32.Model.pack u⟩ x := by
  obtain ⟨hc, hv, hf⟩ := h
  rcases isFinite_cases hf with ⟨s, rfl⟩ | ⟨s, m, e, hm, rfl⟩
  · have hparts : parts ⟨Float32.Model.pack (.zero s)⟩ = .zero s := parts_pack hc trivial
    refine ⟨fun _ => ⟨isFinite_iff.mpr (Or.inl ⟨s, hparts⟩), ?_⟩, fun hlarge => ?_⟩
    · rw [toReal, hparts, hv]
    · rw [← hv, value_zero, abs_zero] at hlarge
      have : (0 : ℝ) < largest := by norm_num [largest]
      linarith
  · by_cases he : e ≤ 104
    · have hparts := parts_pack hc he
      have hval : toReal ⟨Float32.Model.pack (.finite s m e hm)⟩ = nearest x := by rw [toReal, hparts, hv]
      refine ⟨fun _ => ⟨isFinite_iff.mpr (Or.inr ⟨s, m, e, hm, hparts⟩), hval⟩, fun hlarge => ?_⟩
      rw [← hval] at hlarge
      exact absurd (abs_toReal_le _) (not_le.mpr hlarge)
    · have hparts := parts_pack_of_large s m hm (by omega : 104 < e)
      have hlarge : largest < |nearest x| := by
        obtain ⟨-, -, hlow⟩ := hc
        have hm' : (2 : ℝ) ^ 23 ≤ m := by exact_mod_cast hlow.resolve_right (by omega)
        have he' : (2 : ℝ) ^ (105 : ℤ) ≤ 2 ^ e := zpow_le_zpow_right₀ (by norm_num) (by omega)
        rw [← hv, abs_value_finite]
        calc largest < 2 ^ 23 * 2 ^ (105 : ℤ) := by norm_num [largest]
          _ ≤ m * 2 ^ e := mul_le_mul hm' he' (by positivity) (by positivity)
      refine ⟨fun hsmall => absurd hsmall (not_le.mpr hlarge), fun _ => ?_⟩
      have hpos : (0 : ℝ) < m * 2 ^ e := by positivity
      have hx0 : x ≤ 0 → nearest x ≤ 0 := grid_zero.nearest_le
      have hx1 : 0 < x → 0 ≤ nearest x := fun h => nearest_nonneg h.le
      rw [value_finite, mul_assoc] at hv
      rw [hparts]
      cases s with
      | positive =>
        rw [if_pos]
        by_contra h
        have := hx0 (not_lt.mp h)
        rw [← hv] at this
        simp only [unit, Int.cast_one, one_mul] at this
        linarith
      | negative =>
        rw [if_neg]
        intro h
        have := hx1 h
        rw [← hv] at this
        simp only [unit, Int.cast_neg, Int.cast_one, neg_mul, one_mul] at this
        linarith

section Numbers

variable {x y : Float32}

theorem rounded_add (hx : x.isFinite = true) (hy : y.isFinite = true) : Rounded (x + y) (toReal x + toReal y) :=
  (roundsTo_add (canonical_parts x) (canonical_parts y) hx hy).rounded

theorem rounded_sub (hx : x.isFinite = true) (hy : y.isFinite = true) : Rounded (x - y) (toReal x - toReal y) :=
  (roundsTo_sub (canonical_parts x) (canonical_parts y) hx hy).rounded

theorem rounded_mul (hx : x.isFinite = true) (hy : y.isFinite = true) : Rounded (x * y) (toReal x * toReal y) :=
  (roundsTo_mul (canonical_parts x) (canonical_parts y) hx hy).rounded

theorem rounded_div (hx : x.isFinite = true) (hy : y.isFinite = true) (h0 : toReal y ≠ 0) :
    Rounded (x / y) (toReal x / toReal y) :=
  (roundsTo_div hx hy h0).rounded

theorem rounded_sqrt (hx : x.isFinite = true) (h0 : 0 ≤ toReal x) : Rounded x.sqrt (√(toReal x)) :=
  (roundsTo_sqrt hx h0).rounded

/-- A natural number becomes the nearest binary32 number. -/
theorem rounded_ofNat (n : ℕ) : Rounded ⟨Float32.Model.ofNat n⟩ n := by
  have h := (roundsTo_normalize n 0 .positive).rounded
  rw [zpow_zero, mul_one] at h
  exact h

theorem rounded_ofDyadic (m : ℕ) (e : ℤ) : Rounded (ofDyadic m e) (m * 2 ^ e) := by
  have h := (roundsTo_round .positive m e).rounded
  rw [unit, Int.cast_one, one_mul] at h
  exact h

/-! Negation and magnitude are exact. -/

theorem parts_neg (x : Float32) : parts (-x) = (parts x).neg :=
  parts_pack (canonical_neg (canonical_parts x)) (bounded_neg (bounded_parts x))

theorem parts_abs (x : Float32) : parts x.abs = (parts x).abs := by
  have hc := canonical_parts x
  have hb := bounded_parts x
  refine parts_pack ?_ ?_
  · show Canonical (parts x).abs
    cases h : parts x <;> rw [h] at hc <;> exact hc
  · show Bounded (parts x).abs
    cases h : parts x <;> rw [h] at hb <;> exact hb

@[simp] theorem toReal_neg (x : Float32) : toReal (-x) = -toReal x := by
  rw [toReal, parts_neg, value_neg, toReal]

@[simp] theorem neg_isFinite (x : Float32) : (-x).isFinite = x.isFinite := by
  show (parts (-x)).isFinite = (parts x).isFinite
  rw [parts_neg, isFinite_neg]

@[simp] theorem toReal_abs (x : Float32) : toReal x.abs = |toReal x| := by
  rw [toReal, toReal, parts_abs]
  cases parts x with
  | finite s m e hm =>
    rw [abs_value_finite, UnpackedFloat.abs, value_finite, unit, Int.cast_one, one_mul]
  | _ => simp [UnpackedFloat.abs, value]

@[simp] theorem abs_isFinite (x : Float32) : x.abs.isFinite = x.isFinite := by
  show (parts x.abs).isFinite = (parts x).isFinite
  rw [parts_abs]
  cases parts x <;> rfl

end Numbers

end Binary32

end Gait
