import Gait.Proofs.Binary32.Accuracy
import Gait.Proofs.Sampling.Counts

/-!
# The times of the samples

A sample is taken at each multiple of the step, rounded. As long as the multiples are fewer than a mantissa can count, two
neighbours are further apart than the numbers around them stand, or are numbers themselves where these stand closest; so no two
samples fall on one time. The last multiple may be infinite, the ones before it are not.
-/

namespace Gait

namespace Binary32

open Float.Model (Format)
open Float.Model.UnpackedFloat

/-! ## Rounded multiples -/

variable {s y : ℝ} {i n : ℕ}

/-- Where the numbers stand closest, the multiples of a number are numbers. -/
theorem Grid.natCast_mul (hs : Grid s) (h : |n * s| < 2 ^ (-149 + 24 : ℤ)) : Grid (n * s) := by
  obtain ⟨k, rfl⟩ := hs.exists_mul_least
  have hmul : (n : ℝ) * (k * 2 ^ (-149 : ℤ)) = ((n * k : ℤ) : ℝ) * 2 ^ (-149 : ℤ) := by
    push_cast
    ring
  rw [hmul] at h ⊢
  refine ⟨n * k, -149, ?_, le_rfl, rfl⟩
  rw [abs_mul, abs_of_pos (by positivity : (0 : ℝ) < 2 ^ (-149 : ℤ)), zpow_add₀ (by norm_num), mul_comm,
    mul_lt_mul_iff_right₀ (by positivity)] at h
  have h' : |(n * k : ℤ)| < 2 ^ 24 := by exact_mod_cast h
  exact h'.le

/-- Rounding moves a number by at most half a unit of the last place of any larger one. -/
theorem abs_nearest_sub_le_of_le (h0 : 0 ≤ s) (h : s ≤ y) : |nearest s - s| ≤ 2 ^ ulpExp y / 2 := by
  rcases h0.eq_or_lt with rfl | hpos
  · rw [nearest_zero, sub_zero, abs_zero]
    positivity
  · have hexp : (2 : ℝ) ^ ulpExp s ≤ 2 ^ ulpExp y := zpow_le_zpow_right₀ (by norm_num) (ulpExp_mono hpos h)
    linarith [abs_nearest_sub_le_ulp s]

/-- Neighbouring multiples of a number are rounded to different numbers. -/
theorem nearest_mul_lt (hs : Grid s) (h0 : 0 < s) (hi : i + 1 < 2 ^ 23) : nearest (i * s) < nearest ((i + 1 : ℕ) * s) := by
  obtain ⟨y, hy⟩ : ∃ y, y = ((i + 1 : ℕ) : ℝ) * s := ⟨_, rfl⟩
  have hstep : y = i * s + s := by
    rw [hy]
    push_cast
    ring
  have hx0 : 0 ≤ (i : ℝ) * s := by positivity
  have hpos : 0 < y := by linarith
  rw [← hy]
  refine lt_of_le_of_ne (nearest_mono (by linarith)) ?_
  intro heq
  rcases (le_ulpExp y).eq_or_lt with he | he
  · -- the numbers stand closest here, and both multiples are among them
    have hclose : |y| < 2 ^ (-149 + 24 : ℤ) := by
      rw [he]
      exact lt_two_zpow_ulpExp y
    have hclose' : |(i : ℝ) * s| < 2 ^ (-149 + 24 : ℤ) := by
      rw [abs_of_nonneg hx0]
      rw [abs_of_pos hpos] at hclose
      linarith
    rw [hy] at hclose
    rw [(hs.natCast_mul hclose').nearest_eq, hy, (hs.natCast_mul hclose).nearest_eq, ← hy] at heq
    linarith
  · -- rounded to one number they are at most a unit apart, which is less than the step
    have hunit : s ≤ 2 ^ ulpExp y := by
      have hx := abs_le.1 (abs_nearest_sub_le_of_le hx0 (by linarith : (i : ℝ) * s ≤ y))
      have hy' := abs_le.1 (abs_nearest_sub_le_ulp y)
      rw [heq] at hx
      linarith
    have hlead := two_zpow_ulpExp_le hpos.ne' he
    rw [abs_of_pos hpos, zpow_add₀ (by norm_num)] at hlead
    have hcount : ((i + 1 : ℕ) : ℝ) < 2 ^ (23 : ℤ) := by exact_mod_cast hi
    have hshort : y < 2 ^ (23 : ℤ) * s := by
      rw [hy]
      exact mul_lt_mul_of_pos_right hcount h0
    have hlong : s * 2 ^ (23 : ℤ) ≤ y := (mul_le_mul_of_nonneg_right hunit (by positivity)).trans hlead
    linarith

/-- With one of the rounded shares left out the others do not go beyond the whole: they are too large by less than a share. -/
theorem mul_nearest_div_le {d : ℝ} (hd : 1 ≤ d) (hi : i + 1 ≤ n) (hn : n ≤ 2 ^ 20) : i * nearest (d / n) ≤ d := by
  obtain ⟨q, hq⟩ : ∃ q, q = d / n := ⟨_, rfl⟩
  have hi' : (i : ℝ) + 1 ≤ n := by exact_mod_cast hi
  have hn' : (n : ℝ) ≤ 2 ^ 20 := by exact_mod_cast hn
  have hn0 : (0 : ℝ) < n := by linarith [(Nat.cast_nonneg i : (0 : ℝ) ≤ i)]
  have hwhole : n * q = d := by rw [hq, mul_div_cancel₀ _ hn0.ne']
  have hq0 : 0 ≤ q := by
    rw [hq]
    positivity
  have hshare : d / 2 ^ 20 ≤ q := by
    rw [hq]
    exact div_le_div_of_nonneg_left (by linarith) hn0 hn'
  have herr := abs_le.1 (abs_nearest_sub_le q)
  rw [abs_of_nonneg hq0] at herr
  rw [← hq]
  calc i * nearest q ≤ (n - 1) * nearest q := mul_le_mul_of_nonneg_right (by linarith) (nearest_nonneg hq0)
    _ ≤ (n - 1) * (q + (q / 2 ^ 24 + 1 / 2 ^ 150)) :=
        mul_le_mul_of_nonneg_left (by linarith) (by linarith [(Nat.cast_nonneg i : (0 : ℝ) ≤ i)])
    _ = n * q - q + (n * q - q) / 2 ^ 24 + (n - 1) / 2 ^ 150 := by ring
    _ ≤ d := by
        rw [hwhole]
        linarith

/-- Zero times a positive number is zero, and the zero without a sign. -/
theorem zero_mul_of_pos {x : Float32} (hx : x.isFinite = true) (h0 : 0 < toReal x) : 0 * x = 0 := by
  obtain ⟨m, e, hm, hp⟩ := parts_of_pos hx h0
  have hzero : parts 0 = .zero .positive := by rfl
  have hsame : mul Format.binary32 (parts 0) (parts x) = parts 0 := by
    rw [hzero, hp]
    rfl
  have hmul : 0 * x = ⟨Float32.Model.pack (mul Format.binary32 (parts 0) (parts x))⟩ := rfl
  rw [hmul, hsame, pack_parts]

end Binary32

namespace Plan

open Binary32

/-! ## Times in order -/

theorem rounded_time {plan : Plan Float32} (hfin : plan.step.isFinite = true) {i : ℕ} (hi : i ≤ 2 ^ 20) :
    Rounded (Scalar.ofNat i * plan.step) (i * toReal plan.step) := by
  obtain ⟨ifin, ival⟩ := float32_ofNat (n := i) (by omega)
  have hround := rounded_mul ifin hfin
  rwa [ival] at hround

/-- A later multiple of the step is a later time, if the earlier one is not too large. -/
theorem time_lt_time {plan : Plan Float32} (hfin : plan.step.isFinite = true) (hpos : 0 < toReal plan.step) {i j : ℕ}
    (hij : i < j) (hj : j ≤ 2 ^ 20) (hroom : nearest (i * toReal plan.step) ≤ largest) :
    Scalar.ofNat i * plan.step < Scalar.ofNat j * plan.step := by
  have hnext : nearest (i * toReal plan.step) < nearest ((i + 1 : ℕ) * toReal plan.step) :=
    nearest_mul_lt (grid_toReal _) hpos (by omega)
  have hlater : nearest ((i + 1 : ℕ) * toReal plan.step) ≤ nearest (j * toReal plan.step) :=
    nearest_mono (mul_le_mul_of_nonneg_right (by exact_mod_cast hij) hpos.le)
  have hearly : |nearest (i * toReal plan.step)| ≤ largest := by rwa [abs_of_nonneg (nearest_nonneg (by positivity))]
  obtain ⟨ifin, ival⟩ := (rounded_time hfin (by omega : i ≤ 2 ^ 20)).finite hearly
  have hround := rounded_time hfin hj
  rcases le_or_gt |nearest (j * toReal plan.step)| largest with hsmall | hlarge
  · obtain ⟨jfin, jval⟩ := hround.finite hsmall
    rw [lt_iff ifin jfin, ival, jval]
    exact hnext.trans_le hlater
  · have hinf := hround.infinite hlarge
    have hj0 : (0 : ℝ) < j := by exact_mod_cast (by omega : 0 < j)
    rw [if_pos (by positivity)] at hinf
    exact lt_of_parts_infinity ifin hinf

/-- The times of a plan ascend if it takes no more samples than the cap allows, its step is a positive number and no time but the
last is too large. -/
theorem pairwise_times {plan : Plan Float32} (hcount : plan.count.toNat ≤ 2 ^ 20 + 1) (hfin : plan.step.isFinite = true)
    (hpos : 0 < toReal plan.step) (hroom : ∀ i : ℕ, i + 1 < plan.count.toNat → nearest (i * toReal plan.step) ≤ largest) :
    plan.times.Pairwise (· < ·) := by
  rw [times, List.pairwise_map]
  refine List.pairwise_lt_range.imp_of_mem ?_
  intro i j hi hj hij
  rw [List.mem_range] at hi hj
  exact time_lt_time hfin hpos hij (by omega) (hroom i (by omega))

variable {rate duration : Float32}

/-- Only the last time of a plan can be too large. -/
theorem nearest_mul_step_le (hr : isUsable rate = true) (hd : isUsable duration = true) {i : ℕ}
    (hi : i + 1 < (ofRate rate duration).count.toNat) : nearest (i * toReal (ofRate rate duration).step) ≤ largest := by
  rw [toNat_count_ofRate hr hd] at hi
  have hn : intervals rate duration ≠ 0 := by
    intro h
    rw [h] at hi
    exact absurd hi (by simp)
  obtain ⟨-, hpos, hle⟩ := step_ofRate_bounds hr hd
  have hcap := intervals_le rate duration
  have hstep : toReal (ofRate rate duration).step = nearest (toReal duration / (intervals rate duration).toNat) := by
    rw [ofRate_of_isUsable hr hd]
    simp only [if_neg hn]
    exact (toReal_step hd (intervals_pos hn) hcap).2
  generalize (intervals rate duration).toNat = n at hi hcap hstep
  generalize toReal (ofRate rate duration).step = s at hpos hle hstep ⊢
  have hi' : (i : ℝ) + 1 ≤ n := by exact_mod_cast (by omega : i + 1 ≤ n)
  have hcap' : (n : ℝ) ≤ 2 ^ 20 := by exact_mod_cast hcap
  rcases le_or_gt (toReal duration) 1 with hshort | hlong
  · have hmul : (i : ℝ) * s ≤ 2 ^ 20 := by nlinarith
    exact ((mark_two_pow (k := 20) (by norm_num)).1.nearest_le hmul).trans (le_trans (by norm_num) two_pow_le_largest)
  · rw [hstep]
    have hmul := mul_nearest_div_le hlong.le (by omega : i + 1 ≤ n) hcap
    exact ((grid_toReal duration).nearest_le hmul).trans ((le_abs_self _).trans (abs_toReal_le duration))

/-- The first time of a plan with samples is zero. -/
theorem head?_times {plan : Plan Float32} (hne : plan.times ≠ []) (hfin : plan.step.isFinite = true)
    (hpos : 0 < toReal plan.step) : plan.times.head? = some 0 := by
  obtain ⟨n, hn⟩ : ∃ n, plan.count.toNat = n + 1 := by
    apply Nat.exists_eq_succ_of_ne_zero
    rw [← length_times plan]
    exact fun h => hne (List.length_eq_zero_iff.1 h)
  rw [times, hn, List.range_succ_eq_map, List.map_cons, List.head?_cons]
  exact congrArg some (zero_mul_of_pos hfin hpos)

/-- The times of a plan for a rate and a duration are as many as its samples, start at zero, and each is before the next: no two
samples are taken at one time, whatever the step. -/
theorem times_ofRate_ascend (rate duration : Float32) :
    (ofRate rate duration).times.length = (ofRate rate duration).count.toNat ∧
    (ofRate rate duration).count.toNat ≤ 2 ^ 20 + 1 ∧
    ((ofRate rate duration).times ≠ [] → (ofRate rate duration).times.head? = some 0) ∧
    (ofRate rate duration).times.Pairwise (· < ·) := by
  by_cases husable : isUsable rate = true ∧ isUsable duration = true
  · obtain ⟨hr, hd⟩ := husable
    obtain ⟨hfin, hpos, -⟩ := step_ofRate_bounds hr hd
    have hcount : (ofRate rate duration).count.toNat ≤ 2 ^ 20 + 1 := by
      rw [toNat_count_ofRate hr hd]
      exact Nat.succ_le_succ (intervals_le rate duration)
    exact ⟨length_times _, hcount, fun hne => head?_times hne hfin hpos,
      pairwise_times hcount hfin hpos fun i => nearest_mul_step_le hr hd⟩
  · rw [ofRate_of_not_isUsable husable]
    exact ⟨rfl, by decide, fun hne => absurd rfl hne, List.Pairwise.nil⟩

end Plan

end Gait
