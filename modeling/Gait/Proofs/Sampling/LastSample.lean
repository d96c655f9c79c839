import Gait.Proofs.Binary32.Integers
import Gait.World.Playback

/-!
# Where the last sample falls

The step of a plan is the duration divided by the number of intervals, and the last sample is taken at that many steps. Both the
division and the product are rounded. The error of the first rounding is as many times as large after the steps are taken; the
second rounding takes it back if it is less than half a unit of the last place of the duration, and otherwise the last sample is
not at the end of the motion. `LandsOn` computes from the digits of the duration which of the two it is.
-/

namespace Gait

namespace Plan

open Float.Model (UnpackedFloat)
open Binary32

/-! ## The digits of the step -/

/-- The quotient rounded to an integer, a half going to the even one. -/
def roundQuotient (a n : ℕ) : ℕ :=
  if 2 * (a % n) < n then a / n else if n < 2 * (a % n) then a / n + 1 else a / n + a / n % 2

/-- The digits a mantissa has to be given before it is divided, for the quotient to have twenty-four; there are no more than the
exponent has room for. -/
def stepShift (n m : ℕ) (e : ℤ) : ℕ :=
  min (if n * 2 ^ 23 ≤ m * 2 ^ n.log2 then n.log2 else n.log2 + 1) (e + 149).toNat

/-- The mantissa of the step for `n` intervals of a motion that lasts `m * 2 ^ e`. -/
def stepMantissa (n m : ℕ) (e : ℤ) : ℕ := roundQuotient (m * 2 ^ stepShift n m e) n

/-- How far `n` steps go beyond the end, in units of the last place of the step. -/
def overshoot (n m : ℕ) (e : ℤ) : ℤ := (stepMantissa n m e * n : ℕ) - (m * 2 ^ stepShift n m e : ℕ)

/-- The steps end within half a unit of the last place of the duration, or on its edge if the mantissa is even; below a power of
two within a quarter, since the numbers stand twice as close there. -/
def LandsOn (n m : ℕ) (e : ℤ) : Prop :=
  if overshoot n m e < 0 ∧ m = 2 ^ 23 ∧ -149 < e then 4 * (overshoot n m e).natAbs ≤ 2 ^ stepShift n m e
  else 2 * (overshoot n m e).natAbs < 2 ^ stepShift n m e ∨
    (2 * (overshoot n m e).natAbs = 2 ^ stepShift n m e ∧ Even m)

instance decidableLandsOn (n m : ℕ) (e : ℤ) : Decidable (LandsOn n m e) :=
  inferInstanceAs (Decidable (if overshoot n m e < 0 ∧ m = 2 ^ 23 ∧ -149 < e then _ ≤ _ else _ < _ ∨ (_ = _ ∧ Even _)))

/-- The last of `n` steps lands on the number that has the parts. -/
def Lands (n : ℕ) : UnpackedFloat → Prop
  | .finite _ m e _ => LandsOn n m e
  | _ => False

instance decidableLands (n : ℕ) : (u : UnpackedFloat) → Decidable (Lands n u)
  | .finite _ m e _ => inferInstanceAs (Decidable (LandsOn n m e))
  | .infinity _ => .isFalse id
  | .notANumber => .isFalse id
  | .zero _ => .isFalse id

/-- The integer quotient is rounded as the real one is. -/
theorem halfEven_div (a : ℕ) {n : ℕ} (hn : 0 < n) : halfEven ((a : ℝ) / n) = roundQuotient a n := by
  have hround := (truncates_accuracyOfFraction (a / n) (Nat.mod_lt a hn)).roundedMantissa
  have hsplit : ((a / n : ℕ) : ℝ) + ((a % n : ℕ) : ℝ) / n = a / n := by
    rw [eq_div_iff (by positivity), add_mul, div_mul_cancel₀ _ (by positivity), mul_comm]
    exact_mod_cast Nat.div_add_mod a n
  rw [hsplit] at hround
  rw [← hround]
  unfold Float.Model.UnpackedFloat.accuracyOfFraction roundQuotient
  rcases Nat.eq_zero_or_pos (a % n) with hr | hr
  · rw [if_pos hr, hr, if_pos (by omega)]
    rfl
  · rw [if_neg hr.ne']
    rcases lt_trichotomy (2 * (a % n)) n with h | h | h
    · rw [if_pos h, Nat.compare_eq_lt.mpr h]
      rfl
    · rw [if_neg (by omega), if_neg (by omega), Nat.compare_eq_eq.mpr h]
      rfl
    · rw [if_neg (by omega), if_pos h, Nat.compare_eq_gt.mpr h]
      rfl

/-- The digits given to a mantissa of twenty-four bits give the quotient twenty-four. -/
theorem quotient_bounds {n m : ℕ} (hn : 0 < n) (hlow : 2 ^ 23 ≤ m) (hm : m < 2 ^ 24) :
    n * 2 ^ 23 ≤ m * 2 ^ (if n * 2 ^ 23 ≤ m * 2 ^ n.log2 then n.log2 else n.log2 + 1) ∧
      m * 2 ^ (if n * 2 ^ 23 ≤ m * 2 ^ n.log2 then n.log2 else n.log2 + 1) < n * 2 ^ 24 := by
  have hlo := Nat.log2_self_le hn.ne'
  have hhi := Nat.lt_log2_self (n := n)
  rw [pow_succ] at hhi
  split_ifs with h
  · refine ⟨h, ?_⟩
    calc m * 2 ^ n.log2 < 2 ^ 24 * 2 ^ n.log2 := Nat.mul_lt_mul_of_pos_right hm (by positivity)
      _ ≤ n * 2 ^ 24 := by rw [mul_comm]; exact Nat.mul_le_mul_right _ hlo
  · rw [pow_succ 2 n.log2, ← mul_assoc]
    have hbig : 2 ^ 23 * 2 ^ n.log2 ≤ m * 2 ^ n.log2 := Nat.mul_le_mul_right _ hlow
    constructor <;> omega

/-- The quotient has twenty-four digits, or as many as the least exponent leaves. -/
theorem stepShift_bounds {n m : ℕ} {e : ℤ} (hn : 0 < n) (hm : m < 2 ^ 24) (he : -149 ≤ e)
    (hlow : 2 ^ 23 ≤ m ∨ e = -149) :
    (n * 2 ^ 23 ≤ m * 2 ^ stepShift n m e ∨ e - stepShift n m e = -149) ∧ m * 2 ^ stepShift n m e < n * 2 ^ 24 := by
  obtain ⟨k, hk⟩ : ∃ k, k = if n * 2 ^ 23 ≤ m * 2 ^ n.log2 then n.log2 else n.log2 + 1 := ⟨_, rfl⟩
  have hs : stepShift n m e = min k (e + 149).toNat := by rw [hk, stepShift]
  rcases hlow with h | h
  · have hb := quotient_bounds hn h hm
    rw [← hk] at hb
    refine ⟨?_, ?_⟩
    · rcases Nat.le_total k (e + 149).toNat with hle | hle
      · rw [hs, min_eq_left hle]
        exact Or.inl hb.1
      · rw [hs, min_eq_right hle]
        exact Or.inr (by omega)
    · calc m * 2 ^ stepShift n m e ≤ m * 2 ^ k :=
            Nat.mul_le_mul_left _ (Nat.pow_le_pow_right (by norm_num) (by rw [hs]; exact min_le_left _ _))
        _ < n * 2 ^ 24 := hb.2
  · have h0 : stepShift n m e = 0 := by
      rw [hs]
      omega
    rw [h0, pow_zero, mul_one]
    exact ⟨Or.inr (by omega), hm.trans_le (Nat.le_mul_of_pos_left _ hn)⟩

/-- The step is its mantissa in units of its last place. -/
theorem nearest_div {n m : ℕ} {e : ℤ} (hn : 0 < n) (hm : m < 2 ^ 24) (he : -149 ≤ e) (hlow : 2 ^ 23 ≤ m ∨ e = -149)
    (hpos : 0 < m) : nearest (m * 2 ^ e / n) = stepMantissa n m e * 2 ^ (e - stepShift n m e) := by
  obtain ⟨hlo, hhi⟩ := stepShift_bounds hn hm he hlow
  have hmin : -149 ≤ e - stepShift n m e := by
    unfold stepShift
    omega
  have hmant : halfEven (((m * 2 ^ stepShift n m e : ℕ) : ℝ) / n) = stepMantissa n m e := halfEven_div _ hn
  generalize stepShift n m e = s at hlo hhi hmin hmant ⊢
  have hn' : (0 : ℝ) < n := by exact_mod_cast hn
  have hpow : (0 : ℝ) < 2 ^ (e - s) := by positivity
  have hsplit : (m : ℝ) * 2 ^ e / n = ((m * 2 ^ s : ℕ) : ℝ) / n * 2 ^ (e - s) := by
    have hpow : (2 : ℝ) ^ e = 2 ^ s * 2 ^ (e - s) := by
      rw [← zpow_natCast, ← zpow_add₀ (by norm_num)]
      congr 1
      omega
    rw [hpow]
    push_cast
    ring
  have hexp : ulpExp (m * 2 ^ e / n) = e - s := by
    have habs : |(m : ℝ) * 2 ^ e / n| = ((m * 2 ^ s : ℕ) : ℝ) / n * 2 ^ (e - s) := by
      rw [hsplit, abs_of_nonneg (by positivity)]
    apply ulpExp_eq hmin
    · rcases hlo with h | h
      · left
        have h' : (2 : ℝ) ^ 23 ≤ ((m * 2 ^ s : ℕ) : ℝ) / n := by
          rw [le_div_iff₀ hn', mul_comm]
          exact_mod_cast h
        rw [habs, zpow_add₀ (by norm_num), mul_comm]
        exact mul_le_mul_of_nonneg_right (by exact_mod_cast h') hpow.le
      · exact Or.inr ⟨h, by positivity⟩
    · have h' : ((m * 2 ^ s : ℕ) : ℝ) / n < 2 ^ 24 := by
        rw [div_lt_iff₀ hn', mul_comm (2 ^ 24 : ℝ)]
        exact_mod_cast hhi
      rw [habs, zpow_add₀ (by norm_num), mul_comm]
      exact mul_lt_mul_of_pos_left (by exact_mod_cast h') hpow
  rw [nearest, hexp, hsplit, mul_div_cancel_right₀ _ hpow.ne', hmant]
  push_cast
  rfl

/-- The steps taken round to the duration if they land on it. -/
theorem nearest_mul_nearest_div_eq_iff {n m : ℕ} {e : ℤ} (hn : 0 < n) (hm : m < 2 ^ 24) (he : -149 ≤ e)
    (hlow : 2 ^ 23 ≤ m ∨ e = -149) (hpos : 0 < m) :
    nearest (n * nearest (m * 2 ^ e / n)) = m * 2 ^ e ↔ LandsOn n m e := by
  rw [nearest_div hn hm he hlow hpos]
  obtain ⟨s, hs⟩ : ∃ s, s = stepShift n m e := ⟨_, rfl⟩
  obtain ⟨r, hr⟩ : ∃ r, r = overshoot n m e := ⟨_, rfl⟩
  have hpow : (0 : ℝ) < 2 ^ s := by positivity
  -- the steps go `r / 2 ^ s` units of the duration's last place beyond the end
  have hsteps : (n : ℝ) * (stepMantissa n m e * 2 ^ (e - stepShift n m e)) = (m + r / 2 ^ s) * 2 ^ e := by
    have hr' : (r : ℝ) = stepMantissa n m e * n - m * 2 ^ s := by
      rw [hr, overshoot, ← hs]
      push_cast
      rfl
    rw [hr', ← hs, zpow_sub₀ (by norm_num), zpow_natCast]
    field_simp
    ring
  have hscale : ∀ k a : ℕ, (k : ℝ) * (a / 2 ^ s) < 1 ↔ k * a < 2 ^ s := by
    intro k a
    rw [← mul_div_assoc, div_lt_one hpow]
    exact_mod_cast Iff.rfl
  have hscale' : ∀ k a : ℕ, (k : ℝ) * (a / 2 ^ s) = 1 ↔ k * a = 2 ^ s := by
    intro k a
    rw [← mul_div_assoc, div_eq_one_iff_eq hpow.ne']
    exact_mod_cast Iff.rfl
  rw [hsteps, LandsOn, ← hr, ← hs]
  have hδ0 : (0 : ℝ) ≤ (r.natAbs : ℝ) / 2 ^ s := by positivity
  rcases lt_or_ge r 0 with hneg | hnonneg
  · have hδ : (r : ℝ) / 2 ^ s = -((r.natAbs : ℝ) / 2 ^ s) := by
      rw [Nat.cast_natAbs, abs_of_neg hneg, Int.cast_neg, neg_div, neg_neg]
    rw [hδ, ← sub_eq_add_neg]
    by_cases hpow2 : m = 2 ^ 23 ∧ -149 < e
    · rw [if_pos ⟨hneg, hpow2⟩, hpow2.1]
      have hcast : ((2 ^ 23 : ℕ) : ℝ) = 2 ^ 23 := by norm_num
      rw [hcast, nearest_below_two_zpow_eq_iff hpow2.2 hδ0, ← mul_div_assoc, div_le_one hpow]
      exact_mod_cast Iff.rfl
    · rw [if_neg (fun h => hpow2 h.2)]
      have hlow' : 2 ^ 23 < m ∨ e = -149 := by omega
      rw [nearest_below_eq_iff hm he hlow' hpos hδ0, ← hscale 2, ← hscale' 2]
      rfl
  · have hδ : (r : ℝ) / 2 ^ s = (r.natAbs : ℝ) / 2 ^ s := by
      rw [Nat.cast_natAbs, abs_of_nonneg hnonneg]
    rw [hδ, if_neg (fun h => absurd h.1 (not_lt.mpr hnonneg)), nearest_above_eq_iff hm he hlow hpos hδ0, ← hscale 2,
      ← hscale' 2]
    rfl

/-! ## The last sample -/

theorem isUsable_iff_pos {x : Float32} : isUsable x = true ↔ x.isFinite = true ∧ 0 < x := by
  rw [isUsable, Bool.and_eq_true, decide_eq_true_iff]

theorem isUsable_iff {x : Float32} : isUsable x = true ↔ x.isFinite = true ∧ 0 < toReal x := by
  rw [isUsable_iff_pos]
  refine and_congr_right fun hx => ?_
  rw [lt_iff isFinite_zero hx, toReal_zero]

/-- There are never more intervals than the cap. -/
theorem intervals_le (rate duration : Float32) : (intervals rate duration).toNat ≤ 2 ^ 20 := by
  unfold intervals
  split_ifs with h
  · exact le_rfl
  · exact toUInt32_le (n := maxIntervals) (by decide) h

section OfRate

variable {rate duration : Float32}

theorem intervals_pos (hn : intervals rate duration ≠ 0) : 0 < (intervals rate duration).toNat := by
  rw [Nat.pos_iff_ne_zero]
  intro h
  exact hn (UInt32.toNat_inj.mp h)

/-- The step is rounded from the quotient; it is not above the duration, so it is finite. -/
theorem toReal_step (hd : isUsable duration = true) {n : UInt32} (hn : 0 < n.toNat) (hle : n.toNat ≤ 2 ^ 20) :
    (duration / n.toFloat32).isFinite = true ∧ toReal (duration / n.toFloat32) = nearest (toReal duration / n.toNat) := by
  obtain ⟨hfin, hpos⟩ := isUsable_iff.1 hd
  obtain ⟨nfin, nval⟩ := uint32_toFloat32 (n := n) (by omega)
  have hn' : (1 : ℝ) ≤ n.toNat := by exact_mod_cast hn
  have hquot : toReal duration / n.toNat ≤ toReal duration := div_le_self hpos.le hn'
  have hround := rounded_div hfin nfin (by rw [nval]; positivity)
  rw [nval] at hround
  refine hround.finite ?_
  rw [abs_of_nonneg (nearest_nonneg (by positivity))]
  exact ((grid_toReal duration).nearest_le hquot).trans ((le_abs_self _).trans (abs_toReal_le duration))

/-- The last sample is taken at as many steps as there are intervals. -/
theorem getLast?_times_ofRate (hr : isUsable rate = true) (hd : isUsable duration = true)
    (hn : intervals rate duration ≠ 0) : (ofRate rate duration).times.getLast? =
      some (Float32.ofNat (intervals rate duration).toNat * (duration / (intervals rate duration).toFloat32)) := by
  have hcount : (intervals rate duration + 1).toNat = (intervals rate duration).toNat + 1 := by
    have := intervals_le rate duration
    rw [UInt32.toNat_add]
    show ((intervals rate duration).toNat + 1) % 2 ^ 32 = _
    omega
  unfold ofRate
  rw [hr, hd, Bool.and_self, if_pos rfl]
  simp only [if_neg hn, times, hcount, List.range_succ, List.map_append, List.map_cons, List.map_nil,
    List.getLast?_concat]
  rfl

/-- The last sample is at the end if the steps land on it. -/
theorem getLast?_times_eq_duration_iff (hr : isUsable rate = true) (hd : isUsable duration = true)
    (hn : intervals rate duration ≠ 0) :
    (ofRate rate duration).times.getLast? = some duration ↔ Lands (intervals rate duration).toNat (parts duration) := by
  obtain ⟨hfin, hpos⟩ := isUsable_iff.mp hd
  obtain ⟨m, e, hm, hp⟩ := parts_of_pos hfin hpos
  have hle := intervals_le rate duration
  have hn0 := intervals_pos hn
  rw [getLast?_times_ofRate hr hd hn, Option.some.injEq]
  generalize intervals rate duration = n at hle hn0
  have hval : toReal duration = m * 2 ^ e := by rw [toReal_of_parts hp, unit, Int.cast_one, one_mul]
  obtain ⟨kfin, kval⟩ := float32_ofNat (n := n.toNat) (by omega)
  obtain ⟨sfin, sval⟩ := toReal_step hd hn0 hle
  have hlast := rounded_mul kfin sfin
  rw [kval, sval] at hlast
  have hcanon : Canonical (.finite .positive m e hm) := hp ▸ canonical_parts duration
  have hlands : Lands n.toNat (parts duration) ↔ LandsOn n.toNat m e := by rw [hp, Lands]
  rw [hlands, ← nearest_mul_nearest_div_eq_iff hn0 hcanon.1 hcanon.2.1 hcanon.2.2 hm, ← hval]
  constructor
  · intro heq
    by_cases hsmall : |nearest (n.toNat * nearest (toReal duration / n.toNat))| ≤ largest
    · rw [← (hlast.finite hsmall).2, heq]
    · -- an infinite last sample is not the duration
      have hinf := hlast.infinite (not_le.mp hsmall)
      rw [heq, hp] at hinf
      cases hinf
  · intro heq
    have hsmall : |nearest (n.toNat * nearest (toReal duration / n.toNat))| ≤ largest := by
      rw [heq]
      exact abs_toReal_le duration
    have hlastval := (hlast.finite hsmall).2
    rw [heq] at hlastval
    exact eq_of_toReal_eq hlastval (by rw [hlastval]; exact hpos.ne')

end OfRate

end Plan

/-! ## The last pose -/

/-- A sampler is made of the motion that the playback stands for and the plan for it. -/
theorem Playback.plan_of_sampler {p : Playback} {w : World} {s : Settings} {sampler : Sampler}
    (h : (p.sampler s w).result = .ok sampler) : sampler.plan = sampler.motion.plan s := by
  cases hr : (p.resolve w).result with
  | error cause =>
    rw [Playback.sampler_of_error s hr] at h
    cases h
  | ok motion =>
    rw [Playback.sampler_of_ok s hr] at h
    obtain rfl := Except.ok.inj h
    rfl

/-- The last pose of a sampler is the pose at the last time. -/
theorem Sampler.getLast?_poses (s : Sampler) : s.poses.getLast? = s.plan.times.getLast?.map s.motion.pose := by
  rw [poses, Plan.poses, List.getLast?_map]

namespace Sampler

/-- A clip that is at each time as far to the right as the time says. -/
def ruler (rate duration : Float32) : Clip Float32 := ⟨duration, rate, fun _ _ time _ => .ofPosition ⟨time, 0, 0⟩⟩

/-- A playback of the ruler by an actor without joints whose motion joint is given. -/
def measuring (rate duration : Float32) : Playback := ⟨some (ruler rate duration), some ⟨some 0⟩, false⟩

/-- The world of that actor. -/
def measured : World := ⟨[⟨⟨"", ⟨#[]⟩, #[]⟩, some 0⟩]⟩

/-- Every sampler of a motion with a usable rate and duration and an interval at least ends at the pose at the end of the motion
exactly if the steps land on it; this is when the last time is the duration. -/
theorem getLast?_poses_eq_iff_lands {rate duration : Float32} (hr : isUsable rate = true) (hd : isUsable duration = true)
    (hn : Plan.intervals rate duration ≠ 0) :
    ((Plan.ofRate rate duration).times.getLast? = some duration ↔
      Plan.Lands (Plan.intervals rate duration).toNat (Binary32.parts duration)) ∧
    ((∀ (p : Playback) (w : World) (s : Settings) (sampler : Sampler), (p.sampler s w).result = .ok sampler →
        s.rateFor sampler.motion.rate = rate → sampler.motion.duration = duration →
        sampler.poses.getLast? = some (sampler.motion.pose duration)) ↔
      Plan.Lands (Plan.intervals rate duration).toNat (Binary32.parts duration)) := by
  have hlast := Plan.getLast?_times_eq_duration_iff hr hd hn
  refine ⟨hlast, ?_⟩
  rw [← hlast]
  constructor
  · intro h
    have hok : ((measuring rate duration).sampler {} measured).result =
        .ok ⟨⟨ruler rate duration, ⟨"", ⟨#[]⟩, #[]⟩, 0, false⟩, _⟩ := rfl
    have hrate : ({} : Settings).rateFor rate = rate := by rw [Settings.rateFor, if_pos hr]
    have hpose := h _ _ _ _ hok hrate rfl
    rw [getLast?_poses, Playback.plan_of_sampler hok, Motion.plan] at hpose
    obtain ⟨t, ht, htpose⟩ := Option.map_eq_some_iff.mp hpose
    have hx : t = duration := congrArg (fun pose : Transform Float32 => pose.position.x) htpose
    have hlast : (Plan.ofRate (({} : Settings).rateFor rate) duration).times.getLast? = some t := ht
    rwa [hrate, hx] at hlast
  · intro h p w s sampler hok hrate hdur
    rw [getLast?_poses, Playback.plan_of_sampler hok, Motion.plan, hrate, hdur, h]
    rfl

/-- Thirty intervals of a second end on it. -/
theorem poses_end_at_second :
    isUsable 30 = true ∧ isUsable 1 = true ∧ Plan.intervals 30 1 ≠ 0 ∧
      (Plan.ofRate 30 1).times.getLast? = some 1 := by
  have hr : isUsable 30 = true := by decide +kernel
  have hd : isUsable 1 = true := by decide +kernel
  have hn : Plan.intervals 30 1 ≠ 0 := by decide +kernel
  refine ⟨hr, hd, hn, (getLast?_poses_eq_iff_lands hr hd hn).1.mpr ?_⟩
  decide +kernel

/-- Forty-one intervals of a second end before it. -/
theorem poses_end_before_second : ¬ ∀ rate duration : Float32, isUsable rate = true → isUsable duration = true →
    Plan.intervals rate duration ≠ 0 → (Plan.ofRate rate duration).times.getLast? = some duration := by
  intro h
  have hr : isUsable 41 = true := by decide +kernel
  have hd : isUsable 1 = true := by decide +kernel
  have hn : Plan.intervals 41 1 ≠ 0 := by decide +kernel
  have hlands := (Plan.getLast?_times_eq_duration_iff hr hd hn).mp (h 41 1 hr hd hn)
  revert hlands
  decide +kernel

end Sampler

end Gait
