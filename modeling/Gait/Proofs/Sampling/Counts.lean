import Gait.Proofs.Binary32.Whole
import Gait.Proofs.Sampling.LastSample

/-!
# How many samples are taken

A plan for a rate and a duration that are finite numbers above zero has one sample more than intervals, and those are what the
rounded product asks for, up to the cap: nothing is lost where the product is cut off to an integer, so a higher rate and a longer
motion never get fewer samples. The step is a positive number, though it is a quotient that could have rounded to zero: durations
so short get no interval at any rate.
-/

namespace Gait

namespace Plan

open Binary32

variable {rate duration rate' duration' : Float32}

/-! ## The intervals wanted -/

theorem rounded_product (hr : isUsable rate = true) (hd : isUsable duration = true) :
    Rounded (rate * duration) (toReal rate * toReal duration) :=
  rounded_mul (isUsable_iff.1 hr).1 (isUsable_iff.1 hd).1

theorem product_pos (hr : isUsable rate = true) (hd : isUsable duration = true) : 0 < toReal rate * toReal duration :=
  mul_pos (isUsable_iff.1 hr).2 (isUsable_iff.1 hd).2

theorem place_product_nonneg (hr : isUsable rate = true) (hd : isUsable duration = true) : 0 ≤ place (rate * duration) := by
  have hzero : Rounded 0 (0 : ℕ) := rounded_float32_ofNat 0
  have hle := hzero.place_le (rounded_product hr hd) (by rw [Nat.cast_zero]; exact (product_pos hr hd).le)
  rwa [place_of_isFinite isFinite_zero, toReal_zero, EReal.coe_zero] at hle

/-- What is wanted is the product rounded to a whole number, or infinite with it. -/
theorem wanted_cases (hr : isUsable rate = true) (hd : isUsable duration = true) :
    (∃ w : ℕ, (rate * duration).isFinite = true ∧ (w : ℤ) = round (toReal (rate * duration)) ∧ Exactly w (wanted rate duration)) ∨
      (parts (rate * duration) = .infinity .positive ∧ wanted rate duration = rate * duration) := by
  have hround := rounded_product hr hd
  have hpos := product_pos hr hd
  rcases le_or_gt |nearest (toReal rate * toReal duration)| largest with hsmall | hlarge
  · obtain ⟨hfin, hval⟩ := hround.finite hsmall
    have h0 : 0 ≤ toReal (rate * duration) := by
      rw [hval]
      exact nearest_nonneg hpos.le
    obtain ⟨w, hw⟩ := Int.eq_ofNat_of_zero_le (a := round (toReal (rate * duration))) (by
      rw [round_eq]
      exact Int.floor_nonneg.2 (by linarith))
    have hexact := exactly_roundHalfAway hfin h0
    rw [hw] at hexact
    exact Or.inl ⟨w, hfin, hw.symm, hexact⟩
  · have hinf := hround.infinite hlarge
    rw [if_pos hpos] at hinf
    exact Or.inr ⟨hinf, roundHalfAway_of_infinity hinf⟩

/-- A finite product is rounded exactly. -/
theorem exactly_wanted (hr : isUsable rate = true) (hd : isUsable duration = true) (hfin : (rate * duration).isFinite = true) :
    Exactly (round (toReal (rate * duration))) (wanted rate duration) := by
  rcases wanted_cases hr hd with ⟨w, -, hround, hw⟩ | ⟨hinf, -⟩
  · rwa [← hround]
  · rw [not_isFinite_of_parts_infinity hinf] at hfin
    cases hfin

theorem parts_wanted (hr : isUsable rate = true) (hd : isUsable duration = true) (hfin : (rate * duration).isFinite = false) :
    parts (wanted rate duration) = .infinity .positive := by
  rcases wanted_cases hr hd with ⟨w, hfin', -, -⟩ | ⟨hinf, hw⟩
  · rw [hfin] at hfin'
    cases hfin'
  · rwa [hw]

/-! ## The intervals taken -/

theorem exactly_maxIntervals : Exactly (2 ^ 20 : ℕ) maxIntervals.toFloat32 := uint32_toFloat32 (n := maxIntervals) (by decide)

theorem capped_iff {w : ℕ} (hw : Exactly w (wanted rate duration)) :
    maxIntervals.toFloat32 < wanted rate duration ↔ 2 ^ 20 < w := by
  rw [lt_iff exactly_maxIntervals.1 hw.1, exactly_maxIntervals.2, hw.2, Nat.cast_lt]

/-- The intervals are capped if the product is rounded to more of them than are allowed, or is too large to be finite. -/
theorem cap_lt_wanted_iff (hr : isUsable rate = true) (hd : isUsable duration = true) :
    maxIntervals.toFloat32 < wanted rate duration ↔
      ((rate * duration).isFinite = true → 2 ^ 20 < round (toReal (rate * duration))) := by
  rcases wanted_cases hr hd with ⟨w, hfin, hround, hw⟩ | ⟨hinf, hwanted⟩
  · rw [capped_iff hw, ← hround]
    simp only [hfin, true_imp_iff]
    exact_mod_cast Iff.rfl
  · have hlt : maxIntervals.toFloat32 < wanted rate duration := by
      rw [hwanted]
      exact lt_of_parts_infinity exactly_maxIntervals.1 hinf
    refine iff_of_true hlt fun hfin => ?_
    rw [not_isFinite_of_parts_infinity hinf] at hfin
    cases hfin

theorem intervals_of_exactly {w : ℕ} (hw : Exactly w (wanted rate duration)) :
    (intervals rate duration).toNat = min w (2 ^ 20) := by
  unfold intervals
  split_ifs with h
  · rw [min_eq_right ((capped_iff hw).1 h).le]
    rfl
  · have hle : w ≤ 2 ^ 20 := not_lt.1 ((capped_iff hw).not.1 h)
    rw [toNat_toUInt32 hw (by omega), min_eq_left hle]

theorem intervals_of_infinity (hw : parts (wanted rate duration) = .infinity .positive) :
    intervals rate duration = maxIntervals := if_pos (lt_of_parts_infinity exactly_maxIntervals.1 hw)

/-- The intervals are those wanted, up to the cap. -/
theorem intervals_eq_min (hr : isUsable rate = true) (hd : isUsable duration = true) :
    ((intervals rate duration).toNat : EReal) = min (place (wanted rate duration)) (2 ^ 20 : ℕ) := by
  rcases wanted_cases hr hd with ⟨w, -, -, hw⟩ | ⟨hinf, hw⟩
  · have hmono : Monotone (Nat.cast : ℕ → EReal) := fun _ _ h => EReal.natCast_le_iff.2 h
    rw [intervals_of_exactly hw, place_of_isFinite hw.1, hw.2, EReal.coe_natCast]
    exact hmono.map_min
  · rw [← hw] at hinf
    rw [intervals_of_infinity hinf, place_of_infinity hinf]
    exact (min_eq_right le_top).symm

/-- More is wanted at a higher rate and of a longer motion. -/
theorem intervals_mono (hr : isUsable rate = true) (hd : isUsable duration = true) (hr' : isUsable rate' = true)
    (hd' : isUsable duration' = true) (hrate : rate ≤ rate') (hduration : duration ≤ duration') :
    (intervals rate duration).toNat ≤ (intervals rate' duration').toNat := by
  rw [le_iff (isUsable_iff.1 hr).1 (isUsable_iff.1 hr').1] at hrate
  rw [le_iff (isUsable_iff.1 hd).1 (isUsable_iff.1 hd').1] at hduration
  have hproduct : toReal rate * toReal duration ≤ toReal rate' * toReal duration' :=
    mul_le_mul hrate hduration (isUsable_iff.1 hd).2.le (isUsable_iff.1 hr').2.le
  have hround := rounded_product hr hd
  have hround' := rounded_product hr' hd'
  have hwanted : place (wanted rate duration) ≤ place (wanted rate' duration') :=
    place_roundHalfAway_le hround.not_isNaN hround'.not_isNaN (place_product_nonneg hr hd) (hround.place_le hround' hproduct)
  rw [← EReal.natCast_le_iff, intervals_eq_min hr hd, intervals_eq_min hr' hd']
  exact min_le_min_right _ hwanted

/-! ## The step -/

/-- A product that is rounded to less than a half gets no interval. -/
theorem intervals_of_lt_half (hr : isUsable rate = true) (hd : isUsable duration = true)
    (h : nearest (toReal rate * toReal duration) < 1 / 2) : intervals rate duration = 0 := by
  have hround := rounded_product hr hd
  rcases wanted_cases hr hd with ⟨w, hfin, hw, hexact⟩ | ⟨hinf, -⟩
  · have hzero : w = 0 := by
      rw [hround.toReal_eq hfin, round_eq] at hw
      have hfloor : ⌊nearest (toReal rate * toReal duration) + 1 / 2⌋ < 1 := Int.floor_lt.2 (by push_cast; linarith)
      omega
    have htoNat := intervals_of_exactly hexact
    rw [hzero, Nat.zero_min] at htoNat
    exact UInt32.toNat_inj.1 htoNat
  · have hsmall : |nearest (toReal rate * toReal duration)| ≤ largest := by
      rw [abs_of_nonneg (nearest_nonneg (product_pos hr hd).le)]
      exact h.le.trans (le_trans (by norm_num) two_pow_le_largest)
    have hfin := (hround.finite hsmall).1
    rw [not_isFinite_of_parts_infinity hinf] at hfin
    cases hfin

/-- A motion that gets an interval lasts as long as the cap times the least number, since no rate is above `2 ^ 128`. -/
theorem le_toReal_duration (hr : isUsable rate = true) (hd : isUsable duration = true) (hn : intervals rate duration ≠ 0) :
    (2 : ℝ) ^ 20 * 2 ^ (-149 : ℤ) ≤ toReal duration := by
  obtain ⟨k, hk⟩ := (grid_toReal duration).exists_mul_least
  by_contra hlt
  have hk' : k ≤ 2 ^ 20 - 1 := by
    rw [hk, not_le, mul_lt_mul_iff_left₀ (by positivity)] at hlt
    have hlt' : k < 2 ^ 20 := by exact_mod_cast hlt
    omega
  have hduration : toReal duration ≤ (2 ^ 20 - 1) * 2 ^ (-149 : ℤ) := by
    rw [hk]
    exact mul_le_mul_of_nonneg_right (by exact_mod_cast hk') (by positivity)
  have hrate : toReal rate ≤ 2 ^ (128 : ℤ) := by
    refine (le_abs_self _).trans ((abs_toReal_le rate).trans ?_)
    norm_num [largest]
  have hproduct : toReal rate * toReal duration ≤ ((2 ^ 20 - 1 : ℤ) : ℝ) * 2 ^ (-21 : ℤ) := by
    calc toReal rate * toReal duration ≤ 2 ^ (128 : ℤ) * ((2 ^ 20 - 1) * 2 ^ (-149 : ℤ)) :=
          mul_le_mul hrate hduration (isUsable_iff.1 hd).2.le (by positivity)
      _ = ((2 ^ 20 - 1 : ℤ) : ℝ) * 2 ^ (-21 : ℤ) := by norm_num
  have hgrid : Grid (((2 ^ 20 - 1 : ℤ) : ℝ) * 2 ^ (-21 : ℤ)) := ⟨2 ^ 20 - 1, -21, by norm_num, by norm_num, rfl⟩
  exact hn (intervals_of_lt_half hr hd ((hgrid.nearest_le hproduct).trans_lt (by norm_num)))

/-- The step of so many intervals is a positive number that is at most the duration. -/
theorem step_bounds (hr : isUsable rate = true) (hd : isUsable duration = true) (hn : intervals rate duration ≠ 0) :
    0 < toReal (duration / (intervals rate duration).toFloat32) ∧
      toReal (duration / (intervals rate duration).toFloat32) ≤ toReal duration := by
  have hpos := intervals_pos hn
  have hle := intervals_le rate duration
  have hlong := le_toReal_duration hr hd hn
  rw [(toReal_step hd hpos hle).2]
  generalize (intervals rate duration).toNat = n at hpos hle ⊢
  have hn1 : (1 : ℝ) ≤ n := by exact_mod_cast hpos
  have hn20 : (n : ℝ) ≤ 2 ^ 20 := by exact_mod_cast hle
  constructor
  · have hleast : (2 : ℝ) ^ (-149 : ℤ) ≤ toReal duration / n := by
      rw [le_div_iff₀ (by positivity), mul_comm]
      exact (mul_le_mul_of_nonneg_right hn20 (by positivity)).trans hlong
    exact lt_of_lt_of_le (by positivity) ((grid_two_zpow le_rfl).le_nearest hleast)
  · exact (grid_toReal duration).nearest_le (div_le_self (isUsable_iff.1 hd).2.le hn1)

/-! ## The plan -/

/-- Without a usable rate and duration nothing is sampled. -/
theorem ofRate_of_not_isUsable (h : ¬(isUsable rate = true ∧ isUsable duration = true)) : ofRate rate duration = empty := by
  rw [← Bool.and_eq_true] at h
  exact if_neg h

/-- Otherwise there is one sample more than intervals, and the first interval ends at the step. -/
theorem ofRate_of_isUsable (hr : isUsable rate = true) (hd : isUsable duration = true) : ofRate rate duration =
    ⟨if intervals rate duration = 0 then duration else duration / (intervals rate duration).toFloat32,
      intervals rate duration + 1⟩ := by
  unfold ofRate
  rw [hr, hd, Bool.and_self, if_pos rfl]
  by_cases hn : intervals rate duration = 0
  · simp only [hn, if_pos]
    rfl
  · simp only [if_neg hn]

theorem toNat_count_ofRate (hr : isUsable rate = true) (hd : isUsable duration = true) :
    (ofRate rate duration).count.toNat = (intervals rate duration).toNat + 1 := by
  have hle := intervals_le rate duration
  rw [ofRate_of_isUsable hr hd, UInt32.toNat_add]
  show ((intervals rate duration).toNat + 1) % 2 ^ 32 = _
  omega

/-- A plan never has more than one sample more than there may be intervals. -/
theorem count_ofRate_le (rate duration : Float32) : (ofRate rate duration).count.toNat ≤ 2 ^ 20 + 1 := by
  by_cases husable : isUsable rate = true ∧ isUsable duration = true
  · rw [toNat_count_ofRate husable.1 husable.2]
    exact Nat.succ_le_succ (intervals_le rate duration)
  · rw [ofRate_of_not_isUsable husable]
    exact Nat.zero_le _

theorem count_ofRate_eq_one_iff (hr : isUsable rate = true) (hd : isUsable duration = true) :
    (ofRate rate duration).count = 1 ↔ intervals rate duration = 0 := by
  rw [← UInt32.toNat_inj, ← UInt32.toNat_inj, toNat_count_ofRate hr hd]
  show (intervals rate duration).toNat + 1 = 1 ↔ (intervals rate duration).toNat = 0
  omega

theorem ofRate_eq_empty_iff : ofRate rate duration = empty ↔ ¬(isUsable rate = true ∧ isUsable duration = true) := by
  constructor
  · rintro hempty ⟨hr, hd⟩
    have hcount := toNat_count_ofRate hr hd
    rw [hempty] at hcount
    exact absurd hcount (Nat.succ_ne_zero _).symm
  · exact ofRate_of_not_isUsable

theorem count_ofRate_eq_min (hr : isUsable rate = true) (hd : isUsable duration = true) :
    ((ofRate rate duration).count.toNat : EReal) = min (place (wanted rate duration)) (2 ^ 20 : ℕ) + 1 := by
  rw [toNat_count_ofRate hr hd, ← intervals_eq_min hr hd]
  norm_cast

theorem count_ofRate_mono (hr : isUsable rate = true) (hd : isUsable duration = true) (hr' : isUsable rate' = true)
    (hd' : isUsable duration' = true) (hrate : rate ≤ rate') (hduration : duration ≤ duration') :
    (ofRate rate duration).count ≤ (ofRate rate' duration').count := by
  rw [UInt32.le_iff_toNat_le, toNat_count_ofRate hr hd, toNat_count_ofRate hr' hd']
  exact Nat.succ_le_succ (intervals_mono hr hd hr' hd' hrate hduration)

theorem step_ofRate_of_count_eq_one (hr : isUsable rate = true) (hd : isUsable duration = true)
    (hone : (ofRate rate duration).count = 1) : (ofRate rate duration).step = duration := by
  rw [count_ofRate_eq_one_iff hr hd] at hone
  rw [ofRate_of_isUsable hr hd]
  exact if_pos hone

theorem step_ofRate_of_count_ne_one (hr : isUsable rate = true) (hd : isUsable duration = true)
    (hmore : (ofRate rate duration).count ≠ 1) :
    (ofRate rate duration).step = duration / ((ofRate rate duration).count - 1).toFloat32 := by
  rw [Ne, count_ofRate_eq_one_iff hr hd] at hmore
  rw [ofRate_of_isUsable hr hd]
  simp only [if_neg hmore, UInt32.add_sub_cancel]

/-- The step of a plan is a positive number that is at most the duration. -/
theorem step_ofRate_bounds (hr : isUsable rate = true) (hd : isUsable duration = true) :
    (ofRate rate duration).step.isFinite = true ∧ 0 < toReal (ofRate rate duration).step ∧
      toReal (ofRate rate duration).step ≤ toReal duration := by
  rw [ofRate_of_isUsable hr hd]
  by_cases hn : intervals rate duration = 0
  · simp only [if_pos hn]
    exact ⟨(isUsable_iff.1 hd).1, (isUsable_iff.1 hd).2, le_rfl⟩
  · simp only [if_neg hn]
    exact ⟨(toReal_step hd (intervals_pos hn) (intervals_le rate duration)).1, step_bounds hr hd hn⟩

/-! ### Without overflow -/

/-- What is cut off behind the point to a word of thirty-two bits, if the word has room for it. -/
def toUInt32Checked? (x : Float32) : Option UInt32 := if 0 ≤ x ∧ x < Float32.ofNat UInt32.size then some x.toUInt32 else none

/-- The quotient, unless the divisor is zero. -/
def divChecked? (x y : Float32) : Option Float32 := if y == 0 then none else some (x / y)

/-- The next word, if there is one. -/
def nextChecked? (n : UInt32) : Option UInt32 := if n.toNat + 1 < UInt32.size then some (n + 1) else none

/-- The number of intervals that breaks off where a word has no room for it. -/
def intervalsChecked? (rate duration : Float32) : Option UInt32 :=
  if maxIntervals.toFloat32 < wanted rate duration then some maxIntervals else toUInt32Checked? (wanted rate duration)

/-- The plan for a rate and a duration that breaks off where a word has no room for a number, and where it divides by zero. -/
def ofRateChecked? (rate duration : Float32) : Option (Plan Float32) :=
  if isUsable rate && isUsable duration then do
    let intervals ← intervalsChecked? rate duration
    if intervals = 0 then return ⟨duration, 1⟩
    else
      let step ← divChecked? duration intervals.toFloat32
      let count ← nextChecked? intervals
      return ⟨step, count⟩
  else some empty

theorem toUInt32Checked?_eq_some {x : Float32} {n : ℕ} (hx : Exactly n x) (hn : n < 2 ^ 32) :
    toUInt32Checked? x = some x.toUInt32 := by
  have hsize : Exactly (2 ^ 32) (Float32.ofNat UInt32.size) := by
    have hround := rounded_float32_ofNat UInt32.size
    have hpow : ((UInt32.size : ℕ) : ℝ) = 2 ^ 32 := by norm_num [UInt32.size]
    rw [hpow] at hround
    exact hround.exact (mark_two_pow (by norm_num)).1 (mark_two_pow (by norm_num)).2
  have hlow : 0 ≤ x := by
    rw [le_iff isFinite_zero hx.1, toReal_zero, hx.2]
    positivity
  have hhigh : x < Float32.ofNat UInt32.size := by
    rw [lt_iff hx.1 hsize.1, hx.2, hsize.2]
    exact_mod_cast hn
  exact if_pos ⟨hlow, hhigh⟩

/-- A word has room for what is not above the cap. -/
theorem intervalsChecked?_eq_some (hr : isUsable rate = true) (hd : isUsable duration = true) :
    intervalsChecked? rate duration = some (intervals rate duration) := by
  unfold intervalsChecked? intervals
  split_ifs with hcap
  · rfl
  · rcases wanted_cases hr hd with ⟨w, -, -, hw⟩ | ⟨hinf, hw⟩
    · have hle : w ≤ 2 ^ 20 := not_lt.1 ((capped_iff hw).not.1 hcap)
      exact toUInt32Checked?_eq_some hw (by omega)
    · rw [← hw] at hinf
      exact absurd (lt_of_parts_infinity exactly_maxIntervals.1 hinf) hcap

theorem divChecked?_eq_some (hn : intervals rate duration ≠ 0) :
    divChecked? duration (intervals rate duration).toFloat32 = some (duration / (intervals rate duration).toFloat32) := by
  have hle := intervals_le rate duration
  obtain ⟨nfin, nval⟩ := uint32_toFloat32 (n := intervals rate duration) (by omega)
  have hdivisor : ¬((intervals rate duration).toFloat32 == 0) = true := by
    rw [beq_iff nfin isFinite_zero, nval, toReal_zero, Nat.cast_eq_zero]
    exact (intervals_pos hn).ne'
  exact if_neg hdivisor

theorem nextChecked?_eq_some (rate duration : Float32) :
    nextChecked? (intervals rate duration) = some (intervals rate duration + 1) := by
  have hle := intervals_le rate duration
  have hroom : (intervals rate duration).toNat + 1 < 2 ^ 32 := by omega
  exact if_pos hroom

/-- Making a plan never breaks off. -/
theorem ofRateChecked?_eq_some (rate duration : Float32) : ofRateChecked? rate duration = some (ofRate rate duration) := by
  unfold ofRateChecked? ofRate
  by_cases husable : (isUsable rate && isUsable duration) = true
  · rw [if_pos husable, if_pos husable]
    rw [Bool.and_eq_true] at husable
    rw [intervalsChecked?_eq_some husable.1 husable.2]
    by_cases hn : intervals rate duration = 0
    · simp [hn]
    · simp [hn, divChecked?_eq_some hn, nextChecked?_eq_some]
  · rw [if_neg husable, if_neg husable]

/-! ### What it holds -/

/-- A plan takes no samples exactly if the rate or the duration is not a finite number above zero. Otherwise it cuts the motion
into as many intervals as the product of the two says, rounded, a half away from zero, but not into more than the cap, and takes
one sample more; the step is the quotient of the duration by their number, and it is above zero and at most the duration. Making
the plan loses nothing where it goes from numbers to words and divides by no zero, and a higher rate or a longer motion never gets
fewer samples. -/
theorem ofRate_counts (rate duration : Float32) :
    (ofRate rate duration = empty ↔ ¬(rate.isFinite = true ∧ 0 < rate ∧ duration.isFinite = true ∧ 0 < duration)) ∧
    ofRateChecked? rate duration = some (ofRate rate duration) ∧
    (isUsable rate = true → isUsable duration = true →
      0 ≤ place (rate * duration) ∧
      ((rate * duration).isFinite = true → Exactly (round (toReal (rate * duration))) (wanted rate duration)) ∧
      ((rate * duration).isFinite = false → parts (wanted rate duration) = .infinity .positive) ∧
      ((ofRate rate duration).count.toNat : EReal) = min (place (wanted rate duration)) (2 ^ 20 : ℕ) + 1 ∧
      ((ofRate rate duration).count = 1 → (ofRate rate duration).step = duration) ∧
      ((ofRate rate duration).count ≠ 1 →
        (ofRate rate duration).step = duration / ((ofRate rate duration).count - 1).toFloat32) ∧
      0 < (ofRate rate duration).step ∧ (ofRate rate duration).step ≤ duration ∧
      ∀ rate' duration', isUsable rate' = true → isUsable duration' = true → rate ≤ rate' → duration ≤ duration' →
        (ofRate rate duration).count ≤ (ofRate rate' duration').count) := by
  refine ⟨?_, ofRateChecked?_eq_some rate duration, fun hr hd => ⟨place_product_nonneg hr hd, exactly_wanted hr hd,
    parts_wanted hr hd, count_ofRate_eq_min hr hd, step_ofRate_of_count_eq_one hr hd, step_ofRate_of_count_ne_one hr hd, ?_, ?_,
    fun rate' duration' => count_ofRate_mono hr hd⟩⟩
  · rw [ofRate_eq_empty_iff]
    simp only [isUsable, Bool.and_eq_true, decide_eq_true_eq, and_assoc]
  · obtain ⟨hfin, hpos, -⟩ := step_ofRate_bounds hr hd
    exact (pos_iff hfin).2 hpos
  · obtain ⟨hfin, -, hle⟩ := step_ofRate_bounds hr hd
    exact (le_iff hfin (isUsable_iff.1 hd).1).2 hle

/-- Thirty intervals, an infinite product, and the longest motion that gets no interval at the highest rate. -/
example : (ofRate 60 (1 / 2)).count = 31 ∧ (ofRate (Float32.ofBits 0x7F7FFFFF) 2).count = 1048577 ∧
    (ofRate (Float32.ofBits 0x7F7FFFFF) (Float32.ofBits 0x000FFFFF)).count = 1 := by decide +kernel

end Plan

end Gait
