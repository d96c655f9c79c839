import Gait.Binary32.Trigonometry
import Gait.Proofs.Binary32.Range

/-!
# The ranges of the polynomials

On the angles and cosines that blending rotations comes with, the sine is positive and the arc cosine is away from zero. The
ranges are found by going through the polynomials term by term, in units of two to the power minus twenty.
-/

namespace Gait

namespace Binary32

open Float.Model (UnpackedFloat)
open Float.Model.UnpackedFloat (Sign)

/-! ## Numbers in units -/

/-- The value of a finite number in units of the least one. -/
def scaled (x : Float32) : ℤ :=
  match parts x with
  | .finite s m e _ => s.apply m * 2 ^ (e + 149).toNat
  | _ => 0

theorem toReal_eq_scaled (x : Float32) : toReal x = scaled x / 2 ^ 149 := by
  have hc := canonical_parts x
  unfold toReal scaled
  cases hp : parts x with
  | finite s m e hm =>
    rw [hp] at hc
    have he : -149 ≤ e := hc.2.1
    have hpow : (2 : ℝ) ^ e = 2 ^ (e + 149).toNat / 2 ^ 149 := by
      rw [eq_div_iff (by positivity), ← zpow_natCast, ← zpow_natCast, ← zpow_add₀ (by norm_num)]
      congr 1
      omega
    show value (.finite s m e hm) = ((s.apply m * 2 ^ (e + 149).toNat : ℤ) : ℝ) / 2 ^ 149
    rw [value_finite, hpow, apply_eq_unit_mul]
    push_cast
    ring
  | _ => simp [value]

/-- The value of a constant that is a binary fraction. -/
theorem toReal_of_scaled {x : Float32} {k : ℤ} (j : ℕ) (h : x.isFinite = true ∧ scaled x * 2 ^ j = k * 2 ^ 149) :
    x.isFinite = true ∧ toReal x = k / 2 ^ j := by
  have hval : (scaled x : ℝ) * 2 ^ j = k * 2 ^ 149 := by exact_mod_cast h.2
  exact ⟨h.1, by rw [toReal_eq_scaled, div_eq_div_iff (by positivity) (by positivity), hval]⟩

/-- The number is between two multiples of two to the power minus twenty. -/
def InUnits (l u : ℤ) (x : Float32) : Prop := Between (l / 2 ^ 20) (u / 2 ^ 20) x

theorem inUnits_of_scaled {l u : ℤ} {x : Float32}
    (h : x.isFinite = true ∧ l * 2 ^ 129 ≤ scaled x ∧ scaled x ≤ u * 2 ^ 129) : InUnits l u x := by
  obtain ⟨hfin, hl, hu⟩ := h
  have hl' : (l : ℝ) * 2 ^ 129 ≤ scaled x := by exact_mod_cast hl
  have hu' : (scaled x : ℝ) ≤ u * 2 ^ 129 := by exact_mod_cast hu
  refine ⟨hfin, ?_, ?_⟩ <;> rw [toReal_eq_scaled]
  · rw [div_le_div_iff₀ (by positivity) (by positivity)]
    linarith
  · rw [div_le_div_iff₀ (by positivity) (by positivity)]
    linarith

section Terms

variable {l u c d p q : ℤ} {r x coefficient : Float32} {w : ℝ}

/-- The product with a number between zero and `w`. -/
theorem InUnits.mul (hr : InUnits l u r) (hx : Between 0 w x) (hp : p ≤ 0 ∧ (p : ℝ) ≤ l * w) (hq : 0 ≤ q ∧ (u : ℝ) * w ≤ q)
    (hbound : |p| ≤ 2 ^ 24 ∧ |q| ≤ 2 ^ 24) : InUnits p q (r * x) := by
  obtain ⟨fr, hlr, hru⟩ := hr
  obtain ⟨fx, hx0, hxw⟩ := hx
  have hp0 : (p : ℝ) ≤ 0 := by exact_mod_cast hp.1
  have hq0 : (0 : ℝ) ≤ q := by exact_mod_cast hq.1
  refine (rounded_mul fr fx).between (mark_div_two_pow hbound.1 (by norm_num)) (mark_div_two_pow hbound.2 (by norm_num)) ?_ ?_
  · rw [div_le_iff₀ (by positivity)]
    rw [div_le_iff₀ (by positivity)] at hlr
    rcases le_or_gt 0 (l : ℝ) with h | h
    · have : 0 ≤ toReal r := by nlinarith
      nlinarith [mul_nonneg this hx0]
    · nlinarith [mul_le_mul_of_nonneg_right hlr hx0, mul_le_mul_of_nonpos_left hxw h.le]
  · rw [le_div_iff₀ (by positivity)]
    rw [le_div_iff₀ (by positivity)] at hru
    rcases le_or_gt (u : ℝ) 0 with h | h
    · have : toReal r ≤ 0 := by nlinarith
      nlinarith [mul_nonneg (neg_nonneg.mpr this) hx0]
    · nlinarith [mul_le_mul_of_nonneg_right hru hx0, mul_le_mul_of_nonneg_left hxw h.le]

/-- One term of a polynomial at a number between zero and `w`. -/
theorem InUnits.horner (hr : InUnits l u r) (hx : Between 0 w x) (hc : InUnits c d coefficient)
    (hp : p ≤ 0 ∧ (p : ℝ) ≤ l * w) (hq : 0 ≤ q ∧ (u : ℝ) * w ≤ q) (hbound : |p| + |c| ≤ 2 ^ 24 ∧ |q| + |d| ≤ 2 ^ 24) :
    InUnits (p + c) (q + d) (r * x + coefficient) := by
  have hc0 := abs_nonneg c
  have hd0 := abs_nonneg d
  have hlo := abs_add_le p c
  have hhi := abs_add_le q d
  have hprod : InUnits p q (r * x) := hr.mul hx hp hq ⟨by omega, by omega⟩
  refine hprod.add hc (mark_div_two_pow (by omega) (by norm_num)) (mark_div_two_pow (by omega) (by norm_num)) ?_ ?_
  · push_cast
    rw [add_div]
  · push_cast
    rw [add_div]

end Terms

/-! ## The arc cosine -/

/-- The value of a quarter of a turn. -/
noncomputable def quarter : ℝ := 13176795 / 2 ^ 23

theorem mark_quarter : Mark quarter := mark_of_eq 13176795 23 (by norm_num [quarter]) (by norm_num) (by norm_num)

theorem between_quarterTurn : Between quarter quarter quarterTurn := by
  obtain ⟨hfin, hval⟩ := toReal_of_scaled (x := quarterTurn) (k := 13176795) 23 (by decide +kernel)
  have hquarter : toReal quarterTurn = quarter := by rw [hval, quarter, Int.cast_ofNat]
  exact ⟨hfin, hquarter.ge, hquarter.le⟩

/-- The polynomial of the arc cosine between zero and one. -/
theorem between_arccos_horner {x : Float32} (hx : Between 0 1 x) : Between 1 quarter (horner x (-0.0012624911)
    [0.00667009, -0.017088126, 0.03089188, -0.050174303, 0.08897899, -0.2145988, 1.5707963]) := by
  have r0 : InUnits (-1324) (-1323) (-0.0012624911) := inUnits_of_scaled (by decide +kernel)
  have c1 : InUnits 6994 6995 0.00667009 := inUnits_of_scaled (by decide +kernel)
  have c2 : InUnits (-17919) (-17918) (-0.017088126) := inUnits_of_scaled (by decide +kernel)
  have c3 : InUnits 32392 32393 0.03089188 := inUnits_of_scaled (by decide +kernel)
  have c4 : InUnits (-52612) (-52611) (-0.050174303) := inUnits_of_scaled (by decide +kernel)
  have c5 : InUnits 93301 93302 0.08897899 := inUnits_of_scaled (by decide +kernel)
  have c6 : InUnits (-225024) (-225023) (-0.2145988) := inUnits_of_scaled (by decide +kernel)
  have c7 : InUnits 1647099 1647100 1.5707963 := inUnits_of_scaled (by decide +kernel)
  have r1 := r0.horner (p := -1324) (q := 0) hx c1 (by norm_num) (by norm_num) (by norm_num)
  have r2 := r1.horner (p := 0) (q := 6995) hx c2 (by norm_num) (by norm_num) (by norm_num)
  have r3 := r2.horner (p := -17919) (q := 0) hx c3 (by norm_num) (by norm_num) (by norm_num)
  have r4 := r3.horner (p := 0) (q := 32393) hx c4 (by norm_num) (by norm_num) (by norm_num)
  have r5 := r4.horner (p := -52612) (q := 0) hx c5 (by norm_num) (by norm_num) (by norm_num)
  have r6 := r5.horner (p := 0) (q := 93302) hx c6 (by norm_num) (by norm_num) (by norm_num)
  -- the last coefficient is not in whole units, and it is the greatest value
  have r7 := r6.mul (p := -225024) (q := 0) hx (by norm_num) (by norm_num) (by norm_num)
  have hlast : toReal 1.5707963 ≤ quarter := by
    have h : scaled 1.5707963 ≤ 13176795 * 2 ^ 126 := by decide +kernel
    have h' : (scaled 1.5707963 : ℝ) ≤ 13176795 * 2 ^ 126 := by exact_mod_cast h
    rw [toReal_eq_scaled, quarter, div_le_div_iff₀ (by positivity) (by positivity)]
    linarith
  exact Between.add r7 ⟨c7.1, c7.2.1, hlast⟩ mark_one mark_quarter (by norm_num) (by norm_num)

/-- Away from one, the arc cosine of a number that is not negative is away from zero, and at most a quarter of a turn. -/
theorem between_arccos {v : Float32} (hv : Between 0 (8388607 / 2 ^ 23) v) : Between (1 / 2 ^ 12) quarter (arccos v) := by
  have habs : Between 0 (8388607 / 2 ^ 23) v.abs :=
    ⟨by rw [abs_isFinite]; exact hv.1, by rw [toReal_abs]; positivity, by rw [toReal_abs, abs_of_nonneg hv.2.1]; exact hv.2.2⟩
  have hrest : Between (1 / 2 ^ 23) 1 (1 - v.abs) := by
    refine Between.sub (a := 1) (b := 1) ⟨isFinite_one, toReal_one.ge, toReal_one.le⟩ habs (mark_inv_two_pow (by norm_num))
      mark_one (by norm_num) (by norm_num)
  have hsqrt : Between (1 / 2 ^ 12) 1 (1 - v.abs).sqrt :=
    hrest.sqrt (by positivity) (mark_inv_two_pow (by norm_num)) mark_one (by norm_num) (by norm_num) (by norm_num)
  have hpoly := between_arccos_horner (habs.mono le_rfl (by norm_num))
  have hpos : ¬ (1 - v.abs : Float32) < 0 := by
    rw [lt_iff hrest.1 isFinite_zero, toReal_zero, not_lt]
    exact le_trans (by positivity) hrest.2.1
  have hv0 : (0 : Float32) ≤ v := by
    rw [le_iff isFinite_zero hv.1, toReal_zero]
    exact hv.2.1
  unfold arccos
  simp only [if_neg hpos, if_pos hv0]
  exact hpoly.mul hsqrt (by norm_num) (by norm_num) (mark_inv_two_pow (by norm_num)) mark_quarter (by norm_num) (by norm_num)

/-! ## The sine -/

/-- Of the second operand only the sign is taken, so there are two results. -/
theorem copySign_cases (x y : Float32) : copySign x y = Float32.ofBits (x.toBits &&& 0x7fffffff) ∨
    copySign x y = Float32.ofBits ((x.toBits &&& 0x7fffffff) ||| 0x80000000) := by
  have hbit : y.toBits &&& 0x80000000 = 0 ∨ y.toBits &&& 0x80000000 = 0x80000000 := by
    have hand : y.toBits.toNat &&& 2 ^ 31 = (y.toBits.toNat.testBit 31).toNat * 2 ^ 31 := Nat.and_two_pow _ _
    cases hb : y.toBits.toNat.testBit 31 with
    | false => exact Or.inl (UInt32.toNat_inj.mp (by rw [UInt32.toNat_and]; exact hand.trans (by rw [hb]; rfl)))
    | true => exact Or.inr (UInt32.toNat_inj.mp (by rw [UInt32.toNat_and]; exact hand.trans (by rw [hb]; rfl)))
  unfold copySign
  rcases hbit with h | h <;> rw [h]
  · exact Or.inl (by rw [UInt32.or_zero])
  · exact Or.inr rfl

/-- The nearest integer of a number between zero and a quarter is zero. -/
theorem between_nearestTurns {t : Float32} (ht : Between 0 (1 / 4) t) : Between 0 0 (nearestTurns t) := by
  obtain ⟨ft, ht0, ht1⟩ := ht
  have hbig := toReal_of_scaled (x := 8388608) (k := 8388608) 0 (by decide +kernel)
  have hle : t.abs ≤ 8388608 := by
    rw [le_iff (by rw [abs_isFinite]; exact ft) hbig.1, toReal_abs, abs_of_nonneg ht0, hbig.2]
    norm_num
    linarith
  have habove : nearest (toReal t + 8388608) = 8388608 := by
    have h := (nearest_above_eq_iff (m := 2 ^ 23) (e := 0) (δ := toReal t) (by norm_num) (by norm_num) (Or.inl le_rfl)
      (by norm_num) ht0).mpr (Or.inl (by linarith))
    norm_num at h
    rwa [add_comm]
  have hbelow : nearest (toReal t + -8388608) = -8388608 := by
    have h := (nearest_below_two_zpow_eq_iff (e := 0) (δ := toReal t) (by norm_num) ht0).mpr (by linarith)
    norm_num at h
    rw [← sub_eq_add_neg, ← neg_sub, nearest_neg, h]
  -- adding the large number leaves nothing of the small one, whichever the sign
  have hround : ∀ big : Float32, big.isFinite = true → nearest (toReal t + toReal big) = toReal big →
      Between 0 0 ((t + big) - big) := by
    intro big hfin hnear
    obtain ⟨fsum, hsum⟩ := (rounded_add ft hfin).finite (by rw [hnear]; exact abs_toReal_le big)
    exact (rounded_sub fsum hfin).between mark_zero mark_zero (by rw [hsum, hnear, sub_self]) (by rw [hsum, hnear, sub_self])
  unfold nearestTurns
  rw [if_pos hle]
  rcases copySign_cases 8388608 t with h | h <;> rw [h]
  · obtain ⟨hfin, hval⟩ := toReal_of_scaled (x := Float32.ofBits ((8388608 : Float32).toBits &&& 0x7fffffff)) (k := 8388608) 0
      (by decide +kernel)
    rw [pow_zero, div_one, Int.cast_ofNat] at hval
    exact hround _ hfin (by rw [hval, habove])
  · obtain ⟨hfin, hval⟩ := toReal_of_scaled
      (x := Float32.ofBits (((8388608 : Float32).toBits &&& 0x7fffffff) ||| 0x80000000)) (k := -8388608) 0 (by decide +kernel)
    rw [pow_zero, div_one, Int.cast_neg, Int.cast_ofNat] at hval
    exact hround _ hfin (by rw [hval, hbelow])

/-- The polynomial of the sine within a quarter of a turn, where the squares are at most five halves. -/
theorem between_sine_horner {y : Float32} (hy : Between 0 (5 / 2) y) : Between (1 / 2) 1 (horner y (-2.3889859e-8)
    [2.7525562e-6, -0.00019840874, 0.008333331, -0.16666667, 1]) := by
  have r0 : InUnits (-1) 0 (-2.3889859e-8) := inUnits_of_scaled (by decide +kernel)
  have c1 : InUnits 2 3 2.7525562e-6 := inUnits_of_scaled (by decide +kernel)
  have c2 : InUnits (-209) (-208) (-0.00019840874) := inUnits_of_scaled (by decide +kernel)
  have c3 : InUnits 8738 8739 0.008333331 := inUnits_of_scaled (by decide +kernel)
  have c4 : InUnits (-174763) (-174762) (-0.16666667) := inUnits_of_scaled (by decide +kernel)
  have c5 : InUnits 1048576 1048576 1 := inUnits_of_scaled (by decide +kernel)
  have r1 := r0.horner (p := -3) (q := 0) hy c1 (by norm_num) (by norm_num) (by norm_num)
  have r2 := r1.horner (p := -3) (q := 8) hy c2 (by norm_num) (by norm_num) (by norm_num)
  have r3 := r2.horner (p := -530) (q := 0) hy c3 (by norm_num) (by norm_num) (by norm_num)
  have r4 := r3.horner (p := 0) (q := 21848) hy c4 (by norm_num) (by norm_num) (by norm_num)
  have r5 := r4.horner (p := -436908) (q := 0) hy c5 (by norm_num) (by norm_num) (by norm_num)
  exact Between.mono r5 (by norm_num) (by norm_num)

/-- Within a quarter of a turn the sine is not less than half the angle. -/
theorem between_sine {a : ℝ} {v : Float32} (ha : 0 ≤ a) (hmark : Mark (a / 2)) (hv : Between a quarter v) :
    Between (a / 2) 2 (sine v) := by
  have hv0 : 0 ≤ toReal v := ha.trans hv.2.1
  have hshare : Between (10680707 / 2 ^ 26) (10680707 / 2 ^ 26) 0.15915494 := by
    obtain ⟨hfin, hval⟩ := toReal_of_scaled (x := 0.15915494) (k := 10680707) 26 (by decide +kernel)
    rw [Int.cast_ofNat] at hval
    exact ⟨hfin, hval.ge, hval.le⟩
  have hturns : Between 0 0 (tau * nearestTurns (v * 0.15915494)) := by
    have hshareOf : Between 0 (1 / 4) (v * 0.15915494) := by
      have hmarked : Mark (1 / 4) := mark_of_eq 1 2 (by norm_num) (by norm_num) (by norm_num)
      exact Between.mul (a := 0) (b := quarter) ⟨hv.1, hv0, hv.2.2⟩ hshare le_rfl (by norm_num) mark_zero hmarked (by norm_num)
        (by norm_num [quarter])
    have htau : Small 3 tau := by
      have h : InUnits 0 (2 ^ 23) tau := inUnits_of_scaled (by decide +kernel)
      exact Between.small h (by norm_num) (by norm_num)
    obtain ⟨fn, hn0, hn1⟩ := between_nearestTurns hshareOf
    have hn : toReal (nearestTurns (v * 0.15915494)) = 0 := le_antisymm hn1 hn0
    exact (rounded_mul htau.1 fn).between mark_zero mark_zero (by rw [hn, mul_zero]) (by rw [hn, mul_zero])
  have hrest : Between a quarter (v - tau * nearestTurns (v * 0.15915494)) := by
    have hzero : toReal (tau * nearestTurns (v * 0.15915494)) = 0 := le_antisymm hturns.2.2 hturns.2.1
    have hround := rounded_sub hv.1 hturns.1
    rw [hzero, sub_zero] at hround
    obtain ⟨hfin, hval⟩ := hround.exact (grid_toReal v) (abs_toReal_le v)
    exact ⟨hfin, by rw [hval]; exact hv.2.1, by rw [hval]; exact hv.2.2⟩
  unfold sine
  generalize v - tau * nearestTurns (v * 0.15915494) = x at hrest
  have hfold : x.abs ≤ quarterTurn := by
    rw [le_iff (by rw [abs_isFinite]; exact hrest.1) between_quarterTurn.1, toReal_abs, abs_of_nonneg (ha.trans hrest.2.1)]
    exact hrest.2.2.trans between_quarterTurn.2.1
  have hsquare : Between 0 (5 / 2) (x * x) := by
    have hx : Between 0 quarter x := hrest.mono ha le_rfl
    have hhalves : Mark (5 / 2) := mark_of_eq 5 1 (by norm_num) (by norm_num) (by norm_num)
    exact hx.mul hx le_rfl le_rfl mark_zero hhalves (by norm_num) (by norm_num [quarter])
  simp only [if_pos hfold]
  have htwo : Mark 2 := mark_of_eq 2 0 (by norm_num) (by norm_num) (by norm_num)
  exact (between_sine_horner hsquare).mul hrest (by norm_num) ha hmark htwo (by linarith) (by norm_num [quarter])

end Binary32

end Gait
