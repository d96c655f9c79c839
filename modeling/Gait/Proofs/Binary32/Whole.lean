import Gait.Proofs.Binary32.Extended

/-!
# Whole numbers

A number that is not negative is rounded to the nearest whole number exactly, a half going up, and so in order; a whole number
that has room is cut off to itself. An infinite number stays where it is.
-/

namespace Gait

namespace Binary32

open Float.Model (UnpackedFloat)
open Float.Model.UnpackedFloat

variable {x y z z' : Float32}

/-! ## The order of results -/

/-- Results are in the order of what they are rounded from, also where they are infinite. -/
theorem Rounded.place_le {r r' : ℝ} (h : Rounded z r) (h' : Rounded z' r') (hle : r ≤ r') : place z ≤ place z' := by
  have hnear := nearest_mono hle
  rcases le_or_gt |nearest r| largest with hsmall | hlarge
  · obtain ⟨hfin, hval⟩ := h.finite hsmall
    rw [place_of_isFinite hfin, hval]
    rcases le_or_gt |nearest r'| largest with hsmall' | hlarge'
    · obtain ⟨hfin', hval'⟩ := h'.finite hsmall'
      rw [place_of_isFinite hfin', hval']
      exact EReal.coe_le_coe_iff.2 hnear
    · have hpos : 0 < r' := by
        by_contra hneg
        have hdown : nearest r' ≤ 0 := grid_zero.nearest_le (not_lt.1 hneg)
        rw [abs_of_nonpos hdown] at hlarge'
        linarith [neg_abs_le (nearest r)]
      rw [place_of_infinity (h'.infinite hlarge'), if_pos hpos]
      exact le_top
  · rw [place_of_infinity (h.infinite hlarge)]
    split_ifs with hpos
    · have hup : 0 ≤ nearest r := nearest_nonneg hpos.le
      rw [abs_of_nonneg hup] at hlarge
      have hlarge' : largest < |nearest r'| := hlarge.trans_le (hnear.trans (le_abs_self _))
      rw [place_of_infinity (h'.infinite hlarge'), if_pos (hpos.trans_le hle)]
    · exact bot_le

/-! ## Rounding to whole numbers -/

/-- Each number is so many times the least one. -/
theorem Grid.exists_mul_least {x : ℝ} (h : Grid x) : ∃ k : ℤ, x = k * 2 ^ (-149 : ℤ) := by
  obtain ⟨k, e, -, he, rfl⟩ := h
  obtain ⟨n, hn⟩ := Int.eq_ofNat_of_zero_le (by omega : 0 ≤ e + 149)
  refine ⟨k * 2 ^ n, ?_⟩
  have hsplit : (2 : ℝ) ^ e = 2 ^ n * 2 ^ (-149 : ℤ) := by
    rw [← zpow_natCast, ← zpow_add₀ (by norm_num)]
    congr 1
    omega
  rw [hsplit]
  push_cast
  ring

/-- The nearest natural number in binary digits is the nearest one. -/
theorem roundNat_eq (m : ℕ) (e : ℤ) : roundNat m e = ⌊(m : ℝ) * 2 ^ e + 1 / 2⌋₊ := by
  cases e with
  | ofNat k =>
    have hwhole : (m : ℝ) * 2 ^ (Int.ofNat k) = ((m * 2 ^ k : ℕ) : ℝ) := by
      rw [Int.ofNat_eq_natCast, zpow_natCast]
      push_cast
      rfl
    rw [roundNat, Nat.shiftLeft_eq, hwhole, eq_comm, Nat.floor_eq_iff (by positivity)]
    constructor <;> linarith
  | negSucc k =>
    have hshare : (m : ℝ) * 2 ^ (Int.negSucc k) + 1 / 2 = ((m + 2 ^ k : ℕ) : ℝ) / ((2 ^ (k + 1) : ℕ) : ℝ) := by
      rw [zpow_negSucc]
      push_cast
      rw [pow_succ]
      field_simp
    rw [hshare, Nat.floor_div_eq_div, roundNat, Nat.shiftRight_eq_div_pow]
    rfl

/-- The nearest natural number has no more digits than there were, unless the number is whole itself. -/
theorem roundNat_cases {m : ℕ} (hm : 0 < m) (e : ℤ) : (roundNat m e : ℝ) = m * 2 ^ e ∨ roundNat m e ≤ m := by
  cases e with
  | ofNat k =>
    left
    rw [roundNat, Nat.shiftLeft_eq, Int.ofNat_eq_natCast, zpow_natCast]
    push_cast
    rfl
  | negSucc k =>
    right
    have hpow : 0 < 2 ^ k := by positivity
    rw [roundNat, Nat.shiftRight_eq_div_pow]
    apply Nat.div_le_of_le_mul
    show m + 2 ^ k ≤ 2 ^ (k + 1) * m
    rw [pow_succ]
    nlinarith

theorem roundHalfAway_of_infinity {s : Sign} (h : parts x = .infinity s) : roundHalfAway x = x := by
  rw [roundHalfAway, h]

/-- A number that is not negative is rounded to the nearest whole number, a half going up. -/
theorem exactly_roundHalfAway (hx : x.isFinite = true) (h0 : 0 ≤ toReal x) : Exactly (round (toReal x)) (roundHalfAway x) := by
  rcases h0.eq_or_lt with hzero | hpos
  · rcases isFinite_iff.1 hx with ⟨s, hp⟩ | ⟨s, m, e, hm, hp⟩
    · have hsame : roundHalfAway x = x := by rw [roundHalfAway, hp]
      rw [hsame, ← hzero, round_zero, Int.cast_zero]
      exact ⟨hx, hzero.symm⟩
    · rw [toReal, hp] at hzero
      exact absurd hzero.symm (value_ne_zero s m e hm)
  · obtain ⟨m, e, hm, hp⟩ := parts_of_pos hx hpos
    have hval : toReal x = m * 2 ^ e := by rw [toReal_of_parts hp, unit, Int.cast_one, one_mul]
    have hround : ((round (toReal x) : ℤ) : ℝ) = roundNat m e := by
      rw [round_eq, ← Int.natCast_floor_eq_floor (by positivity), hval, roundNat_eq]
      rfl
    have hsame : roundHalfAway x = ofDyadic (roundNat m e) 0 := by
      rw [roundHalfAway, hp]
      rfl
    have hrounded := rounded_ofDyadic (roundNat m e) 0
    rw [zpow_zero, mul_one] at hrounded
    rw [hsame, hround]
    have hdigits : m < 2 ^ 24 := (hp ▸ canonical_parts x : Canonical (.finite .positive m e hm)).1
    rcases roundNat_cases hm e with hwhole | hle
    · rw [hwhole, ← hval] at hrounded ⊢
      exact hrounded.exact (grid_toReal x) (abs_toReal_le x)
    · exact hrounded.exact (grid_natCast (by omega)) (natCast_le_largest (by omega))

/-- Rounding to whole numbers keeps the order. -/
theorem place_roundHalfAway_le (hx : ¬IsNaN x) (hy : ¬IsNaN y) (h0 : 0 ≤ place x) (h : place x ≤ place y) :
    place (roundHalfAway x) ≤ place (roundHalfAway y) := by
  rcases number_cases x with fx | ⟨s, px⟩ | nx
  · have hx0 : 0 ≤ toReal x := by
      rwa [place_of_isFinite fx, EReal.coe_nonneg] at h0
    rcases number_cases y with fy | ⟨t, py⟩ | ny
    · rw [place_of_isFinite fx, place_of_isFinite fy, EReal.coe_le_coe_iff] at h
      obtain ⟨hfin, hval⟩ := exactly_roundHalfAway fx hx0
      obtain ⟨hfin', hval'⟩ := exactly_roundHalfAway fy (hx0.trans h)
      rw [place_of_isFinite hfin, place_of_isFinite hfin', hval, hval', EReal.coe_le_coe_iff, Int.cast_le, round_eq, round_eq]
      exact Int.floor_le_floor (by linarith)
    · rw [roundHalfAway_of_infinity py, place_of_infinity py]
      cases t with
      | positive => exact le_top
      | negative =>
        rw [place_of_infinity py, lineEnd, place_of_isFinite fx] at h
        exact absurd h (not_le.2 (EReal.bot_lt_coe _))
    · exact absurd ny hy
  · rw [roundHalfAway_of_infinity px]
    rcases number_cases y with fy | ⟨t, py⟩ | ny
    · cases s with
      | positive =>
        rw [place_of_infinity px, place_of_isFinite fy] at h
        exact absurd h (not_le.2 (EReal.coe_lt_top _))
      | negative =>
        rw [place_of_infinity px] at h0
        exact absurd h0 (not_le.2 (EReal.bot_lt_coe 0))
    · rwa [roundHalfAway_of_infinity py]
    · exact absurd ny hy
  · exact absurd nx hx

/-! ## Cutting off whole numbers -/

/-- A whole number that has room is cut off to itself. -/
theorem toNat_toUInt32 {n : ℕ} (hx : Exactly n x) (hn : n < 2 ^ 32) : x.toUInt32.toNat = n := by
  obtain ⟨hfin, hval⟩ := hx
  have hint : (parts x).toInt 0 (UInt32.size - 1) = n := by
    rcases isFinite_iff.1 hfin with ⟨s, hp⟩ | ⟨s, m, e, hm, hp⟩
    · rw [toReal, hp, value_zero] at hval
      rw [hp, toInt]
      exact_mod_cast hval
    · rw [toReal, hp, value_finite] at hval
      rw [hp]
      simp only [toInt, roundToInt_eq]
      cases s with
      | negative =>
        have hpos : (0 : ℝ) < m * 2 ^ e := by positivity
        have hn0 : (0 : ℝ) ≤ n := by positivity
        rw [unit, Int.cast_neg, Int.cast_one] at hval
        linarith
      | positive =>
        rw [unit, Int.cast_one, one_mul] at hval
        rw [hval, Nat.floor_natCast]
        rfl
  show (UInt32.ofNatClamp ((parts x).toInt 0 (UInt32.size - 1)).toNat).toNat = n
  rw [hint, Int.toNat_natCast, UInt32.ofNatClamp]
  split_ifs with hlt
  · rfl
  · exact absurd hn hlt

end Binary32

end Gait
