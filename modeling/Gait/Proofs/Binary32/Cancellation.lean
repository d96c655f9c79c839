import Gait.Proofs.Binary32.Special
import Gait.Proofs.Binary32.Range

/-!
# Taking away and adding again

A number `s` is taken away from a number `b`, and `b` is added to the difference. In exact arithmetic that gives `b` only if `s`
is zero off `b`; in binary32 it also does if the difference is lost in the second rounding, and that happens in one case: `b` is a
power of two and `s` its neighbour towards zero.
-/

namespace Gait

namespace Binary32

open Float.Model (UnpackedFloat Format)
open Float.Model.UnpackedFloat

/-! ## Neighbours on the grid -/

section Neighbours

variable {m : ℕ} {e : ℤ} {b s x : ℝ}

/-- The canonical digits of a positive number of the grid. -/
theorem Grid.exists_canonical (hx : Grid x) (h0 : 0 < x) :
    ∃ (m : ℕ) (e : ℤ), m < 2 ^ 24 ∧ 0 < m ∧ -149 ≤ e ∧ (2 ^ 23 ≤ m ∨ e = -149) ∧ x = m * 2 ^ e := by
  have hpow : (0 : ℝ) < 2 ^ ulpExp x := by positivity
  have hx' : x = halfEven (x / 2 ^ ulpExp x) * 2 ^ ulpExp x := hx.nearest_eq.symm
  obtain ⟨k, hk⟩ : ∃ k, k = halfEven (x / 2 ^ ulpExp x) := ⟨_, rfl⟩
  rw [← hk] at hx'
  have hk0 : 0 < k := by
    rw [hx'] at h0
    exact_mod_cast pos_of_mul_pos_left h0 hpow.le
  obtain ⟨m, rfl⟩ := Int.eq_ofNat_of_zero_le hk0.le
  have hm : m < 2 ^ 24 := by
    have hlt := lt_two_zpow_ulpExp x
    rw [abs_of_pos h0, zpow_add₀ (by norm_num), mul_comm] at hlt
    have hlt' : ((m : ℤ) : ℝ) < 2 ^ (24 : ℤ) := lt_of_mul_lt_mul_right (hx' ▸ hlt) hpow.le
    exact_mod_cast hlt'
  refine ⟨m, ulpExp x, hm, by exact_mod_cast hk0, le_ulpExp x, ?_, by exact_mod_cast hx'⟩
  rcases (le_ulpExp x).eq_or_lt with he | he
  · exact Or.inr he.symm
  · have hlow := le_halfEven_div h0 he
    rw [← hk] at hlow
    exact Or.inl (by exact_mod_cast hlow)

/-- Between a canonical number and the next multiple of its last place the grid has no number. -/
theorem Grid.not_between (hx : Grid x) (hm : m < 2 ^ 24) (he : -149 ≤ e) (hlow : 2 ^ 23 ≤ m ∨ e = -149) :
    ¬ ((m : ℝ) * 2 ^ e < x ∧ x < (m + 1) * 2 ^ e) := by
  rintro ⟨h1, h2⟩
  have hpow : (0 : ℝ) < 2 ^ e := by positivity
  obtain ⟨δ, hδ⟩ : ∃ δ, x = (m + δ) * 2 ^ e := ⟨x / 2 ^ e - m, by field_simp; ring⟩
  have hδ0 : 0 < δ := by
    rw [hδ] at h1
    linarith [lt_of_mul_lt_mul_right h1 hpow.le]
  have hδ1 : δ < 1 := by
    rw [hδ] at h2
    linarith [lt_of_mul_lt_mul_right h2 hpow.le]
  have hm' : (m : ℝ) + 1 ≤ 2 ^ 24 := by exact_mod_cast hm
  have hexp : ulpExp x = e := by
    rw [hδ]
    refine ulpExp_add_mul (by linarith) he ?_
    rcases hlow with h | h
    · left
      have : (2 : ℝ) ^ 23 ≤ m := by exact_mod_cast h
      linarith
    · exact Or.inr ⟨h, by positivity⟩
  -- what is on the grid is a multiple of its last place
  obtain ⟨k, hk⟩ : ∃ k : ℤ, x = k * 2 ^ e := ⟨halfEven (x / 2 ^ e), by rw [← hexp]; exact hx.nearest_eq.symm⟩
  rw [hk] at h1 h2
  have hk1 : (m : ℤ) < k := by exact_mod_cast lt_of_mul_lt_mul_right h1 hpow.le
  have hk2 : k < (m : ℤ) + 1 := by exact_mod_cast lt_of_mul_lt_mul_right h2 hpow.le
  omega

/-- The next number of the grid above a canonical one. -/
theorem Grid.succ_le (hx : Grid x) (hm : m < 2 ^ 24) (he : -149 ≤ e) (hlow : 2 ^ 23 ≤ m ∨ e = -149)
    (h : (m : ℝ) * 2 ^ e < x) : (m + 1) * 2 ^ e ≤ x := by
  by_contra hlt
  exact hx.not_between hm he hlow ⟨h, not_le.mp hlt⟩

/-- The next number of the grid below the number after a canonical one. -/
theorem Grid.le_of_lt_succ (hx : Grid x) (hm : m < 2 ^ 24) (he : -149 ≤ e) (hlow : 2 ^ 23 ≤ m ∨ e = -149)
    (h : x < (m + 1) * 2 ^ e) : x ≤ m * 2 ^ e := by
  by_contra hlt
  exact hx.not_between hm he hlow ⟨not_le.mp hlt, h⟩

/-- The next number of the grid below a canonical one is a unit lower, but half a unit below a power of two. -/
theorem Grid.eq_or_le_pred (hx : Grid x) (hm : m < 2 ^ 24) (hpos : 0 < m) (he : -149 ≤ e) (hlow : 2 ^ 23 ≤ m ∨ e = -149)
    (h : x < m * 2 ^ e) : (m = 2 ^ 23 ∧ -149 < e ∧ x = m * 2 ^ e - m * 2 ^ e / 2 ^ 24) ∨ x ≤ (m - 1) * 2 ^ e := by
  by_cases hpower : m = 2 ^ 23 ∧ -149 < e
  · obtain ⟨rfl, he'⟩ := hpower
    have hhalf : (2 : ℝ) ^ e = 2 * 2 ^ (e - 1) := by
      rw [zpow_sub_one₀ (by norm_num)]
      ring
    have hfirst : x ≤ ((2 ^ 24 - 1 : ℕ) : ℝ) * 2 ^ (e - 1) := by
      refine hx.le_of_lt_succ (by norm_num) (by omega) (Or.inl (by norm_num)) (h.trans_le (le_of_eq ?_))
      rw [hhalf]
      norm_num
      ring
    rcases hfirst.eq_or_lt with heq | hlt
    · refine Or.inl ⟨rfl, he', ?_⟩
      rw [heq, hhalf]
      norm_num
      ring
    · right
      have hsecond : x ≤ ((2 ^ 24 - 2 : ℕ) : ℝ) * 2 ^ (e - 1) := by
        refine hx.le_of_lt_succ (by norm_num) (by omega) (Or.inl (by norm_num)) (hlt.trans_le (le_of_eq ?_))
        norm_num
      refine hsecond.trans (le_of_eq ?_)
      rw [hhalf]
      norm_num
      ring
  · right
    have hle : x ≤ ((m - 1 : ℕ) : ℝ) * 2 ^ e := by
      refine hx.le_of_lt_succ (by omega) he (by omega) (h.trans_le (le_of_eq ?_))
      rw [Nat.cast_sub hpos]
      push_cast
      ring
    rwa [Nat.cast_sub hpos, Nat.cast_one] at hle

/-- What is at least one unit off a canonical number upwards does not round to it. -/
theorem lt_nearest_of_le (hm : m < 2 ^ 24) (he : -149 ≤ e) (h : (m + 1) * 2 ^ e ≤ x) : (m : ℝ) * 2 ^ e < nearest x := by
  have hpow : (0 : ℝ) < 2 ^ e := by positivity
  have hnext : Grid ((m + 1 : ℝ) * 2 ^ e) :=
    ⟨m + 1, e, by rw [abs_of_nonneg (by positivity)]; exact_mod_cast hm, he, by push_cast; rfl⟩
  linarith [hnext.le_nearest h]

/-- What is at least one unit off a canonical number downwards does not round to it. -/
theorem nearest_lt_of_le (hm : m < 2 ^ 24) (hpos : 0 < m) (he : -149 ≤ e) (h : x ≤ (m - 1) * 2 ^ e) :
    nearest x < m * 2 ^ e := by
  have hpow : (0 : ℝ) < 2 ^ e := by positivity
  have hprev : Grid ((m - 1 : ℝ) * 2 ^ e) := by
    refine ⟨m - 1, e, ?_, he, by push_cast; rfl⟩
    rw [abs_of_nonneg (by omega)]
    omega
  linarith [hprev.nearest_le h]

/-! ## On real numbers -/

/-- The lower neighbour of a power of two is off by half a unit, and that is lost when the power is added again. -/
theorem nearest_sub_add_of_neighbour (he : -149 < e) (hs : s = (2 ^ 23 : ℕ) * 2 ^ e - (2 ^ 23 : ℕ) * 2 ^ e / 2 ^ 24) :
    nearest (nearest ((2 ^ 23 : ℕ) * 2 ^ e - s) + (2 ^ 23 : ℕ) * 2 ^ e) = (2 ^ 23 : ℕ) * 2 ^ e := by
  have hdiff : ((2 ^ 23 : ℕ) : ℝ) * 2 ^ e - s = 2 ^ (e - 1) := by
    rw [hs, zpow_sub_one₀ (by norm_num)]
    norm_num
    ring
  have hsum : (2 : ℝ) ^ (e - 1) + (2 ^ 23 : ℕ) * 2 ^ e = ((2 ^ 23 : ℕ) + 1 / 2) * 2 ^ e := by
    rw [zpow_sub_one₀ (by norm_num)]
    ring
  rw [hdiff, (grid_two_zpow (by omega)).nearest_eq, hsum,
    nearest_above_eq_iff (by norm_num) he.le (Or.inl le_rfl) (by norm_num) (by norm_num)]
  exact Or.inr ⟨by norm_num, by decide⟩

/-- A number of the grid taken away from a positive canonical one: adding it again gives it back only if the two are the same or
the first is just below the second and that is a power of two. -/
theorem nearest_sub_add_eq_iff_of_canonical (hs : Grid s) (hm : m < 2 ^ 24) (hpos : 0 < m) (he : -149 ≤ e)
    (hlow : 2 ^ 23 ≤ m ∨ e = -149) :
    nearest (nearest (m * 2 ^ e - s) + m * 2 ^ e) = m * 2 ^ e ↔
      s = m * 2 ^ e ∨ (m = 2 ^ 23 ∧ -149 < e ∧ s = m * 2 ^ e - m * 2 ^ e / 2 ^ 24) := by
  have hgrid : Grid ((m : ℝ) * 2 ^ e) := ⟨m, e, by rw [abs_of_nonneg (by positivity)]; omega, he, by push_cast; rfl⟩
  constructor
  · intro heq
    rcases lt_trichotomy s (m * 2 ^ e) with hlt | hsame | hgt
    · rcases hs.eq_or_le_pred hm hpos he hlow hlt with hneighbour | hle
      · exact Or.inr hneighbour
      · have hd : (2 : ℝ) ^ e ≤ nearest (m * 2 ^ e - s) := (grid_two_zpow he).le_nearest (by linarith)
        exact absurd heq (lt_nearest_of_le hm he (by linarith)).ne'
    · exact Or.inl hsame
    · have hle := hs.succ_le hm he hlow hgt
      have hd : nearest (m * 2 ^ e - s) ≤ -2 ^ e := (grid_two_zpow he).neg.nearest_le (by linarith)
      exact absurd heq (nearest_lt_of_le hm hpos he (by linarith)).ne
  · rintro (rfl | ⟨rfl, he', hneighbour⟩)
    · rw [sub_self, nearest_zero, zero_add, hgrid.nearest_eq]
    · exact nearest_sub_add_of_neighbour he' hneighbour

/-- A canonical number is a power of two above the least ones if its mantissa is the least of twenty-four bits. -/
theorem eq_two_zpow_iff (hm : m < 2 ^ 24) (hlow : 2 ^ 23 ≤ m ∨ e = -149) :
    (m = 2 ^ 23 ∧ -149 < e) ↔ ∃ k : ℤ, -126 < k ∧ (m : ℝ) * 2 ^ e = 2 ^ k := by
  constructor
  · rintro ⟨rfl, he⟩
    refine ⟨e + 23, by omega, ?_⟩
    rw [zpow_add₀ (by norm_num)]
    norm_num
    ring
  · rintro ⟨k, hk, heq⟩
    have hm' : (m : ℝ) = 2 ^ (k - e) := by
      rw [zpow_sub₀ (by norm_num), ← heq, mul_div_cancel_right₀ _ (by positivity)]
    have hlt : (2 : ℝ) ^ (k - e) < 2 ^ (24 : ℤ) := by
      rw [← hm']
      exact_mod_cast hm
    have hlt' := (zpow_lt_zpow_iff_right₀ (by norm_num)).mp hlt
    have hle : (2 : ℝ) ^ (23 : ℤ) ≤ 2 ^ (k - e) := by
      rw [← hm']
      exact_mod_cast hlow.resolve_right (by omega)
    have hle' := (zpow_le_zpow_iff_right₀ (by norm_num)).mp hle
    have hke : k - e = (23 : ℕ) := by omega
    rw [hke, zpow_natCast] at hm'
    exact ⟨by exact_mod_cast hm', by omega⟩

theorem nearest_sub_add_eq_iff_of_pos (hb : Grid b) (hs : Grid s) (h0 : 0 < b) :
    nearest (nearest (b - s) + b) = b ↔ s = b ∨ ∃ k : ℤ, -126 < k ∧ b = 2 ^ k ∧ s = b - b / 2 ^ 24 := by
  obtain ⟨m, e, hm, hpos, he, hlow, rfl⟩ := hb.exists_canonical h0
  have hpower := eq_two_zpow_iff hm hlow
  rw [nearest_sub_add_eq_iff_of_canonical hs hm hpos he hlow, ← and_assoc, hpower]
  apply or_congr_right
  constructor
  · rintro ⟨⟨k, hk, hbk⟩, hsb⟩
    exact ⟨k, hk, hbk, hsb⟩
  · rintro ⟨k, hk, hbk, hsb⟩
    exact ⟨⟨k, hk, hbk⟩, hsb⟩

/-- A number of the grid is taken away from another, and that one is added again. -/
theorem nearest_sub_add_eq_iff (hb : Grid b) (hs : Grid s) :
    nearest (nearest (b - s) + b) = b ↔ s = b ∨ ∃ k : ℤ, -126 < k ∧ |b| = 2 ^ k ∧ s = b - b / 2 ^ 24 := by
  rcases lt_trichotomy b 0 with h | rfl | h
  · -- the mirror image of the positive case
    have hmirror := nearest_sub_add_eq_iff_of_pos hb.neg hs.neg (neg_pos.mpr h)
    rw [← neg_sub', nearest_neg, ← neg_add, nearest_neg, neg_inj, neg_inj] at hmirror
    rw [hmirror, abs_of_neg h]
    refine or_congr_right (exists_congr fun k => and_congr_right fun _ => and_congr_right fun _ => ?_)
    constructor <;> intro heq <;> linarith
  · rw [zero_sub, add_zero, hs.neg.nearest_eq, hs.neg.nearest_eq, neg_eq_zero]
    refine ⟨Or.inl, ?_⟩
    rintro (rfl | ⟨k, -, -, heq⟩)
    · rfl
    · simpa using heq
  · rw [nearest_sub_add_eq_iff_of_pos hb hs h, abs_of_pos h]

end Neighbours

/-! ## On numbers -/

/-- The numbers are the same, or compare as equal. -/
def Alike (x y : Float32) : Prop := x = y ∨ (x == y) = true

instance (x y : Float32) : Decidable (Alike x y) := inferInstanceAs (Decidable (_ ∨ _))

theorem beq_iff_compare {x y : Float32} : (x == y) = true ↔ (parts x).compare (parts y) = some .eq := by
  show ((parts x).compare (parts y) == some .eq) = true ↔ _
  simp

/-- Finite numbers compare as equal if their values are equal. -/
theorem beq_iff {x y : Float32} (hx : x.isFinite = true) (hy : y.isFinite = true) : (x == y) = true ↔ toReal x = toReal y := by
  rw [beq_iff_compare, toReal, toReal]
  rcases (canonical_parts x).compare_values (canonical_parts y) hx hy with ⟨hv, hc⟩ | ⟨hv, hc⟩ | ⟨hv, hc⟩ <;> rw [hc]
  · simp [hv.ne]
  · simp [hv]
  · simp [hv.ne']

/-- Finite numbers are alike if their values are equal. -/
theorem alike_iff {x y : Float32} (hx : x.isFinite = true) (hy : y.isFinite = true) : Alike x y ↔ toReal x = toReal y := by
  rw [Alike, beq_iff hx hy, or_iff_right_iff_imp]
  rintro rfl
  rfl

/-- What compares as equal is finite together. -/
theorem isFinite_eq_of_compare {u v : UnpackedFloat} (h : u.compare v = some .eq) : u.isFinite = v.isFinite := by
  cases u with
  | notANumber => cases h
  | infinity s =>
    cases v with
    | infinity t => rfl
    | _ => cases s <;> cases h
  | zero s =>
    cases v with
    | infinity t => cases t <;> cases h
    | notANumber => cases h
    | _ => rfl
  | finite s m e hm =>
    cases v with
    | infinity t => cases s <;> cases t <;> cases h
    | notANumber => cases s <;> cases h
    | _ => rfl

/-- A number that is finite is not like one that is not. -/
theorem Alike.isFinite_eq {x y : Float32} (h : Alike x y) : x.isFinite = y.isFinite := by
  rcases h with rfl | h
  · rfl
  · exact isFinite_eq_of_compare (beq_iff_compare.mp h)

/-- Of the numbers that are not finite only the same infinite ones compare as equal. -/
theorem eq_of_beq_not_finite {x y : Float32} (hx : x.isFinite = false) (h : (x == y) = true) : x = y := by
  apply parts_injective
  rw [beq_iff_compare] at h
  cases hpx : parts x with
  | notANumber =>
    rw [hpx] at h
    cases h
  | infinity s =>
    rw [hpx] at h
    cases hpy : parts y with
    | infinity t =>
      rw [hpy] at h
      cases s <;> cases t <;> first | rfl | cases h
    | _ =>
      rw [hpy] at h
      cases s <;> cases h
  | zero s =>
    rw [isFinite_iff.2 (Or.inl ⟨s, hpx⟩)] at hx
    cases hx
  | finite s m e hm =>
    rw [isFinite_of_parts hpx] at hx
    cases hx

theorem not_isFinite_of_parts_infinity {x : Float32} {t : Sign} (h : parts x = .infinity t) : x.isFinite = false := by
  show (parts x).isFinite = false
  rw [h]
  rfl

/-- What `s` must be to `b` if `b` is to come back when `s` is taken away from it and it is added again: between finite numbers,
the same, or the neighbour towards zero of a power of two; to an infinite number, a number other than that; and no number comes
back from anything. -/
def Restores (s b : Float32) : Prop :=
  match parts b with
  | .notANumber => True
  | .infinity _ => ¬ IsNaN s ∧ s ≠ b
  | _ => s.isFinite = true ∧
      (toReal s = toReal b ∨ ∃ k : ℤ, -126 < k ∧ |toReal b| = 2 ^ k ∧ toReal s = toReal b - toReal b / 2 ^ 24)

section Restoring

variable {b s : Float32}

theorem restores_iff_of_isFinite (hb : b.isFinite = true) : Restores s b ↔ s.isFinite = true ∧
    (toReal s = toReal b ∨ ∃ k : ℤ, -126 < k ∧ |toReal b| = 2 ^ k ∧ toReal s = toReal b - toReal b / 2 ^ 24) := by
  unfold Restores
  rcases isFinite_iff.mp hb with ⟨t, h⟩ | ⟨t, m, e, hm, h⟩ <;> simp only [h]

/-- Between finite numbers the real sum decides. -/
theorem alike_sub_add_iff_nearest (hb : b.isFinite = true) (hs : s.isFinite = true) :
    Alike (b - s + b) b ↔ nearest (nearest (toReal b - toReal s) + toReal b) = toReal b := by
  have hnot : ∀ {z : Float32}, z.isFinite = false → ¬ Alike z b := by
    intro z hz h
    rw [h.isFinite_eq, hb] at hz
    cases hz
  have hdiff := rounded_sub hb hs
  rcases le_or_gt |nearest (toReal b - toReal s)| largest with hle | hgt
  · obtain ⟨hd, hval⟩ := hdiff.finite hle
    have hsum := rounded_add hd hb
    rw [hval] at hsum
    rcases le_or_gt |nearest (nearest (toReal b - toReal s) + toReal b)| largest with hle' | hgt'
    · obtain ⟨hfin, hval'⟩ := hsum.finite hle'
      rw [alike_iff hfin hb, hval']
    · refine iff_of_false (hnot (not_isFinite_of_parts_infinity (hsum.infinite hgt'))) ?_
      intro heq
      rw [heq] at hgt'
      exact absurd (abs_toReal_le b) (not_le.mpr hgt')
  · -- the difference is too large only if it is far from both
    refine iff_of_false (hnot (not_isFinite_add (not_isFinite_of_parts_infinity (hdiff.infinite hgt)))) ?_
    rw [nearest_sub_add_eq_iff (grid_toReal b) (grid_toReal s)]
    rintro (heq | ⟨k, -, -, heq⟩)
    · rw [heq, sub_self, nearest_zero, abs_zero] at hgt
      norm_num [largest] at hgt
    · have hsmall : |toReal b - toReal s| ≤ |toReal b| := by
        rw [heq, sub_sub_cancel, abs_div]
        exact div_le_self (abs_nonneg _) (by norm_num)
      have hmark := mark_abs_toReal b
      have hnear := abs_le.mpr ⟨hmark.neg.1.le_nearest (abs_le.mp hsmall).1, hmark.1.nearest_le (abs_le.mp hsmall).2⟩
      exact absurd (hnear.trans (abs_toReal_le b)) (not_le.mpr hgt)

theorem alike_sub_add_iff_of_isFinite (hb : b.isFinite = true) : Alike (b - s + b) b ↔ Restores s b := by
  rw [restores_iff_of_isFinite hb]
  cases hs : s.isFinite with
  | false =>
    -- what is not finite leaves its mark on the difference and on the sum
    refine iff_of_false ?_ (by simp)
    intro h
    have hfin : (b - s + b).isFinite = true := h.isFinite_eq.trans hb
    rw [(isFinite_of_sub (isFinite_of_add hfin).1).2] at hs
    cases hs
  | true =>
    rw [alike_sub_add_iff_nearest hb hs, nearest_sub_add_eq_iff (grid_toReal b) (grid_toReal s)]
    simp

/-- No number is like an infinite one. -/
theorem IsNaN.not_alike {x : Float32} {t : Sign} (h : IsNaN x) (hb : parts b = .infinity t) : ¬ Alike x b := by
  rintro (rfl | heq)
  · rw [h] at hb
    cases hb
  · rw [beq_iff_compare, h, hb] at heq
    cases heq

/-- What is taken away from an infinite number is lost, unless it is that number or none. -/
theorem parts_sub_of_infinity {t : Sign} (hb : parts b = .infinity t) (hs : ¬ IsNaN s) (hne : s ≠ b) :
    parts (b - s) = .infinity t := by
  have hsub : sub Format.binary32 (parts b) (parts s) = .infinity t := by
    rw [hb]
    cases h : parts s with
    | notANumber => exact absurd h hs
    | infinity r =>
      have hrt : r ≠ t := by
        rintro rfl
        exact hne (parts_injective (h.trans hb.symm))
      cases r <;> cases t <;> first | rfl | exact absurd rfl hrt
    | _ => rfl
  have hpack := parts_pack_of_not_isFinite (u := sub Format.binary32 (parts b) (parts s)) (by rw [hsub]; rfl)
  exact hpack.trans hsub

/-- A number comes back when another is taken away from it and it is added again exactly if that one restores it. -/
theorem alike_sub_add_iff : Alike (b - s + b) b ↔ Restores s b := by
  cases hp : parts b with
  | zero t => exact alike_sub_add_iff_of_isFinite (isFinite_iff.mpr (Or.inl ⟨t, hp⟩))
  | finite t m e hm => exact alike_sub_add_iff_of_isFinite (isFinite_of_parts hp)
  | notANumber =>
    have hsum : b - s + b = b := parts_injective ((IsNaN.add_right hp).trans hp.symm)
    simp [Restores, hp, hsum, Alike]
  | infinity t =>
    simp only [Restores, hp]
    constructor
    · intro h
      refine ⟨fun hs => hs.sub_right.add_left.not_alike hp h, ?_⟩
      rintro rfl
      exact (isNaN_sub_self (not_isFinite_of_parts_infinity hp)).add_left.not_alike hp h
    · rintro ⟨hs, hne⟩
      left
      have hdiff := parts_sub_of_infinity hp hs hne
      have hadd : add Format.binary32 (parts (b - s)) (parts b) = .infinity t := by
        rw [hdiff, hp]
        cases t <;> rfl
      have hpack := parts_pack_of_not_isFinite (u := add Format.binary32 (parts (b - s)) (parts b)) (by rw [hadd]; rfl)
      exact parts_injective ((hpack.trans hadd).trans hp.symm)

end Restoring

end Binary32

end Gait
