import Gait.Proofs.Binary32.Accuracy
import Gait.Proofs.Binary32.Cancellation

/-!
# A number blended with itself

A share of a number and the rest of it make up the number again, but in binary32 only nearly. Powers of two do come back, whatever
the share. Any other number comes back to within one unit of its last place, and there is a share at which it misses by that much.
-/

namespace Gait

namespace Binary32

/-- What becomes of a number that is blended with itself by a share. -/
noncomputable def selfBlend (x s : ℝ) : ℝ := nearest (nearest (x * nearest (1 - s)) + nearest (x * s))

theorem selfBlend_neg (x s : ℝ) : selfBlend (-x) s = -selfBlend x s := by
  rw [selfBlend, neg_mul, neg_mul, nearest_neg, nearest_neg, ← neg_add, nearest_neg, selfBlend]

/-- Below a power of two rounding moves by at most the half of its last place but one. -/
theorem abs_nearest_sub_le_two_zpow {y : ℝ} {k : ℤ} (h : |y| ≤ 2 ^ k) (hk : -125 ≤ k) : |nearest y - y| ≤ 2 ^ (k - 25) := by
  rcases h.eq_or_lt with heq | hlt
  · have hgrid : Grid y := by
      rcases abs_choice y with hy | hy
      · rw [← hy, heq]
        exact grid_two_zpow (by omega)
      · rw [← neg_neg y, ← hy, heq]
        exact (grid_two_zpow (by omega)).neg
    rw [hgrid.nearest_eq, sub_self, abs_zero]
    positivity
  · rcases eq_or_ne y 0 with rfl | hy
    · rw [nearest_zero, sub_self, abs_zero]
      positivity
    · have hlog : Int.log 2 |y| < k := (Int.lt_zpow_iff_log_lt (by norm_num) (abs_pos.mpr hy)).mp (by exact_mod_cast hlt)
      have hexp : ulpExp y ≤ k - 24 := by
        unfold ulpExp
        omega
      calc |nearest y - y| ≤ 2 ^ ulpExp y / 2 := abs_nearest_sub_le_ulp y
        _ ≤ 2 ^ (k - 24) / 2 := div_le_div_of_nonneg_right (zpow_le_zpow_right₀ (by norm_num) hexp) (by norm_num)
        _ = 2 ^ (k - 25) := by
          rw [div_eq_mul_inv, ← zpow_sub_one₀ (by norm_num)]
          congr 1
          omega

section Shares

variable {s x : ℝ}

/-- The rest of a share is a share, and nearly the right one. -/
theorem nearest_one_sub (h0 : 0 ≤ s) (h1 : s ≤ 1) :
    0 ≤ nearest (1 - s) ∧ nearest (1 - s) ≤ 1 ∧ |nearest (1 - s) - (1 - s)| ≤ 1 / 2 ^ 25 := by
  refine ⟨nearest_nonneg (by linarith), mark_one.1.nearest_le (by linarith), ?_⟩
  have h := abs_nearest_sub_le_two_zpow (y := 1 - s) (k := 0) (by rw [abs_of_nonneg (by linarith), zpow_zero]; linarith)
    (by norm_num)
  refine h.trans (le_of_eq ?_)
  norm_num

/-- A very small number stays where it is up to very little. -/
theorem abs_selfBlend_sub_le_of_small (h0 : 0 ≤ s) (h1 : s ≤ 1) (hx : |x| ≤ 1 / 2 ^ 54) : |selfBlend x s - x| ≤ 1 / 2 ^ 76 := by
  obtain ⟨a0, a1, ha⟩ := nearest_one_sub h0 h1
  obtain ⟨a, haeq⟩ : ∃ a, a = nearest (1 - s) := ⟨_, rfl⟩
  have hpart : ∀ {r : ℝ}, 0 ≤ r → r ≤ 1 → |x * r| ≤ 1 / 2 ^ 54 ∧ |nearest (x * r) - x * r| ≤ 1 / 2 ^ 79 := by
    intro r hr0 hr1
    have hle : |x * r| ≤ 1 / 2 ^ 54 := by
      rw [abs_mul, abs_of_nonneg hr0]
      exact (mul_le_of_le_one_right (abs_nonneg x) hr1).trans hx
    have h := abs_nearest_sub_le_two_zpow (k := -54) (hle.trans (le_of_eq (by norm_num))) (by norm_num)
    exact ⟨hle, h.trans (le_of_eq (by norm_num))⟩
  rw [← haeq] at a0 a1 ha
  obtain ⟨-, hp⟩ := hpart a0 a1
  obtain ⟨-, hq⟩ := hpart h0 h1
  have hrest : |x * (a - (1 - s))| ≤ 1 / 2 ^ 54 * (1 / 2 ^ 25) := by
    rw [abs_mul]
    exact mul_le_mul hx ha (abs_nonneg _) (by positivity)
  have hsum : |nearest (x * a) + nearest (x * s) - x| ≤ 3 / 2 ^ 79 := by
    have hsplit : nearest (x * a) + nearest (x * s) - x =
        (nearest (x * a) - x * a) + (nearest (x * s) - x * s) + x * (a - (1 - s)) := by ring
    rw [hsplit]
    refine (abs_add_three _ _ _).trans ?_
    linarith
  have hmagnitude : |nearest (x * a) + nearest (x * s)| ≤ 2 ^ (-53 : ℤ) := by
    have h := abs_add_le (nearest (x * a) + nearest (x * s) - x) x
    rw [sub_add_cancel] at h
    refine h.trans ((add_le_add hsum hx).trans ?_)
    norm_num
  have hlast := abs_nearest_sub_le_two_zpow hmagnitude (by norm_num)
  norm_num at hlast
  rw [selfBlend, ← haeq]
  refine (abs_sub_le _ (nearest (x * a) + nearest (x * s)) _).trans ?_
  norm_num at hsum ⊢
  linarith

end Shares

/-! ## Powers of two -/

section PowersOfTwo

variable {s y : ℝ} {k : ℤ}

/-- What is near a power of two rounds to it. -/
theorem nearest_eq_two_zpow (hk : -126 < k) (h : |y - 2 ^ k| ≤ 2 ^ (k - 25)) : nearest y = 2 ^ k := by
  obtain ⟨h1, h2⟩ := abs_le.mp h
  have hpow : (0 : ℝ) < 2 ^ (k - 23) := by positivity
  have hunit : (2 : ℝ) ^ k = 2 ^ 23 * 2 ^ (k - 23) := by
    rw [zpow_sub₀ (by norm_num)]
    norm_num
    ring
  have hquarter : (2 : ℝ) ^ (k - 25) = 1 / 4 * 2 ^ (k - 23) := by
    rw [show k - 25 = k - 23 - 2 by ring, zpow_sub₀ (by norm_num)]
    norm_num
    ring
  rcases le_total y (2 ^ k) with hle | hle
  · obtain ⟨δ, hδ⟩ : ∃ δ, y = (2 ^ 23 - δ) * 2 ^ (k - 23) := ⟨2 ^ 23 - y / 2 ^ (k - 23), by field_simp; ring⟩
    rw [hδ, hunit] at hle
    rw [hδ, hunit, hquarter] at h1
    rw [hδ, hunit, nearest_below_two_zpow_eq_iff (by omega) (by nlinarith)]
    nlinarith
  · obtain ⟨δ, hδ⟩ : ∃ δ, y = ((2 ^ 23 : ℕ) + δ) * 2 ^ (k - 23) := ⟨y / 2 ^ (k - 23) - 2 ^ 23, by push_cast; field_simp; ring⟩
    have hunit' : (2 : ℝ) ^ k = (2 ^ 23 : ℕ) * 2 ^ (k - 23) := by
      rw [hunit]
      norm_num
    rw [hδ, hunit'] at hle
    rw [hδ, hunit', hquarter] at h2
    rw [hδ, hunit', nearest_above_eq_iff (by norm_num) (by omega) (Or.inl le_rfl) (by norm_num) (by nlinarith)]
    left
    nlinarith

/-- A number that is not below a power of two has its last place in reach of it. -/
theorem lt_of_two_zpow_le {m : ℕ} {j e : ℤ} (hm : m < 2 ^ 24) (h : (2 : ℝ) ^ j ≤ m * 2 ^ e) : j < 24 + e := by
  have hm' : (m : ℝ) < 2 ^ (24 : ℤ) := by exact_mod_cast hm
  have hlt : (2 : ℝ) ^ j < 2 ^ (24 + e) := by
    rw [zpow_add₀ (by norm_num)]
    exact h.trans_lt (mul_lt_mul_of_pos_right hm' (by positivity))
  exact (zpow_lt_zpow_iff_right₀ (by norm_num)).mp hlt

/-- A share that is not very small has few digits behind the point. -/
theorem Grid.two_zpow_mul_share (hs : Grid s) (h : 1 / 2 ^ 25 ≤ s) (hk : -101 ≤ k) : Grid (2 ^ k * s) := by
  obtain ⟨m, e, hm, -, -, -, rfl⟩ := hs.exists_canonical (lt_of_lt_of_le (by positivity) h)
  have he : -25 < 24 + e := lt_of_two_zpow_le hm ((by norm_num : (2 : ℝ) ^ (-25 : ℤ) = 1 / 2 ^ 25).trans_le h)
  refine ⟨m, k + e, by rw [abs_of_nonneg (by positivity)]; omega, by omega, ?_⟩
  rw [zpow_add₀ (by norm_num)]
  push_cast
  ring

/-- What is left of a share is none of it, or not very small. -/
theorem le_nearest_one_sub (hs : Grid s) (h1 : s ≤ 1) : nearest (1 - s) = 0 ∨ 1 / 2 ^ 25 ≤ nearest (1 - s) := by
  rcases h1.eq_or_lt with rfl | hlt
  · left
    rw [sub_self, nearest_zero]
  · right
    have hle : s ≤ ((2 ^ 24 - 1 : ℕ) : ℝ) * 2 ^ (-24 : ℤ) :=
      hs.le_of_lt_succ (by norm_num) (by norm_num) (Or.inl (by norm_num)) (by norm_num; exact hlt)
    refine (mark_inv_two_pow (by norm_num)).1.le_nearest ?_
    norm_num at hle ⊢
    linarith

/-- A power of two blended with itself is itself, whatever the share. -/
theorem selfBlend_two_zpow (hs : Grid s) (h0 : 0 ≤ s) (h1 : s ≤ 1) (hk : -101 ≤ k) : selfBlend (2 ^ k) s = 2 ^ k := by
  have hpow : (0 : ℝ) < 2 ^ k := by positivity
  have hsplit : (2 : ℝ) ^ (k - 25) = 2 ^ k * (1 / 2 ^ 25) := by
    rw [zpow_sub₀ (by norm_num)]
    norm_num
    ring
  obtain ⟨-, -, ha⟩ := nearest_one_sub h0 h1
  rcases le_total s (1 / 2 ^ 25) with hsmall | hlarge
  · -- nothing is taken from the number, and what is added is lost
    have hrest : nearest (1 - s) = 1 := by
      have h := nearest_eq_two_zpow (y := 1 - s) (k := 0) (by norm_num) (by
        rw [zpow_zero, sub_sub_cancel_left, abs_neg, abs_of_nonneg h0]
        refine hsmall.trans (le_of_eq ?_)
        norm_num)
      rwa [zpow_zero] at h
    have hmark : Grid (2 ^ (k - 25) : ℝ) := grid_two_zpow (by omega)
    have hadd1 : 0 ≤ nearest (2 ^ k * s) := nearest_nonneg (by positivity)
    have hadd2 : nearest (2 ^ k * s) ≤ 2 ^ (k - 25) :=
      hmark.nearest_le (by rw [hsplit]; exact mul_le_mul_of_nonneg_left hsmall hpow.le)
    rw [selfBlend, hrest, mul_one, (grid_two_zpow (by omega)).nearest_eq]
    refine nearest_eq_two_zpow (by omega) ?_
    rw [add_sub_cancel_left, abs_of_nonneg hadd1]
    exact hadd2
  · -- both parts are exact
    have hpart : nearest (2 ^ k * s) = 2 ^ k * s := (hs.two_zpow_mul_share hlarge hk).nearest_eq
    have hrest : nearest (2 ^ k * nearest (1 - s)) = 2 ^ k * nearest (1 - s) := by
      rcases le_nearest_one_sub hs h1 with h | h
      · rw [h, mul_zero, nearest_zero]
      · exact ((grid_nearest _).two_zpow_mul_share h hk).nearest_eq
    rw [selfBlend, hpart, hrest]
    refine nearest_eq_two_zpow (by omega) ?_
    have hdiff : 2 ^ k * nearest (1 - s) + 2 ^ k * s - 2 ^ k = 2 ^ k * (nearest (1 - s) - (1 - s)) := by ring
    rw [hdiff, abs_mul, abs_of_pos hpow, hsplit]
    exact mul_le_mul_of_nonneg_left ha hpow.le

end PowersOfTwo

/-! ## Other numbers -/

section Canonical

variable {m : ℕ} {e : ℤ} {s : ℝ}

/-- A little more than one unit above a canonical number rounds to the next one. -/
theorem nearest_add_five_fourths (hm : m < 2 ^ 24) (hlow : 2 ^ 23 < m) (he : -149 ≤ e) :
    nearest ((m + 5 / 4) * 2 ^ e) = (m + 1) * 2 ^ e := by
  rcases (Nat.succ_le_of_lt hm).eq_or_lt with htop | hnext
  · -- the next number is a power of two
    have hm' : (m : ℝ) = 2 ^ 24 - 1 := by
      have : (m : ℝ) + 1 = 2 ^ 24 := by exact_mod_cast htop
      linarith
    have hvalue : ((m : ℝ) + 5 / 4) * 2 ^ e = ((2 ^ 23 : ℕ) + 1 / 8) * 2 ^ (e + 1) := by
      rw [hm', zpow_add_one₀ (by norm_num)]
      norm_num
      ring
    have htarget : ((m : ℝ) + 1) * 2 ^ e = (2 ^ 23 : ℕ) * 2 ^ (e + 1) := by
      rw [hm', zpow_add_one₀ (by norm_num)]
      norm_num
      ring
    rw [hvalue, htarget, nearest_above_eq_iff (by norm_num) (by omega) (Or.inl le_rfl) (by norm_num) (by norm_num)]
    left
    norm_num
  · have h := nearest_above_eq_iff (m := m + 1) (δ := 1 / 4) hnext he (Or.inl (by omega)) (by omega) (by norm_num)
    push_cast at h
    rw [show (m : ℝ) + 5 / 4 = m + 1 + 1 / 4 by ring]
    exact h.mpr (Or.inl (by norm_num))

/-- A little more than one unit below a canonical number rounds to the one before, unless the number is a power of two. -/
theorem nearest_sub_five_fourths (hm : m < 2 ^ 24) (hlow : 2 ^ 23 < m) (he : -149 < e) :
    nearest ((m - 5 / 4) * 2 ^ e) = (m - 1) * 2 ^ e := by
  rcases (Nat.succ_le_of_lt hlow).eq_or_lt with hbottom | hprev
  · have hm' : (m : ℝ) = 2 ^ 23 + 1 := by exact_mod_cast hbottom.symm
    rw [hm', show (2 ^ 23 + 1 - 5 / 4 : ℝ) = 2 ^ 23 - 1 / 4 by ring, add_sub_cancel_right,
      nearest_below_two_zpow_eq_iff he (by norm_num)]
    norm_num
  · have h := nearest_below_eq_iff (m := m - 1) (e := e) (δ := 1 / 4) (by omega) he.le (Or.inl (by omega)) (by omega)
      (by norm_num)
    rw [Nat.cast_sub (by omega), Nat.cast_one] at h
    rw [show (m : ℝ) - 5 / 4 = m - 1 - 1 / 4 by ring]
    exact h.mpr (Or.inl (by norm_num))

/-- A number that is no power of two, blended with itself, comes back to within one unit of its last place. -/
theorem abs_selfBlend_sub_le (hm : m < 2 ^ 24) (hlow : 2 ^ 23 < m) (he : -149 < e) (h0 : 0 ≤ s) (h1 : s ≤ 1) :
    |selfBlend (m * 2 ^ e) s - m * 2 ^ e| ≤ 2 ^ e := by
  obtain ⟨a0, a1, ha⟩ := nearest_one_sub h0 h1
  obtain ⟨a, haeq⟩ : ∃ a, a = nearest (1 - s) := ⟨_, rfl⟩
  obtain ⟨u, hu⟩ : ∃ u : ℝ, u = 2 ^ e := ⟨_, rfl⟩
  have hu0 : 0 < u := hu ▸ by positivity
  have hm' : (m : ℝ) ≤ 2 ^ 24 := by exact_mod_cast hm.le
  have hpow : ∀ j : ℤ, (2 : ℝ) ^ (e + j) = u * 2 ^ j := fun j => by rw [hu, zpow_add₀ (by norm_num)]
  -- the whole is rounded by at most half a unit, and half of it by at most a quarter
  have hpart : ∀ {r : ℝ} {j : ℤ}, -1 ≤ j → 0 ≤ r → r ≤ 2 ^ j → |nearest (m * u * r) - m * u * r| ≤ u * 2 ^ (j - 1) := by
    intro r j hj hr0 hr1
    have hle : |(m : ℝ) * u * r| ≤ 2 ^ (e + (24 + j)) := by
      rw [abs_of_nonneg (by positivity), hpow, zpow_add₀ (by norm_num)]
      calc (m : ℝ) * u * r ≤ 2 ^ 24 * u * 2 ^ j :=
            mul_le_mul (mul_le_mul_of_nonneg_right hm' hu0.le) hr1 hr0 (by positivity)
        _ = u * (2 ^ (24 : ℤ) * 2 ^ j) := by
            norm_num
            ring
    have h := abs_nearest_sub_le_two_zpow hle (by omega)
    rwa [show e + (24 + j) - 25 = e + (j - 1) by ring, hpow] at h
  rw [← haeq] at a0 a1 ha
  have hparts : |nearest (m * u * a) - m * u * a| + |nearest (m * u * s) - m * u * s| ≤ 3 / 4 * u := by
    have hwhole : ∀ {r : ℝ}, 0 ≤ r → r ≤ 1 → |nearest (m * u * r) - m * u * r| ≤ u * (1 / 2) := fun hr0 hr1 =>
      (hpart (j := 0) (by norm_num) hr0 (by rwa [zpow_zero])).trans (le_of_eq (by norm_num))
    have hhalf : ∀ {r : ℝ}, 0 ≤ r → r ≤ 1 / 2 → |nearest (m * u * r) - m * u * r| ≤ u * (1 / 4) := fun hr0 hr1 =>
      (hpart (j := -1) (by norm_num) hr0 (by norm_num; linarith)).trans (le_of_eq (by norm_num))
    rcases le_total s (1 / 2) with hs | hs
    · linarith [hwhole a0 a1, hhalf h0 hs]
    · have ha2 : a ≤ 1 / 2 := by
        rw [haeq]
        exact (mark_of_eq 1 1 (by norm_num) (by norm_num) (by norm_num)).1.nearest_le (by linarith)
      linarith [hhalf a0 ha2, hwhole h0 h1]
  have hrest : |m * u * (a - (1 - s))| ≤ u / 2 := by
    rw [abs_mul, abs_of_nonneg (by positivity)]
    have : (m : ℝ) * u * |a - (1 - s)| ≤ 2 ^ 24 * u * (1 / 2 ^ 25) :=
      mul_le_mul (mul_le_mul_of_nonneg_right hm' hu0.le) ha (abs_nonneg _) (by positivity)
    norm_num at this ⊢
    linarith
  have hsum : |nearest (m * u * a) + nearest (m * u * s) - m * u| ≤ 5 / 4 * u := by
    have hsplit : nearest (m * u * a) + nearest (m * u * s) - m * u =
        (nearest (m * u * a) - m * u * a) + (nearest (m * u * s) - m * u * s) + m * u * (a - (1 - s)) := by ring
    rw [hsplit]
    refine (abs_add_three _ _ _).trans ?_
    linarith
  obtain ⟨hl, hr⟩ := abs_le.mp hsum
  have hup := nearest_mono (x := nearest (m * u * a) + nearest (m * u * s)) (y := (m + 5 / 4) * u) (by linarith)
  have hdown := nearest_mono (x := (m - 5 / 4) * u) (y := nearest (m * u * a) + nearest (m * u * s)) (by linarith)
  rw [hu, nearest_add_five_fourths hm hlow he.le, ← hu] at hup
  rw [hu, nearest_sub_five_fourths hm hlow he, ← hu] at hdown
  rw [selfBlend, ← haeq, ← hu, abs_le]
  constructor <;> linarith

/-! ### Two shares at which a number misses -/

/-- A little more than the least share that anything is taken off for. -/
noncomputable def lowShare : ℝ := 1 / 2 ^ 25 + 1 / 2 ^ 48

/-- A little more than three times as much. -/
noncomputable def highShare : ℝ := 3 / 2 ^ 25 + 1 / 2 ^ 47

/-- What lies less than half a unit above a canonical number rounds to it. -/
theorem nearest_eq_of_lt_half {y : ℝ} (n : ℕ) (f : ℤ) (δ : ℝ) (hy : y = (n + δ) * 2 ^ f) (hn : n < 2 ^ 24) (hlow : 2 ^ 23 ≤ n)
    (hf : -149 ≤ f) (h0 : 0 ≤ δ) (h1 : 2 * δ < 1) : nearest y = n * 2 ^ f := by
  rw [hy, nearest_above_eq_iff hn hf (Or.inl hlow) (by omega) h0]
  exact Or.inl h1

theorem nearest_one_sub_lowShare : nearest (1 - lowShare) = 1 - 1 / 2 ^ 24 := by
  rw [nearest_eq_of_lt_half (2 ^ 24 - 1) (-24) (1 / 2 - 1 / 2 ^ 24) (by norm_num [lowShare]) (by norm_num) (by norm_num)
    (by norm_num) (by norm_num) (by norm_num)]
  norm_num

theorem nearest_one_sub_highShare : nearest (1 - highShare) = 1 - 1 / 2 ^ 23 := by
  rw [nearest_eq_of_lt_half (2 ^ 24 - 2) (-24) (1 / 2 - 1 / 2 ^ 23) (by norm_num [highShare]) (by norm_num) (by norm_num)
    (by norm_num) (by norm_num) (by norm_num)]
  norm_num

/-- At the first share nearly every number that is no power of two comes back a unit less. -/
theorem selfBlend_lowShare (hm : m < 2 ^ 24) (hlow : 2 ^ 23 < m) (he : -100 ≤ e) (hne : m ≠ 2 ^ 24 - 2) :
    selfBlend (m * 2 ^ e) lowShare = (m - 1) * 2 ^ e := by
  obtain ⟨u, hu⟩ : ∃ u : ℝ, u = 2 ^ e := ⟨_, rfl⟩
  have hu0 : 0 < u := hu ▸ by positivity
  have hm1 : (m : ℝ) + 1 ≤ 2 ^ 24 := by exact_mod_cast hm
  have hm2 : (2 : ℝ) ^ 23 + 1 ≤ m := by exact_mod_cast hlow
  have hpred : ((m - 1 : ℕ) : ℝ) = m - 1 := by rw [Nat.cast_sub (by omega), Nat.cast_one]
  have hpow : ∀ j : ℤ, (2 : ℝ) ^ (e + j) = u * 2 ^ j := fun j => by rw [hu, zpow_add₀ (by norm_num)]
  have hleft : nearest (m * 2 ^ e * (1 - 1 / 2 ^ 24)) = (m - 1) * 2 ^ e := by
    rw [nearest_eq_of_lt_half (m - 1) e (1 - m / 2 ^ 24) (by rw [hpred]; ring) (by omega) (by omega) (by omega)
      (by linarith) (by linarith), hpred]
  have hright : ∃ q, nearest (m * 2 ^ e * lowShare) = q * 2 ^ e ∧ 0 ≤ q ∧ (2 * q < 1 ∨ (2 * q = 1 ∧ Even (m - 1))) := by
    have hnonneg : 0 ≤ nearest (m * 2 ^ e * lowShare) := nearest_nonneg (by unfold lowShare; positivity)
    refine ⟨nearest (m * 2 ^ e * lowShare) / 2 ^ e, by field_simp, by positivity, ?_⟩
    rcases (by omega : m ≤ 2 ^ 24 - 3 ∨ m = 2 ^ 24 - 1) with hsmall | rfl
    · left
      have hm3 : (m : ℝ) * u ≤ ((2 ^ 24 - 3 : ℕ) : ℝ) * u := mul_le_mul_of_nonneg_right (by exact_mod_cast hsmall) hu0.le
      have hgrid : Grid (((2 ^ 24 - 1 : ℤ) : ℝ) * 2 ^ (e + -25)) := ⟨2 ^ 24 - 1, e + -25, by norm_num, by omega, rfl⟩
      have hle : (m : ℝ) * 2 ^ e * lowShare ≤ ((2 ^ 24 - 1 : ℤ) : ℝ) * 2 ^ (e + -25) := by
        rw [hpow, ← hu]
        norm_num [lowShare] at hm3 ⊢
        linarith
      have hbound := hgrid.nearest_le hle
      rw [hpow, ← hu] at hbound
      rw [← hu, ← mul_div_assoc, div_lt_one hu0]
      norm_num at hbound ⊢
      linarith
    · right
      have hvalue : ((2 ^ 24 - 1 : ℕ) : ℝ) * 2 ^ e * lowShare = ((2 ^ 23 : ℕ) + (1 / 2 - 1 / 2 ^ 24)) * 2 ^ (e + -24) := by
        rw [hpow, ← hu]
        norm_num [lowShare]
        ring
      rw [nearest_eq_of_lt_half (2 ^ 23) (e + -24) (1 / 2 - 1 / 2 ^ 24) hvalue (by norm_num) le_rfl (by omega)
        (by norm_num) (by norm_num), hpow, ← hu]
      refine ⟨?_, by decide⟩
      field_simp
      norm_num
  obtain ⟨q, hq, hq0, hq1⟩ := hright
  have hsum : ((m : ℝ) - 1) * 2 ^ e + q * 2 ^ e = ((m - 1 : ℕ) + q) * 2 ^ e := by
    rw [hpred]
    ring
  rw [selfBlend, nearest_one_sub_lowShare, hleft, hq, hsum, ← hpred,
    nearest_above_eq_iff (by omega) (by omega) (Or.inl (by omega)) (by omega) hq0]
  exact hq1

/-- At the second share the one that is left does. -/
theorem selfBlend_highShare (he : -100 ≤ e) : selfBlend ((2 ^ 24 - 2 : ℕ) * 2 ^ e) highShare = ((2 ^ 24 - 2 : ℕ) - 1) * 2 ^ e := by
  have hpow : ∀ j : ℤ, (2 : ℝ) ^ (e + j) = 2 ^ e * 2 ^ j := fun j => zpow_add₀ (by norm_num) e j
  have hleft : nearest ((2 ^ 24 - 2 : ℕ) * 2 ^ e * (1 - 1 / 2 ^ 23)) = (2 ^ 24 - 4 : ℕ) * 2 ^ e :=
    nearest_eq_of_lt_half (2 ^ 24 - 4) e (1 / 2 ^ 22) (by norm_num; ring) (by norm_num) (by norm_num) (by omega) (by norm_num)
      (by norm_num)
  have hright : nearest ((2 ^ 24 - 2 : ℕ) * 2 ^ e * highShare) = (12582911 : ℕ) * 2 ^ (e + -23) :=
    nearest_eq_of_lt_half 12582911 (e + -23) (1 / 2 - 1 / 2 ^ 23) (by rw [hpow]; norm_num [highShare]; ring) (by norm_num)
      (by norm_num) (by omega) (by norm_num) (by norm_num)
  rw [selfBlend, nearest_one_sub_highShare, hleft, hright, hpow,
    nearest_eq_of_lt_half (2 ^ 24 - 3) e (1 / 2 - 1 / 2 ^ 23) (by norm_num; ring) (by norm_num) (by norm_num) (by omega)
      (by norm_num) (by norm_num)]
  norm_num

end Canonical

/-! ## Numbers that stay -/

/-- The number is very small, or a power of two. -/
def Steady (x : ℝ) : Prop := |x| ≤ 1 / 2 ^ 52 ∨ ∃ k : ℤ, |x| = 2 ^ k

section Steadiness

variable {s x : ℝ}

/-- Below a bound that is a power of two, a number is a power of two or has its last place well below. -/
theorem eq_or_le_of_le_two_zpow {m : ℕ} {j e : ℤ} (hlow : 2 ^ 23 ≤ m) (h : (m : ℝ) * 2 ^ e ≤ 2 ^ (23 + j)) :
    m = 2 ^ 23 ∨ (2 ^ 23 < m ∧ e + 1 ≤ j) := by
  rcases hlow.eq_or_lt with hm | hm
  · exact Or.inl hm.symm
  · refine Or.inr ⟨hm, ?_⟩
    have hm' : (2 : ℝ) ^ (23 : ℤ) < m := by exact_mod_cast hm
    have hlt : (2 : ℝ) ^ (23 + e) < 2 ^ (23 + j) := by
      refine lt_of_lt_of_le ?_ h
      rw [zpow_add₀ (by norm_num)]
      exact mul_lt_mul_of_pos_right hm' (by positivity)
    have := (zpow_lt_zpow_iff_right₀ (by norm_num)).mp hlt
    omega

theorem abs_selfBlend_sub_le_of_pos (hx : Steady x) (hg : Grid x) (hpos : 0 < x) (hs : Grid s) (h0 : 0 ≤ s) (h1 : s ≤ 1) :
    |selfBlend x s - x| ≤ 1 / 2 ^ 76 := by
  have htwo : ∀ k : ℤ, x = 2 ^ k → -101 ≤ k → |selfBlend x s - x| ≤ 1 / 2 ^ 76 := by
    intro k hk hlow
    rw [hk, selfBlend_two_zpow hs h0 h1 hlow, sub_self, abs_zero]
    positivity
  rcases le_or_gt x (1 / 2 ^ 54) with hsmall | hlarge
  · exact abs_selfBlend_sub_le_of_small h0 h1 (by rwa [abs_of_pos hpos])
  rw [Steady, abs_of_pos hpos] at hx
  rcases hx with hle | ⟨k, hk⟩
  · obtain ⟨m, e, hm, -, he, hlow, rfl⟩ := hg.exists_canonical hpos
    have he1 : -54 < 24 + e := lt_of_two_zpow_le hm ((by norm_num : (2 : ℝ) ^ (-54 : ℤ) = 1 / 2 ^ 54).trans_le hlarge.le)
    have hm23 : 2 ^ 23 ≤ m := hlow.resolve_right (by omega)
    rcases eq_or_le_of_le_two_zpow (j := -75) hm23 (hle.trans (le_of_eq (by norm_num))) with rfl | ⟨hmlt, he2⟩
    · refine htwo (23 + e) ?_ (by omega)
      rw [zpow_add₀ (by norm_num)]
      norm_num
    · refine (abs_selfBlend_sub_le hm hmlt (by omega) h0 h1).trans ?_
      refine (zpow_le_zpow_right₀ (by norm_num) (by omega : e ≤ -76)).trans (le_of_eq ?_)
      norm_num
  · refine htwo k hk ?_
    have hlt : (2 : ℝ) ^ (-54 : ℤ) < 2 ^ k := by
      rw [← hk]
      refine lt_of_eq_of_lt ?_ hlarge
      norm_num
    have := (zpow_lt_zpow_iff_right₀ (by norm_num)).mp hlt
    omega

/-- A very small number or a power of two, blended with itself, hardly moves. -/
theorem Steady.abs_selfBlend_sub_le (hx : Steady x) (hg : Grid x) (hs : Grid s) (h0 : 0 ≤ s) (h1 : s ≤ 1) :
    |selfBlend x s - x| ≤ 1 / 2 ^ 76 := by
  rcases lt_trichotomy x 0 with h | rfl | h
  · have hmirror := abs_selfBlend_sub_le_of_pos (x := -x) (by rwa [Steady, abs_neg]) hg.neg (neg_pos.mpr h) hs h0 h1
    rwa [selfBlend_neg, ← neg_sub', abs_neg] at hmirror
  · exact abs_selfBlend_sub_le_of_small h0 h1 (by rw [abs_zero]; positivity)
  · exact abs_selfBlend_sub_le_of_pos hx hg h hs h0 h1

/-- Any other number that is not small moves by a unit of its last place at one of the two shares. -/
theorem le_abs_selfBlend_sub (hg : Grid x) (hx : 1 / 2 ^ 51 < |x|) (hno : ∀ k : ℤ, |x| ≠ 2 ^ k) :
    1 / 2 ^ 74 ≤ |selfBlend x lowShare - x| ∨ 1 / 2 ^ 74 ≤ |selfBlend x highShare - x| := by
  have hpositive : ∀ {x : ℝ}, Grid x → 1 / 2 ^ 51 < x → (∀ k : ℤ, x ≠ 2 ^ k) →
      1 / 2 ^ 74 ≤ |selfBlend x lowShare - x| ∨ 1 / 2 ^ 74 ≤ |selfBlend x highShare - x| := by
    intro x hg hx hno
    obtain ⟨m, e, hm, -, -, hlow, rfl⟩ := hg.exists_canonical (lt_trans (by positivity) hx)
    have he1 : -51 < 24 + e := lt_of_two_zpow_le hm ((by norm_num : (2 : ℝ) ^ (-51 : ℤ) = 1 / 2 ^ 51).trans_le hx.le)
    have hm23 : 2 ^ 23 < m := by
      refine lt_of_le_of_ne (hlow.resolve_right (by omega)) ?_
      rintro rfl
      refine hno (23 + e) ?_
      rw [zpow_add₀ (by norm_num)]
      norm_num
    have hmiss : ∀ {y : ℝ}, y = (m - 1) * 2 ^ e → 1 / 2 ^ 74 ≤ |y - m * 2 ^ e| := by
      rintro y rfl
      rw [← sub_mul, sub_sub_cancel_left, neg_one_mul, abs_neg, abs_of_pos (by positivity)]
      refine le_trans (le_of_eq ?_) (zpow_le_zpow_right₀ (by norm_num) (by omega : (-74 : ℤ) ≤ e))
      norm_num
    by_cases hodd : m = 2 ^ 24 - 2
    · subst hodd
      exact Or.inr (hmiss (selfBlend_highShare (by omega)))
    · exact Or.inl (hmiss (selfBlend_lowShare hm hm23 (by omega) hodd))
  rcases abs_choice x with h | h
  · rw [h] at hx hno
    exact hpositive hg hx hno
  · rw [h] at hx hno
    have hmirror := hpositive hg.neg hx hno
    rwa [selfBlend_neg, selfBlend_neg, ← neg_sub', ← neg_sub', abs_neg, abs_neg] at hmirror

end Steadiness

/-! ## On numbers -/

section Numbers

variable {s x : Float32}

/-- What a number is blended with itself to is the real blend, rounded once more. -/
theorem rounded_selfBlend (hx : x.isFinite = true) (hs : Between 0 1 s) : Rounded (x * (1 - s) + x * s)
    (nearest (toReal x * nearest (1 - toReal s)) + nearest (toReal x * toReal s)) := by
  have hpart : ∀ {r : Float32}, Between 0 1 r → (x * r).isFinite = true ∧ toReal (x * r) = nearest (toReal x * toReal r) := by
    intro r hr
    have hround := rounded_mul hx hr.1
    have hle : |toReal x * toReal r| ≤ |toReal x| := by
      rw [abs_mul, abs_of_nonneg hr.2.1]
      exact mul_le_of_le_one_right (abs_nonneg _) hr.2.2
    have hmark := mark_abs_toReal x
    have hfin := (hround.between hmark.neg hmark (abs_le.mp hle).1 (abs_le.mp hle).2).1
    exact ⟨hfin, hround.toReal_eq hfin⟩
  have hrest : toReal (1 - s) = nearest (1 - toReal s) := by
    rw [(rounded_sub isFinite_one hs.1).toReal_eq hs.one_sub.1, toReal_one]
  obtain ⟨f1, v1⟩ := hpart hs.one_sub
  obtain ⟨f2, v2⟩ := hpart hs
  have h := rounded_add f1 f2
  rwa [v1, v2, hrest] at h

theorem Steady.abs_toReal_le (h : Steady (toReal x)) : |toReal x| ≤ 2 ^ 127 := by
  rcases h with h | ⟨k, hk⟩
  · exact h.trans (by norm_num)
  · have hlt : (2 : ℝ) ^ k < 2 ^ (128 : ℤ) := by
      rw [← hk]
      exact lt_of_le_of_lt (Binary32.abs_toReal_le x) (by norm_num [largest])
    have hk' := (zpow_lt_zpow_iff_right₀ (by norm_num)).mp hlt
    rw [hk, ← zpow_natCast]
    exact zpow_le_zpow_right₀ (by norm_num) (by omega)

/-- The number is none, or hardly off a real number. -/
def Held (x : ℝ) (z : Float32) : Prop := IsNaN z ∨ Near (1 / 2 ^ 76) z x

/-- A steady number blended with itself is held, by a share or by none. -/
theorem held_selfBlend (hx : x.isFinite = true) (hsteady : Steady (toReal x)) (hs : IsNaN s ∨ Between 0 1 s) :
    Held (toReal x) (x * (1 - s) + x * s) := by
  rcases hs with hs | hs
  · exact Or.inl hs.mul_right.add_right
  · right
    have hround := rounded_selfBlend hx hs
    have hnear := hsteady.abs_selfBlend_sub_le (grid_toReal x) (grid_toReal s) hs.2.1 hs.2.2
    have hle : |selfBlend (toReal x) (toReal s)| ≤ largest := by
      have h := abs_add_le (selfBlend (toReal x) (toReal s) - toReal x) (toReal x)
      rw [sub_add_cancel] at h
      refine h.trans ((add_le_add hnear hsteady.abs_toReal_le).trans ?_)
      norm_num [largest]
    obtain ⟨hfin, hval⟩ := hround.finite hle
    refine ⟨hfin, ?_⟩
    rw [hval]
    exact hnear

end Numbers

end Binary32

end Gait
