import Gait.Proofs.Binary32.Integers

/-!
# Ranges

A result stays within the numbers of the grid between which the exact result lies, and these need not be near. `Between` keeps a
lower and an upper bound, `Small` a power of two for the magnitude; each operation has one lemma for each, so that the range of a
formula is found by going through it once. `Exactly` is for numbers that are known to the last place, such as what is left of a
number after a product with zero or one.
-/

namespace Gait

namespace Binary32

/-- The number is finite and between the bounds. -/
def Between (lo hi : ℝ) (z : Float32) : Prop := z.isFinite = true ∧ lo ≤ toReal z ∧ toReal z ≤ hi

/-- The number is finite and of a magnitude of at most `2 ^ k`. -/
def Small (k : ℕ) (z : Float32) : Prop := z.isFinite = true ∧ |toReal z| ≤ 2 ^ k

/-- A bound that results do not cross: a number of the grid that is not too large. -/
def Mark (x : ℝ) : Prop := Grid x ∧ |x| ≤ largest

/-- The magnitude of a number is a bound. -/
theorem mark_abs_toReal (x : Float32) : Mark |toReal x| := by
  refine ⟨?_, by rw [abs_abs]; exact abs_toReal_le x⟩
  rcases abs_choice (toReal x) with h | h <;> rw [h]
  · exact grid_toReal x
  · exact (grid_toReal x).neg

theorem Mark.neg {x : ℝ} (h : Mark x) : Mark (-x) := ⟨h.1.neg, by rw [abs_neg]; exact h.2⟩

@[simp] theorem mark_zero : Mark 0 := ⟨grid_zero, by rw [abs_zero]; norm_num [largest]⟩

theorem mark_two_pow {k : ℕ} (h : k ≤ 127) : Mark (2 ^ k) := by
  refine ⟨by exact_mod_cast grid_two_zpow (e := k) (by omega), ?_⟩
  rw [abs_of_pos (by positivity)]
  exact (pow_le_pow_right₀ (by norm_num) h).trans two_pow_le_largest

/-- A short multiple of a power of two is a bound. -/
theorem mark_mul_two_pow {k j : ℕ} (hk : k ≤ 2 ^ 24) (hj : j ≤ 100) : Mark (k * 2 ^ j) := by
  have hk' : (k : ℝ) ≤ 2 ^ 24 := by exact_mod_cast hk
  refine ⟨⟨k, j, ?_, by omega, by push_cast; rw [zpow_natCast]⟩, ?_⟩
  · rw [abs_of_nonneg (by positivity)]
    exact_mod_cast hk
  · rw [abs_of_nonneg (by positivity)]
    calc (k : ℝ) * 2 ^ j ≤ 2 ^ 24 * 2 ^ 100 :=
          mul_le_mul hk' (pow_le_pow_right₀ (by norm_num) hj) (by positivity) (by positivity)
      _ ≤ 2 ^ 127 := by norm_num
      _ ≤ largest := two_pow_le_largest

/-- A short binary fraction is a bound. -/
theorem mark_div_two_pow {k : ℤ} {j : ℕ} (hk : |k| ≤ 2 ^ 24) (hj : j ≤ 149) : Mark (k / 2 ^ j) := by
  have hk' : |(k : ℝ)| ≤ 2 ^ 24 := by exact_mod_cast hk
  refine ⟨⟨k, -j, hk, by omega, by rw [zpow_neg, zpow_natCast, div_eq_mul_inv]⟩, ?_⟩
  rw [abs_div, abs_of_pos (by positivity : (0 : ℝ) < 2 ^ j)]
  calc |(k : ℝ)| / 2 ^ j ≤ |(k : ℝ)| := div_le_self (abs_nonneg _) (one_le_pow₀ (by norm_num))
    _ ≤ 2 ^ 24 := hk'
    _ ≤ largest := le_trans (by norm_num) two_pow_le_largest

theorem mark_of_eq {x : ℝ} (k : ℤ) (j : ℕ) (h : x = k / 2 ^ j) (hk : |k| ≤ 2 ^ 24) (hj : j ≤ 149) : Mark x := by
  rw [h]
  exact mark_div_two_pow hk hj

@[simp] theorem mark_one : Mark 1 := by
  have h := mark_two_pow (k := 0) (by norm_num)
  rwa [pow_zero] at h

theorem mark_inv_two_pow {j : ℕ} (h : j ≤ 149) : Mark (1 / 2 ^ j) := by
  have h := mark_div_two_pow (k := 1) (by norm_num) h
  rwa [Int.cast_one] at h

/-! ## Bounds on a rounded result -/

/-- A result stays between the bounds that the exact result is between. -/
theorem Rounded.between {z : Float32} {x lo hi : ℝ} (h : Rounded z x) (hlo : Mark lo) (hhi : Mark hi) (h1 : lo ≤ x)
    (h2 : x ≤ hi) : Between lo hi z := by
  have hn1 := hlo.1.le_nearest h1
  have hn2 := hhi.1.nearest_le h2
  have hsmall : |nearest x| ≤ largest :=
    abs_le.mpr ⟨(abs_le.mp hlo.2).1.trans hn1, hn2.trans (abs_le.mp hhi.2).2⟩
  obtain ⟨hfin, hval⟩ := h.finite hsmall
  refine ⟨hfin, ?_, ?_⟩ <;> rw [hval]
  · exact hn1
  · exact hn2

/-- The same of a result whose sign is left open. -/
theorem Rounded.between_of_sign {z : Float32} {x lo hi σ : ℝ} (h : Rounded z x) (hσ : σ = 1 ∨ σ = -1) (hlo : Mark lo)
    (hhi : Mark hi) (h1 : lo ≤ σ * x) (h2 : σ * x ≤ hi) :
    z.isFinite = true ∧ lo ≤ σ * toReal z ∧ σ * toReal z ≤ hi := by
  rcases hσ with rfl | rfl
  · obtain ⟨hfin, hl, hu⟩ := h.between hlo hhi (by linarith) (by linarith)
    exact ⟨hfin, by linarith, by linarith⟩
  · obtain ⟨hfin, hl, hu⟩ := h.between hhi.neg hlo.neg (by linarith) (by linarith)
    exact ⟨hfin, by linarith, by linarith⟩

theorem Rounded.small {z : Float32} {x : ℝ} {k : ℕ} (h : Rounded z x) (hk : k ≤ 127) (hx : |x| ≤ 2 ^ k) : Small k z := by
  obtain ⟨h1, h2⟩ := abs_le.mp hx
  obtain ⟨hfin, hlo, hhi⟩ := h.between (mark_two_pow hk).neg (mark_two_pow hk) h1 h2
  exact ⟨hfin, abs_le.mpr ⟨hlo, hhi⟩⟩

theorem Between.mono {lo lo' hi hi' : ℝ} {x : Float32} (h : Between lo hi x) (h1 : lo' ≤ lo) (h2 : hi ≤ hi') :
    Between lo' hi' x :=
  ⟨h.1, h1.trans h.2.1, h.2.2.trans h2⟩

theorem Small.mono {j k : ℕ} {x : Float32} (h : Small j x) (hjk : j ≤ k) : Small k x :=
  ⟨h.1, h.2.trans (pow_le_pow_right₀ (by norm_num) hjk)⟩

theorem Between.small {lo hi : ℝ} {x : Float32} {k : ℕ} (h : Between lo hi x) (h1 : -2 ^ k ≤ lo) (h2 : hi ≤ 2 ^ k) :
    Small k x :=
  ⟨h.1, abs_le.mpr ⟨h1.trans h.2.1, h.2.2.trans h2⟩⟩

theorem small_ofNat {n k : ℕ} (hn : n ≤ 2 ^ k) (hk : k ≤ 24) : Small k (Float32.ofNat n) := by
  obtain ⟨hfin, hval⟩ := float32_ofNat (hn.trans (Nat.pow_le_pow_right (by norm_num) hk))
  refine ⟨hfin, ?_⟩
  rw [hval, abs_of_nonneg (by positivity)]
  exact_mod_cast hn

theorem small_zero (k : ℕ) : Small k 0 := ⟨isFinite_zero, by rw [toReal_zero, abs_zero]; positivity⟩

theorem small_one (k : ℕ) : Small k 1 := ⟨isFinite_one, by rw [toReal_one, abs_one]; exact one_le_pow₀ (by norm_num)⟩

theorem between_zero : Between 0 1 0 := ⟨isFinite_zero, toReal_zero.ge, toReal_zero.le.trans zero_le_one⟩

theorem between_one : Between 0 1 1 := ⟨isFinite_one, zero_le_one.trans toReal_one.ge, toReal_one.le⟩

theorem pos_iff {x : Float32} (hx : x.isFinite = true) : 0 < x ↔ 0 < toReal x := by
  rw [lt_iff isFinite_zero hx, toReal_zero]

/-! ## Through the operations -/

section Operations

variable {x y : Float32} {a b c d lo hi : ℝ} {j k : ℕ}

theorem Between.add (hx : Between a b x) (hy : Between c d y) (hlo : Mark lo) (hhi : Mark hi) (h1 : lo ≤ a + c)
    (h2 : b + d ≤ hi) : Between lo hi (x + y) := by
  obtain ⟨fx, hax, hbx⟩ := hx
  obtain ⟨fy, hcy, hdy⟩ := hy
  exact (rounded_add fx fy).between hlo hhi (by linarith) (by linarith)

theorem Between.sub (hx : Between a b x) (hy : Between c d y) (hlo : Mark lo) (hhi : Mark hi) (h1 : lo ≤ a - d)
    (h2 : b - c ≤ hi) : Between lo hi (x - y) := by
  obtain ⟨fx, hax, hbx⟩ := hx
  obtain ⟨fy, hcy, hdy⟩ := hy
  exact (rounded_sub fx fy).between hlo hhi (by linarith) (by linarith)

/-- The product of numbers that are not negative. -/
theorem Between.mul (hx : Between a b x) (hy : Between c d y) (ha : 0 ≤ a) (hc : 0 ≤ c) (hlo : Mark lo) (hhi : Mark hi)
    (h1 : lo ≤ a * c) (h2 : b * d ≤ hi) : Between lo hi (x * y) := by
  obtain ⟨fx, hax, hbx⟩ := hx
  obtain ⟨fy, hcy, hdy⟩ := hy
  refine (rounded_mul fx fy).between hlo hhi (h1.trans ?_) (le_trans ?_ h2)
  · exact mul_le_mul hax hcy hc (ha.trans hax)
  · exact mul_le_mul hbx hdy (hc.trans hcy) (ha.trans (hax.trans hbx))

theorem Between.sqrt (hx : Between a b x) (ha : 0 ≤ a) (hlo : Mark lo) (hhi : Mark hi) (h0 : 0 ≤ hi)
    (h1 : lo ^ 2 ≤ a) (h2 : b ≤ hi ^ 2) : Between lo hi x.sqrt := by
  obtain ⟨fx, hax, hbx⟩ := hx
  refine (rounded_sqrt fx (ha.trans hax)).between hlo hhi ?_ ?_
  · exact Real.le_sqrt_of_sq_le (h1.trans hax)
  · exact (Real.sqrt_le_left h0).mpr (hbx.trans h2)

/-- The share that is left of a share. -/
theorem Between.one_sub (hx : Between 0 1 x) : Between 0 1 (1 - x) :=
  Between.sub (a := 1) (b := 1) ⟨isFinite_one, toReal_one.ge, toReal_one.le⟩ hx mark_zero mark_one (by norm_num) (by norm_num)

theorem Small.neg (hx : Small k x) : Small k (-x) := by
  refine ⟨by rw [neg_isFinite]; exact hx.1, ?_⟩
  rw [toReal_neg, abs_neg]
  exact hx.2

theorem Small.add (hx : Small k x) (hy : Small k y) (hk : k + 1 ≤ 127) : Small (k + 1) (x + y) := by
  refine (rounded_add hx.1 hy.1).small hk ?_
  have := abs_add_le (toReal x) (toReal y)
  rw [pow_succ]
  linarith [hx.2, hy.2]

theorem Small.sub (hx : Small k x) (hy : Small k y) (hk : k + 1 ≤ 127) : Small (k + 1) (x - y) := by
  refine (rounded_sub hx.1 hy.1).small hk ?_
  have := abs_sub (toReal x) (toReal y)
  rw [pow_succ]
  linarith [hx.2, hy.2]

theorem Small.mul (hx : Small j x) (hy : Small k y) (hk : j + k ≤ 127) : Small (j + k) (x * y) := by
  refine (rounded_mul hx.1 hy.1).small hk ?_
  rw [abs_mul, pow_add]
  exact mul_le_mul hx.2 hy.2 (abs_nonneg _) (by positivity)

/-- The quotient by a number that is not too close to zero. -/
theorem Small.div (hx : Small k x) (hy : y.isFinite = true) (h : (2 ^ j : ℝ)⁻¹ ≤ toReal y) (hk : k + j ≤ 127) :
    Small (k + j) (x / y) := by
  have hinv : (0 : ℝ) < (2 ^ j : ℝ)⁻¹ := by positivity
  have hy0 : 0 < toReal y := hinv.trans_le h
  refine (rounded_div hx.1 hy hy0.ne').small hk ?_
  rw [abs_div, abs_of_pos hy0, div_le_iff₀ hy0, pow_add]
  calc |toReal x| ≤ 2 ^ k := hx.2
    _ = 2 ^ k * 2 ^ j * (2 ^ j)⁻¹ := by field_simp
    _ ≤ 2 ^ k * 2 ^ j * toReal y := mul_le_mul_of_nonneg_left h (by positivity)

theorem Small.sqrt (hx : Small k x) (h0 : 0 ≤ toReal x) (hk : k ≤ 127) : Small k x.sqrt := by
  refine (rounded_sqrt hx.1 h0).small hk ?_
  rw [abs_of_nonneg (Real.sqrt_nonneg _), Real.sqrt_le_left (by positivity)]
  have hone : (1 : ℝ) ≤ 2 ^ k := one_le_pow₀ (by norm_num)
  calc toReal x ≤ 2 ^ k := (le_abs_self _).trans hx.2
    _ ≤ (2 ^ k) ^ 2 := le_self_pow₀ hone (by norm_num)

theorem Small.opposite (hx : Small k x) : Small k (x * -1) ∧ toReal (x * -1) = -toReal x := by
  have hround := rounded_mul hx.1 (by rw [neg_isFinite]; exact isFinite_one)
  rw [toReal_neg, toReal_one, mul_neg_one] at hround
  obtain ⟨hfin, hval⟩ := hround.exact (grid_toReal x).neg (by rw [abs_neg]; exact abs_toReal_le x)
  exact ⟨⟨hfin, by rw [hval, abs_neg]; exact hx.2⟩, hval⟩

/-- Adding what is not negative does not make less. -/
theorem le_toReal_add (hx : Small k x) (hy : Small k y) (hk : k + 1 ≤ 127) (h : 0 ≤ toReal y) :
    toReal x ≤ toReal (x + y) := by
  have hmark : Mark (toReal x) := ⟨grid_toReal x, abs_toReal_le x⟩
  refine ((rounded_add hx.1 hy.1).between hmark (mark_two_pow hk) (by linarith) ?_).2.1
  rw [pow_succ]
  linarith [(abs_le.mp hx.2).2, (abs_le.mp hy.2).2]

theorem le_toReal_add_right (hx : Small k x) (hy : Small k y) (hk : k + 1 ≤ 127) (h : 0 ≤ toReal x) :
    toReal y ≤ toReal (x + y) := by
  have hmark : Mark (toReal y) := ⟨grid_toReal y, abs_toReal_le y⟩
  refine ((rounded_add hx.1 hy.1).between hmark (mark_two_pow hk) (by linarith) ?_).2.1
  rw [pow_succ]
  linarith [(abs_le.mp hx.2).2, (abs_le.mp hy.2).2]

/-- The numbers about the largest one stand so far apart that what is of an ordinary size makes no difference to it. -/
theorem nearest_largest_add : nearest (largest + 2 ^ 64) = largest := by
  have hsum : largest + 2 ^ 64 = (((16777215 : ℕ) : ℝ) + 1 / 2 ^ 40) * 2 ^ (104 : ℤ) := by
    norm_num [largest]
  have hval : largest = ((16777215 : ℕ) : ℝ) * 2 ^ (104 : ℤ) := by
    norm_num [largest]
  rw [hsum, hval, nearest_above_eq_iff (by norm_num) (by norm_num) (Or.inl (by norm_num)) (by norm_num) (by norm_num)]
  left
  norm_num

/-- A difference with a number of ordinary size is finite however large the other number is. -/
theorem isFinite_sub_of_small (hx : x.isFinite = true) (hy : y.isFinite = true) (h : Small 64 x ∨ Small 64 y) :
    (x - y).isFinite = true := by
  have hsum : |toReal x - toReal y| ≤ largest + 2 ^ 64 := by
    have hsub := abs_sub (toReal x) (toReal y)
    rcases h with h | h
    · linarith [h.2, abs_toReal_le y]
    · linarith [h.2, abs_toReal_le x]
  obtain ⟨h1, h2⟩ := abs_le.mp hsum
  have hlo := nearest_mono h1
  have hhi := nearest_mono h2
  rw [nearest_neg, nearest_largest_add] at hlo
  rw [nearest_largest_add] at hhi
  exact ((rounded_sub hx hy).finite (abs_le.mpr ⟨hlo, hhi⟩)).1

end Operations

/-! ## Adding up -/

/-- The number is finite and of a magnitude that `n` terms of a magnitude of at most `2 ^ k` can have together. -/
def Total (k n : ℕ) (z : Float32) : Prop := z.isFinite = true ∧ |toReal z| ≤ n * 2 ^ k

section Totals

variable {j k n : ℕ} {x y : Float32}

theorem Total.add (hx : Total k n x) (hy : Small k y) (hn : n + 1 ≤ 2 ^ 24) (hk : k ≤ 100) : Total k (n + 1) (x + y) := by
  have habs := abs_add_le (toReal x) (toReal y)
  have hle : |toReal x + toReal y| ≤ ((n + 1 : ℕ) : ℝ) * 2 ^ k := by
    push_cast
    linarith [hx.2, hy.2]
  have hmark := mark_mul_two_pow hn hk
  obtain ⟨hfin, h1, h2⟩ := (rounded_add hx.1 hy.1).between hmark.neg hmark (abs_le.mp hle).1 (abs_le.mp hle).2
  exact ⟨hfin, abs_le.mpr ⟨h1, h2⟩⟩

theorem Total.small (h : Total k n x) (hn : n ≤ 2 ^ j) : Small (j + k) x := by
  have hn' : (n : ℝ) ≤ 2 ^ j := by exact_mod_cast hn
  refine ⟨h.1, h.2.trans ?_⟩
  rw [pow_add]
  exact mul_le_mul_of_nonneg_right hn' (by positivity)

end Totals

/-! ## Squares and roots -/

section Roots

variable {k : ℕ} {c d : Float32}

theorem toReal_mul_self_nonneg (hc : Small k c) (hk : k ≤ 60) : 0 ≤ toReal (c * c) := by
  have hsq : toReal c * toReal c ≤ 2 ^ (k + k) := by
    rw [← abs_mul_abs_self, pow_add]
    exact mul_le_mul hc.2 hc.2 (abs_nonneg _) (by positivity)
  exact ((rounded_mul hc.1 hc.1).between mark_zero (mark_two_pow (by omega)) (mul_self_nonneg _) hsq).2.1

/-- A rounded square root is more than half of the root. -/
theorem sqrt_le_two_mul (hd : Small 127 d) (h : 0 < toReal d) :
    d.sqrt.isFinite = true ∧ 0 < toReal d.sqrt ∧ √(toReal d) ≤ 2 * toReal d.sqrt := by
  have hroot := rounded_sqrt hd.1 h.le
  have hsmall := hd.sqrt h.le le_rfl
  have hmark : Mark (toReal d) := ⟨grid_toReal d, abs_toReal_le d⟩
  have hle : √(toReal d) ≤ 2 ^ 127 := by
    rw [Real.sqrt_le_left (by positivity)]
    exact ((le_abs_self _).trans hd.2).trans (le_self_pow₀ (one_le_pow₀ (by norm_num)) (by norm_num))
  have hpos : 0 < toReal d.sqrt := by
    rcases le_total (toReal d) 1 with h1 | h1
    · refine h.trans_le (hroot.between hmark (mark_two_pow le_rfl) ?_ hle).2.1
      exact Real.le_sqrt_of_sq_le (by nlinarith)
    · refine one_pos.trans_le (hroot.between mark_one (mark_two_pow le_rfl) ?_ hle).2.1
      exact Real.le_sqrt_of_sq_le (by linarith)
  refine ⟨hsmall.1, hpos, ?_⟩
  by_contra hlt
  -- twice the result is a number below the root, and so it is not above the result
  have htwice := (grid_toReal d.sqrt).two_mul.le_nearest (not_le.mp hlt).le
  rw [← hroot.toReal_eq hsmall.1] at htwice
  linarith

/-- A component divided by the root of a sum that its square went into. -/
theorem small_div_sqrt (hc : Small k c) (hk : k ≤ 60) (hd : Small 127 d) (h : 0 < toReal d)
    (hle : toReal (c * c) ≤ toReal d) : Small 2 (c / d.sqrt) := by
  obtain ⟨hfin, hpos, hroot⟩ := sqrt_le_two_mul hd h
  have hsq : toReal c ^ 2 ≤ 2 * toReal d := by
    by_contra hlt
    have htwice := (grid_toReal d).two_mul.le_nearest (not_le.mp hlt).le
    rw [pow_two, ← (rounded_mul hc.1 hc.1).toReal_eq (hc.mul hc (by omega)).1] at htwice
    linarith
  have hsqrt : toReal d = √(toReal d) ^ 2 := (Real.sq_sqrt h.le).symm
  have habs : |toReal c| ≤ 4 * toReal d.sqrt := by
    refine abs_le_of_sq_le_sq ?_ (by linarith)
    nlinarith [Real.sqrt_nonneg (toReal d)]
  refine (rounded_div hc.1 hfin hpos.ne').small (by norm_num) ?_
  rw [abs_div, abs_of_pos hpos, div_le_iff₀ hpos]
  linarith

/-- A number whose square is one is not very large. -/
theorem small_of_isFinite_mul_self (h : (c * c).isFinite = true) (hc : c.isFinite = true) : Small 64 c := by
  refine ⟨hc, ?_⟩
  by_contra hlt
  have hsq : (2 : ℝ) ^ 128 ≤ toReal c * toReal c := by
    rw [← abs_mul_abs_self]
    nlinarith [not_le.mp hlt]
  have hgrid : Grid (2 ^ 128) := by exact_mod_cast grid_two_zpow (e := 128) (by norm_num)
  have hlarge := hgrid.le_nearest hsq
  rw [← (rounded_mul hc hc).toReal_eq h] at hlarge
  have hle := (le_abs_self _).trans (abs_toReal_le (c * c))
  norm_num [largest] at hle
  linarith

theorem small_sqrt (hd : d.isFinite = true) (h : 0 ≤ toReal d) : Small 64 d.sqrt := by
  refine (rounded_sqrt hd h).small (by norm_num) ?_
  rw [abs_of_nonneg (Real.sqrt_nonneg _), Real.sqrt_le_left (by positivity)]
  have hle := (le_abs_self _).trans (abs_toReal_le d)
  exact hle.trans (by norm_num [largest])

end Roots

/-! ## Exact results -/

section Exact

variable {r : ℝ} {x y z : Float32}

/-- The number is finite and stands for the real number. -/
def Exactly (r : ℝ) (x : Float32) : Prop := x.isFinite = true ∧ toReal x = r

theorem exactly_zero : Exactly 0 0 := ⟨isFinite_zero, toReal_zero⟩

theorem exactly_one : Exactly 1 1 := ⟨isFinite_one, toReal_one⟩

theorem Exactly.mark (h : Exactly r x) : Mark r := by
  rw [← h.2]
  exact ⟨grid_toReal x, abs_toReal_le x⟩

/-- What is rounded from a number's value is a number of that value. -/
theorem Exactly.of_rounded (hx : Exactly r x) (hz : Rounded z r) : Exactly r z := hz.exact hx.mark.1 hx.mark.2

/-- A sum of exact values is exact where a number stands for it. -/
theorem Exactly.add {t : ℝ} (hx : Exactly r x) (hy : Exactly t y) (h : Mark (r + t)) : Exactly (r + t) (x + y) := by
  have hround := rounded_add hx.1 hy.1
  rw [hx.2, hy.2] at hround
  exact hround.exact h.1 h.2

theorem Exactly.add_of_zero (hx : Exactly r x) (hy : Exactly 0 y) : Exactly r (x + y) := by
  have hsum := hx.add hy (by rw [add_zero]; exact hx.mark)
  rwa [add_zero] at hsum

theorem Exactly.zero_add (hx : Exactly 0 x) (hy : Exactly r y) : Exactly r (x + y) := by
  have hsum := hx.add hy (by rw [AddZeroClass.zero_add]; exact hy.mark)
  rwa [AddZeroClass.zero_add] at hsum

theorem Exactly.sub_of_zero (hx : Exactly r x) (hy : Exactly 0 y) : Exactly r (x - y) := by
  have hround := rounded_sub hx.1 hy.1
  rw [hx.2, hy.2, sub_zero] at hround
  exact hx.of_rounded hround

/-- A number taken away from itself leaves nothing. -/
theorem exactly_sub_self (hx : x.isFinite = true) : Exactly 0 (x - x) := by
  have hround := rounded_sub hx hx
  rw [sub_self] at hround
  exact exactly_zero.of_rounded hround

theorem Exactly.mul_of_zero (hx : x.isFinite = true) (hy : Exactly 0 y) : Exactly 0 (x * y) := by
  have hround := rounded_mul hx hy.1
  rw [hy.2, mul_zero] at hround
  exact exactly_zero.of_rounded hround

theorem Exactly.mul_of_one (hx : Exactly r x) (hy : Exactly 1 y) : Exactly r (x * y) := by
  have hround := rounded_mul hx.1 hy.1
  rw [hx.2, hy.2, mul_one] at hround
  exact hx.of_rounded hround

end Exact

end Binary32

end Gait
