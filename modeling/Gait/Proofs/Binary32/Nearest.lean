import Mathlib

/-!
# The nearest binary32 number

What rounding does to a real number, said without bits: the number is measured in units of its last place, the measure is
rounded to an integer, a half going to the even one, and no account is taken of the largest binary32 number. `Grid` is the set of
results. Rounding is monotone and leaves the grid alone, so it keeps a number on its side of every number of the grid; nearly all
that the later modules know of rounding is drawn from these two facts.
-/

namespace Gait

namespace Binary32

-- with a proof that has a name, the numeral two of the real numbers is one and the same term in all modules
instance two_atLeastTwo : Nat.AtLeastTwo 2 := ⟨le_rfl⟩

/-! ## Rounding to an integer -/

/-- The integer nearest to a real number, a half going to the even one. -/
noncomputable def halfEven (x : ℝ) : ℤ :=
  if 2 * Int.fract x < 1 then ⌊x⌋ else if 1 < 2 * Int.fract x then ⌊x⌋ + 1 else ⌊x⌋ + ⌊x⌋ % 2

/-- An integer is nearest to a number if it is less than a half away, or half away and even. -/
def IsHalfEven (x : ℝ) (k : ℤ) : Prop := 2 * |x - k| < 1 ∨ (2 * |x - k| = 1 ∧ Even k)

/-- The integer `halfEven` gives is nearest. -/
theorem isHalfEven_halfEven (x : ℝ) : IsHalfEven x (halfEven x) := by
  have hx : x - ⌊x⌋ = Int.fract x := Int.self_sub_floor x
  have h0 := Int.fract_nonneg x
  have h1 := Int.fract_lt_one x
  unfold halfEven IsHalfEven
  split_ifs with hlt hgt
  · left
    rw [hx, abs_of_nonneg h0]
    exact hlt
  · left
    push_cast
    rw [← sub_sub, hx, abs_of_neg (by linarith)]
    linarith
  · right
    have hhalf : 2 * Int.fract x = 1 := le_antisymm (not_lt.mp hgt) (not_lt.mp hlt)
    refine ⟨?_, ?_⟩
    · rcases Int.emod_two_eq_zero_or_one ⌊x⌋ with h | h
      · rw [h, add_zero, hx, abs_of_nonneg h0, hhalf]
      · rw [h]
        push_cast
        rw [← sub_sub, hx, abs_of_neg (by linarith)]
        linarith
    · rw [Int.even_iff]
      omega

/-- Of two numbers in order the nearest integers are in order, unless both lie half way between these two. -/
theorem IsHalfEven.le {x y : ℝ} {k l : ℤ} (hk : IsHalfEven x k) (hl : IsHalfEven y l) (h : x ≤ y) : k ≤ l := by
  by_contra hlt
  have hstep : l + 1 ≤ k := by omega
  have hstep' : (l : ℝ) + 1 ≤ k := by exact_mod_cast hstep
  have hx : 2 * |x - k| ≤ 1 := by rcases hk with hk | hk <;> linarith
  have hy : 2 * |y - l| ≤ 1 := by rcases hl with hl | hl <;> linarith
  have hx' := neg_abs_le (x - k)
  have hy' := le_abs_self (y - l)
  have hkx : 2 * |x - k| = 1 := by linarith
  have hly : 2 * |y - l| = 1 := by linarith
  have hkl : (k : ℝ) = l + 1 := by linarith
  have hkl' : k = l + 1 := by exact_mod_cast hkl
  -- two neighbours cannot both be even
  have hek : Even k := by
    rcases hk with hk | hk
    · linarith
    · exact hk.2
  have hel : Even l := by
    rcases hl with hl | hl
    · linarith
    · exact hl.2
  rw [hkl'] at hek
  exact (Int.even_add_one.mp hek) hel

/-- There is one nearest integer. -/
theorem halfEven_eq_iff {x : ℝ} {k : ℤ} : halfEven x = k ↔ IsHalfEven x k := by
  constructor
  · rintro rfl
    exact isHalfEven_halfEven x
  · intro h
    exact le_antisymm ((isHalfEven_halfEven x).le h le_rfl) (h.le (isHalfEven_halfEven x) le_rfl)

theorem halfEven_mono {x y : ℝ} (h : x ≤ y) : halfEven x ≤ halfEven y :=
  (isHalfEven_halfEven x).le (isHalfEven_halfEven y) h

@[simp] theorem halfEven_intCast (k : ℤ) : halfEven k = k := by
  rw [halfEven_eq_iff]
  left
  simp

@[simp] theorem halfEven_zero : halfEven 0 = 0 := by
  simpa using halfEven_intCast 0

/-- Rounding does not look at the sign. -/
theorem halfEven_neg (x : ℝ) : halfEven (-x) = -halfEven x := by
  have h : |-x - ((-halfEven x : ℤ) : ℝ)| = |x - halfEven x| := by
    rw [← abs_neg (x - halfEven x)]
    congr 1
    push_cast
    ring
  rw [halfEven_eq_iff, IsHalfEven, h, even_neg]
  exact isHalfEven_halfEven x

/-! ## Rounding to a binary32 number -/

/-- The exponent of the last place of a number: twenty-three below that of its leading bit, but not below the least there is. -/
noncomputable def ulpExp (x : ℝ) : ℤ := max (Int.log 2 |x| - 23) (-149)

/-- The binary32 number nearest to a real number, if there were no largest one. -/
noncomputable def nearest (x : ℝ) : ℝ := halfEven (x / 2 ^ ulpExp x) * 2 ^ ulpExp x

/-- The numbers with a binary32 mantissa and an exponent that is not too small. -/
def Grid (x : ℝ) : Prop := ∃ k e : ℤ, |k| ≤ 2 ^ 24 ∧ -149 ≤ e ∧ x = k * 2 ^ e

theorem ulpExp_neg (x : ℝ) : ulpExp (-x) = ulpExp x := by
  rw [ulpExp, ulpExp, abs_neg]

theorem le_ulpExp (x : ℝ) : -149 ≤ ulpExp x := le_max_right _ _

theorem ulpExp_mono {x y : ℝ} (h0 : 0 < x) (h : x ≤ y) : ulpExp x ≤ ulpExp y := by
  unfold ulpExp
  rw [abs_of_pos h0, abs_of_pos (h0.trans_le h)]
  have hlog : Int.log 2 x ≤ Int.log 2 y := Int.log_mono_right h0 h
  omega

/-- The mantissa of a number in units of its last place has at most twenty-four bits. -/
theorem lt_two_zpow_ulpExp (x : ℝ) : |x| < 2 ^ (ulpExp x + 24) := by
  have h : |x| < (2 : ℝ) ^ (Int.log 2 |x| + 1) := by exact_mod_cast Int.lt_zpow_succ_log_self (by norm_num) |x|
  refine h.trans_le (zpow_le_zpow_right₀ (by norm_num) ?_)
  unfold ulpExp
  omega

/-- Unless the exponent is the least, it has exactly twenty-four bits. -/
theorem two_zpow_ulpExp_le {x : ℝ} (hx : x ≠ 0) (h : -149 < ulpExp x) : (2 : ℝ) ^ (ulpExp x + 23) ≤ |x| := by
  have hlog : (2 : ℝ) ^ Int.log 2 |x| ≤ |x| := by
    exact_mod_cast Int.zpow_log_le_self (by norm_num) (abs_pos.mpr hx)
  have he : ulpExp x + 23 = Int.log 2 |x| := by
    unfold ulpExp at h ⊢
    omega
  rw [he]
  exact hlog

/-- The exponent of the last place, from the two powers of two that the number lies between. -/
theorem ulpExp_eq {x : ℝ} {e : ℤ} (he : -149 ≤ e) (hlo : (2 : ℝ) ^ (e + 23) ≤ |x| ∨ (e = -149 ∧ x ≠ 0))
    (hhi : |x| < 2 ^ (e + 24)) : ulpExp x = e := by
  have hpos : 0 < |x| := by
    rcases hlo with h | h
    · exact lt_of_lt_of_le (by positivity) h
    · exact abs_pos.mpr h.2
  have hlt : Int.log 2 |x| < e + 24 := (Int.lt_zpow_iff_log_lt (by norm_num) hpos).mp (by exact_mod_cast hhi)
  unfold ulpExp
  rcases hlo with h | h
  · have hle : e + 23 ≤ Int.log 2 |x| := (Int.zpow_le_iff_le_log (by norm_num) hpos).mp (by exact_mod_cast h)
    omega
  · omega

@[simp] theorem nearest_zero : nearest 0 = 0 := by
  simp [nearest]

theorem nearest_neg (x : ℝ) : nearest (-x) = -nearest x := by
  unfold nearest
  rw [ulpExp_neg, neg_div, halfEven_neg]
  push_cast
  ring

theorem nearest_nonneg {x : ℝ} (h : 0 ≤ x) : 0 ≤ nearest x := by
  have hk : 0 ≤ halfEven (x / 2 ^ ulpExp x) := by
    rw [← halfEven_zero]
    exact halfEven_mono (by positivity)
  have hk' : (0 : ℝ) ≤ halfEven (x / 2 ^ ulpExp x) := by exact_mod_cast hk
  unfold nearest
  positivity

/-- The rounded mantissa of a number that is not negative has twenty-four bits, or is the next power of two. -/
theorem halfEven_div_le {x : ℝ} (h : 0 ≤ x) : halfEven (x / 2 ^ ulpExp x) ≤ 2 ^ 24 := by
  have hlt := lt_two_zpow_ulpExp x
  rw [abs_of_nonneg h, zpow_add₀ (by norm_num)] at hlt
  have hle : x / 2 ^ ulpExp x ≤ ((2 ^ 24 : ℤ) : ℝ) := by
    rw [div_le_iff₀ (by positivity)]
    push_cast
    linarith
  have h := halfEven_mono hle
  rwa [halfEven_intCast] at h

/-- Rounding goes up at most to the next power of two. -/
theorem nearest_le_two_zpow {x : ℝ} (h : 0 ≤ x) : nearest x ≤ 2 ^ (ulpExp x + 24) := by
  have hk : (halfEven (x / 2 ^ ulpExp x) : ℝ) ≤ 2 ^ 24 := by exact_mod_cast halfEven_div_le h
  unfold nearest
  rw [zpow_add₀ (by norm_num), mul_comm]
  exact mul_le_mul_of_nonneg_left (by exact_mod_cast hk) (by positivity)

/-- The rounded mantissa of a positive number has twenty-four bits, unless the exponent is the least. -/
theorem le_halfEven_div {x : ℝ} (h : 0 < x) (he : -149 < ulpExp x) : 2 ^ 23 ≤ halfEven (x / 2 ^ ulpExp x) := by
  have hle := two_zpow_ulpExp_le h.ne' he
  rw [abs_of_pos h, zpow_add₀ (by norm_num)] at hle
  have hk : ((2 ^ 23 : ℤ) : ℝ) ≤ x / 2 ^ ulpExp x := by
    rw [le_div_iff₀ (by positivity)]
    push_cast
    exact_mod_cast (mul_comm _ _).trans_le hle
  have hk' := halfEven_mono hk
  rwa [halfEven_intCast] at hk'

/-- Rounding goes down at most to the leading power of two. -/
theorem two_zpow_le_nearest {x : ℝ} (h : 0 < x) (he : -149 < ulpExp x) : (2 : ℝ) ^ (ulpExp x + 23) ≤ nearest x := by
  have hk : (2 : ℝ) ^ 23 ≤ halfEven (x / 2 ^ ulpExp x) := by exact_mod_cast le_halfEven_div h he
  unfold nearest
  rw [zpow_add₀ (by norm_num), mul_comm]
  exact mul_le_mul_of_nonneg_right (by exact_mod_cast hk) (by positivity)

/-- Rounding keeps the order of positive numbers: with equal exponents it is that of integers, and otherwise a power of two lies
between the two. -/
theorem nearest_mono_of_pos {x y : ℝ} (h0 : 0 < x) (h : x ≤ y) : nearest x ≤ nearest y := by
  have hexp := ulpExp_mono h0 h
  rcases hexp.eq_or_lt with he | he
  · unfold nearest
    rw [he]
    have hk : halfEven (x / 2 ^ ulpExp y) ≤ halfEven (y / 2 ^ ulpExp y) :=
      halfEven_mono (div_le_div_of_nonneg_right h (by positivity))
    exact mul_le_mul_of_nonneg_right (by exact_mod_cast hk) (by positivity)
  · have hlow := le_ulpExp x
    calc nearest x ≤ 2 ^ (ulpExp x + 24) := nearest_le_two_zpow h0.le
      _ ≤ 2 ^ (ulpExp y + 23) := zpow_le_zpow_right₀ (by norm_num) (by omega)
      _ ≤ nearest y := two_zpow_le_nearest (h0.trans_le h) (by omega)

/-- Rounding keeps the order. -/
theorem nearest_mono {x y : ℝ} (h : x ≤ y) : nearest x ≤ nearest y := by
  rcases lt_or_ge 0 x with hx | hx
  · exact nearest_mono_of_pos hx h
  · have hx' : nearest x ≤ 0 := by
      have := nearest_nonneg (neg_nonneg.mpr hx)
      rw [nearest_neg] at this
      linarith
    rcases le_or_gt 0 y with hy | hy
    · exact hx'.trans (nearest_nonneg hy)
    · have hneg := nearest_mono_of_pos (neg_pos.mpr hy) (neg_le_neg h)
      rw [nearest_neg, nearest_neg] at hneg
      linarith

/-! ## The grid -/

@[simp] theorem grid_zero : Grid 0 := ⟨0, 0, by norm_num, by norm_num, by norm_num⟩

theorem Grid.neg {x : ℝ} (h : Grid x) : Grid (-x) := by
  obtain ⟨k, e, hk, he, rfl⟩ := h
  exact ⟨-k, e, by rwa [abs_neg], he, by push_cast; ring⟩

theorem grid_natCast {n : ℕ} (h : n ≤ 2 ^ 24) : Grid n := by
  refine ⟨n, 0, ?_, by norm_num, by simp⟩
  rw [abs_of_nonneg (by positivity)]
  exact_mod_cast h

theorem grid_two_zpow {e : ℤ} (h : -149 ≤ e) : Grid (2 ^ e) := ⟨1, e, by norm_num, h, by norm_num⟩

theorem Grid.two_mul {x : ℝ} (h : Grid x) : Grid (2 * x) := by
  obtain ⟨k, e, hk, he, rfl⟩ := h
  exact ⟨k, e + 1, hk, by omega, by rw [zpow_add_one₀ (by norm_num)]; ring⟩

/-- The mantissa of a number of the grid can be kept below twenty-five bits strictly. -/
theorem Grid.exists_lt {x : ℝ} (h : Grid x) : ∃ k e : ℤ, |k| < 2 ^ 24 ∧ -149 ≤ e ∧ x = k * 2 ^ e := by
  obtain ⟨k, e, hk, he, rfl⟩ := h
  rcases hk.lt_or_eq with hlt | heq
  · exact ⟨k, e, hlt, he, rfl⟩
  · refine ⟨k / 2, e + 1, ?_, by omega, ?_⟩
    · rcases abs_choice k with hc | hc <;> rw [hc] at heq <;> rw [abs_lt] <;> constructor <;> omega
    · have heven : k = k / 2 * 2 := by rcases abs_choice k with hc | hc <;> rw [hc] at heq <;> omega
      have heven' : (k : ℝ) = ((k / 2 : ℤ) : ℝ) * 2 := by exact_mod_cast heven
      rw [zpow_add_one₀ (by norm_num), ← mul_assoc, mul_right_comm, ← heven']

/-- Rounding gives numbers of the grid. -/
theorem grid_nearest (x : ℝ) : Grid (nearest x) := by
  have hnonneg : ∀ {y : ℝ}, 0 ≤ y → Grid (nearest y) := by
    intro y hy
    have hk : 0 ≤ halfEven (y / 2 ^ ulpExp y) := by
      rw [← halfEven_zero]
      exact halfEven_mono (by positivity)
    exact ⟨_, _, by rw [abs_of_nonneg hk]; exact halfEven_div_le hy, le_ulpExp y, rfl⟩
  rcases le_total 0 x with h | h
  · exact hnonneg h
  · have hneg := (hnonneg (neg_nonneg.mpr h)).neg
    rwa [nearest_neg, neg_neg] at hneg

/-- Rounding leaves the grid alone. -/
theorem Grid.nearest_eq {x : ℝ} (h : Grid x) : nearest x = x := by
  obtain ⟨k, e, hk, he, rfl⟩ := h.exists_lt
  rcases eq_or_ne k 0 with rfl | hk0
  · simp
  · -- the last place of the number is not above the exponent `e`, so the mantissa is an integer there too
    have hne : (k : ℝ) * 2 ^ e ≠ 0 := by positivity
    have hexp : ulpExp (k * 2 ^ e) ≤ e := by
      have hlt : |(k : ℝ) * 2 ^ e| < 2 ^ (24 + e) := by
        rw [abs_mul, abs_of_pos (by positivity : (0 : ℝ) < 2 ^ e), zpow_add₀ (by norm_num)]
        have hk' : |(k : ℝ)| < 2 ^ 24 := by exact_mod_cast hk
        exact mul_lt_mul_of_pos_right (by exact_mod_cast hk') (by positivity)
      have hlog : Int.log 2 |(k : ℝ) * 2 ^ e| < 24 + e :=
        (Int.lt_zpow_iff_log_lt (by norm_num) (abs_pos.mpr hne)).mp (by exact_mod_cast hlt)
      unfold ulpExp
      omega
    obtain ⟨n, hn⟩ := Int.eq_ofNat_of_zero_le (sub_nonneg.mpr hexp)
    have hsplit : (2 : ℝ) ^ e = 2 ^ n * 2 ^ ulpExp (k * 2 ^ e) := by
      rw [← zpow_natCast, ← hn, ← zpow_add₀ (by norm_num), sub_add_cancel]
    have hdiv : (k : ℝ) * 2 ^ e / 2 ^ ulpExp (k * 2 ^ e) = ((k * 2 ^ n : ℤ) : ℝ) := by
      rw [div_eq_iff (by positivity)]
      push_cast
      rw [mul_assoc, ← hsplit]
    unfold nearest
    rw [hdiv, halfEven_intCast]
    push_cast
    rw [mul_assoc, ← hsplit]

/-- Rounding does not cross a number of the grid from above. -/
theorem Grid.le_nearest {x y : ℝ} (hx : Grid x) (h : x ≤ y) : x ≤ nearest y := by
  rw [← hx.nearest_eq]
  exact nearest_mono h

/-- Rounding does not cross a number of the grid from below. -/
theorem Grid.nearest_le {x y : ℝ} (hy : Grid y) (h : x ≤ y) : nearest x ≤ y := by
  rw [← hy.nearest_eq]
  exact nearest_mono h

/-! ## The numbers that round to a given one -/

/-- A number that is rounded in units of `2 ^ e` rounds to the multiple of it that is nearest. -/
theorem nearest_eq_iff_of_ulpExp {y : ℝ} {e k : ℤ} (h : ulpExp y = e) :
    nearest y = k * 2 ^ e ↔ IsHalfEven (y / 2 ^ e) k := by
  have hpow : (2 : ℝ) ^ e ≠ 0 := by positivity
  rw [← halfEven_eq_iff, nearest, h]
  constructor
  · intro heq
    exact_mod_cast mul_right_cancel₀ hpow heq
  · rintro rfl
    rfl

section Cell

variable {m : ℕ} {e : ℤ} {δ : ℝ}

/-- At a distance of less than a unit above a canonical number, or below one that is no power of two, the exponent is the same. -/
theorem ulpExp_add_mul (hlt : (m : ℝ) + δ < 2 ^ 24) (he : -149 ≤ e)
    (hlow : 2 ^ 23 ≤ (m : ℝ) + δ ∨ (e = -149 ∧ 0 < (m : ℝ) + δ)) : ulpExp ((m + δ) * 2 ^ e) = e := by
  have hpow : (0 : ℝ) < 2 ^ e := by positivity
  have hpos : 0 < (m : ℝ) + δ := by
    rcases hlow with h | h
    · exact lt_of_lt_of_le (by norm_num) h
    · exact h.2
  have habs : |((m : ℝ) + δ) * 2 ^ e| = (m + δ) * 2 ^ e := abs_of_pos (mul_pos hpos hpow)
  apply ulpExp_eq he
  · rw [habs]
    rcases hlow with h | h
    · left
      rw [zpow_add₀ (by norm_num), mul_comm]
      exact mul_le_mul_of_nonneg_right (by exact_mod_cast h) hpow.le
    · exact Or.inr ⟨h.1, by positivity⟩
  · rw [habs, zpow_add₀ (by norm_num), mul_comm]
    exact mul_lt_mul_of_pos_left (by exact_mod_cast hlt) hpow

/-- What lies above a canonical number rounds to it up to half a unit of its last place. -/
theorem nearest_above_eq_iff (hm : m < 2 ^ 24) (he : -149 ≤ e) (hlow : 2 ^ 23 ≤ m ∨ e = -149) (hpos : 0 < m)
    (hδ : 0 ≤ δ) : nearest ((m + δ) * 2 ^ e) = m * 2 ^ e ↔ 2 * δ < 1 ∨ (2 * δ = 1 ∧ Even m) := by
  have hpow : (0 : ℝ) < 2 ^ e := by positivity
  have hm1 : (m : ℝ) + 1 ≤ 2 ^ 24 := by exact_mod_cast hm
  have hm0 : (0 : ℝ) < m := by exact_mod_cast hpos
  rcases lt_or_ge δ 1 with h1 | h1
  · have hexp : ulpExp ((m + δ) * 2 ^ e) = e := by
      refine ulpExp_add_mul (by linarith) he ?_
      rcases hlow with h | h
      · left
        have : (2 : ℝ) ^ 23 ≤ m := by exact_mod_cast h
        linarith
      · exact Or.inr ⟨h, by linarith⟩
    have hiff := nearest_eq_iff_of_ulpExp (k := m) hexp
    rw [Int.cast_natCast] at hiff
    rw [hiff, IsHalfEven, mul_div_cancel_right₀ _ hpow.ne', Int.cast_natCast, add_sub_cancel_left, abs_of_nonneg hδ,
      Int.even_coe_nat]
  · -- the next number of the grid is in between
    have hnext : Grid ((m + 1 : ℝ) * 2 ^ e) := ⟨m + 1, e, by rw [abs_of_nonneg (by positivity)]; exact_mod_cast hm, he, by
      push_cast; rfl⟩
    have hle : (m + 1 : ℝ) * 2 ^ e ≤ nearest ((m + δ) * 2 ^ e) :=
      hnext.le_nearest (mul_le_mul_of_nonneg_right (by linarith) hpow.le)
    constructor
    · intro h
      rw [h] at hle
      nlinarith
    · rintro (h | h)
      · linarith
      · linarith [h.1]

/-- What lies below a canonical number rounds to it down to half a unit of its last place, unless the number is a power of two. -/
theorem nearest_below_eq_iff (hm : m < 2 ^ 24) (he : -149 ≤ e) (hlow : 2 ^ 23 < m ∨ e = -149) (hpos : 0 < m)
    (hδ : 0 ≤ δ) : nearest ((m - δ) * 2 ^ e) = m * 2 ^ e ↔ 2 * δ < 1 ∨ (2 * δ = 1 ∧ Even m) := by
  have hpow : (0 : ℝ) < 2 ^ e := by positivity
  have hm1 : (m : ℝ) < 2 ^ 24 := by exact_mod_cast hm
  have hm0 : (1 : ℝ) ≤ m := by exact_mod_cast hpos
  rcases lt_or_ge δ 1 with h1 | h1
  · have hexp : ulpExp ((m + -δ) * 2 ^ e) = e := by
      refine ulpExp_add_mul (by linarith) he ?_
      rcases hlow with h | h
      · left
        have : (2 : ℝ) ^ 23 + 1 ≤ m := by exact_mod_cast h
        linarith
      · exact Or.inr ⟨h, by linarith⟩
    have hiff := nearest_eq_iff_of_ulpExp (k := m) hexp
    rw [Int.cast_natCast] at hiff
    rw [sub_eq_add_neg, hiff, IsHalfEven, mul_div_cancel_right₀ _ hpow.ne', Int.cast_natCast, add_sub_cancel_left, abs_neg,
      abs_of_nonneg hδ, Int.even_coe_nat]
  · have hprev : Grid ((m - 1 : ℝ) * 2 ^ e) := by
      refine ⟨m - 1, e, ?_, he, by push_cast; rfl⟩
      rw [abs_of_nonneg (by omega)]
      omega
    have hle : nearest ((m - δ) * 2 ^ e) ≤ (m - 1 : ℝ) * 2 ^ e :=
      hprev.nearest_le (mul_le_mul_of_nonneg_right (by linarith) hpow.le)
    constructor
    · intro h
      rw [h] at hle
      nlinarith
    · rintro (h | h)
      · linarith
      · linarith [h.1]

/-- Below a power of two the numbers stand twice as close, so it takes only what is up to a quarter of a unit away. -/
theorem nearest_below_two_zpow_eq_iff (he : -149 < e) (hδ : 0 ≤ δ) :
    nearest ((2 ^ 23 - δ) * 2 ^ e) = 2 ^ 23 * 2 ^ e ↔ 4 * δ ≤ 1 := by
  have hdouble : ((2 ^ 23 - δ) * 2 ^ e : ℝ) = (16777216 - 2 * δ) * 2 ^ (e - 1) := by
    rw [zpow_sub_one₀ (by norm_num)]
    ring
  have hdouble' : (2 ^ 23 * 2 ^ e : ℝ) = 16777216 * 2 ^ (e - 1) := by
    rw [zpow_sub_one₀ (by norm_num)]
    ring
  have hpow : (0 : ℝ) < 2 ^ (e - 1) := by positivity
  rw [hdouble, hdouble']
  rcases hδ.eq_or_lt with rfl | hδ
  · rw [mul_zero, sub_zero]
    have hgrid : Grid (16777216 * 2 ^ (e - 1)) := ⟨16777216, e - 1, by norm_num, by omega, by push_cast; rfl⟩
    simp [hgrid.nearest_eq]
  rcases lt_or_ge (2 * δ) 1 with h1 | h1
  · have hexp : ulpExp ((16777216 - 2 * δ) * 2 ^ (e - 1)) = e - 1 := by
      have h := ulpExp_add_mul (m := 16777216) (δ := -(2 * δ)) (e := e - 1) (by push_cast; linarith) (by omega)
        (Or.inl (by push_cast; linarith))
      push_cast at h
      rwa [← sub_eq_add_neg] at h
    have hiff := nearest_eq_iff_of_ulpExp (k := 16777216) hexp
    push_cast at hiff
    rw [hiff, IsHalfEven, mul_div_cancel_right₀ _ hpow.ne']
    push_cast
    rw [sub_sub_cancel_left, abs_neg, abs_of_pos (by linarith)]
    constructor
    · rintro (h | h)
      · linarith
      · linarith [h.1]
    · intro h
      rcases h.lt_or_eq with h | h
      · exact Or.inl (by linarith)
      · exact Or.inr ⟨by linarith, by decide⟩
  · have hprev : Grid (16777215 * 2 ^ (e - 1)) := ⟨16777215, e - 1, by norm_num, by omega, by push_cast; rfl⟩
    have hle : nearest ((16777216 - 2 * δ) * 2 ^ (e - 1)) ≤ 16777215 * 2 ^ (e - 1) :=
      hprev.nearest_le (mul_le_mul_of_nonneg_right (by linarith) hpow.le)
    constructor
    · intro h
      rw [h] at hle
      nlinarith
    · intro h
      linarith

end Cell

end Binary32

end Gait
