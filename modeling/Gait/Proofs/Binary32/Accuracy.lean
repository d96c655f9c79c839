import Gait.Proofs.Binary32.Range

/-!
# Accuracy

One rounding changes a number by at most the `2 ^ 24`-th part of it, and where the numbers stand no closer, by half the least
number. `Near` keeps a result within a distance of what it stands for; each operation has one lemma that adds its own rounding to
the distances of its operands.
-/

namespace Gait

namespace Binary32

/-- Rounding to an integer moves a number by at most a half. -/
theorem abs_halfEven_sub_le (x : ℝ) : |halfEven x - x| ≤ 1 / 2 := by
  rw [abs_sub_comm]
  rcases isHalfEven_halfEven x with h | h
  · linarith
  · linarith [h.1]

/-- Rounding moves a number by at most half a unit of its last place. -/
theorem abs_nearest_sub_le_ulp (x : ℝ) : |nearest x - x| ≤ 2 ^ ulpExp x / 2 := by
  have hpow : (0 : ℝ) < 2 ^ ulpExp x := by positivity
  have hsplit : nearest x - x = (halfEven (x / 2 ^ ulpExp x) - x / 2 ^ ulpExp x) * 2 ^ ulpExp x := by
    rw [nearest, sub_mul, div_mul_cancel₀ _ hpow.ne']
  rw [hsplit, abs_mul, abs_of_pos hpow]
  have hhalf := mul_le_mul_of_nonneg_right (abs_halfEven_sub_le (x / 2 ^ ulpExp x)) hpow.le
  linarith

/-- The relative error of one rounding, and the absolute one where the numbers stand no closer. -/
theorem abs_nearest_sub_le (x : ℝ) : |nearest x - x| ≤ |x| / 2 ^ 24 + 1 / 2 ^ 150 := by
  have hulp := abs_nearest_sub_le_ulp x
  rcases eq_or_ne x 0 with rfl | hx
  · simp
  rcases (le_ulpExp x).eq_or_lt with he | he
  · rw [← he] at hulp
    have hleast : (2 : ℝ) ^ (-149 : ℤ) / 2 = 1 / 2 ^ 150 := by norm_num
    have habs : (0 : ℝ) ≤ |x| / 2 ^ 24 := by positivity
    linarith
  · have hlead := two_zpow_ulpExp_le hx he
    rw [zpow_add₀ (by norm_num)] at hlead
    have hshare : (2 : ℝ) ^ ulpExp x / 2 ≤ |x| / 2 ^ 24 := by
      rw [div_le_div_iff₀ (by norm_num) (by norm_num)]
      norm_num at hlead ⊢
      linarith
    have hleast : (0 : ℝ) ≤ 1 / 2 ^ 150 := by positivity
    linarith

/-- The number is finite and within a distance of another. -/
def Near (ε : ℝ) (z : Float32) (x : ℝ) : Prop := z.isFinite = true ∧ |toReal z - x| ≤ ε

theorem Near.mono {ε δ x : ℝ} {z : Float32} (h : Near ε z x) (hle : ε ≤ δ) : Near δ z x := ⟨h.1, h.2.trans hle⟩

theorem near_self {z : Float32} (h : z.isFinite = true) : Near 0 z (toReal z) := ⟨h, by simp⟩

/-- A result is near what it stands for. -/
theorem Rounded.near {z : Float32} {x M : ℝ} (h : Rounded z x) (hx : |x| ≤ M) (hM : M ≤ 2 ^ 100) :
    Near (M / 2 ^ 24 + 1 / 2 ^ 150) z x := by
  have hsmall := h.small (k := 100) (by norm_num) (hx.trans hM)
  refine ⟨hsmall.1, ?_⟩
  rw [h.toReal_eq hsmall.1]
  have herr := abs_nearest_sub_le x
  have hshare : |x| / 2 ^ 24 ≤ M / 2 ^ 24 := div_le_div_of_nonneg_right hx (by positivity)
  linarith

section Operations

variable {x y : Float32} {a b ε δ M : ℝ}

theorem Near.add (hx : Near ε x a) (hy : Near δ y b) (h : |a + b| + ε + δ ≤ M) (hM : M ≤ 2 ^ 100) :
    Near (ε + δ + (M / 2 ^ 24 + 1 / 2 ^ 150)) (x + y) (a + b) := by
  have herr : |toReal x + toReal y - (a + b)| ≤ ε + δ := by
    rw [add_sub_add_comm]
    exact (abs_add_le _ _).trans (add_le_add hx.2 hy.2)
  have habs : |toReal x + toReal y| ≤ M := by
    have := abs_add_le (a + b) (toReal x + toReal y - (a + b))
    rw [add_sub_cancel] at this
    linarith
  obtain ⟨hfin, hround⟩ := (rounded_add hx.1 hy.1).near habs hM
  refine ⟨hfin, (abs_sub_le _ (toReal x + toReal y) _).trans ?_⟩
  linarith

/-- The product of two numbers as they are. -/
theorem near_mul (hx : x.isFinite = true) (hy : y.isFinite = true) (h : |toReal x * toReal y| ≤ M) (hM : M ≤ 2 ^ 100) :
    Near (M / 2 ^ 24 + 1 / 2 ^ 150) (x * y) (toReal x * toReal y) :=
  (rounded_mul hx hy).near h hM

end Operations

/-- The sum of two sums of two products, whose magnitudes add up to little more than one, is computed to within four units. -/
theorem near_products {x x' y y' z z' w w' : Float32}
    (hx : x.isFinite = true ∧ x'.isFinite = true) (hy : y.isFinite = true ∧ y'.isFinite = true)
    (hz : z.isFinite = true ∧ z'.isFinite = true) (hw : w.isFinite = true ∧ w'.isFinite = true)
    (h : |toReal x * toReal x'| + |toReal y * toReal y'| + |toReal z * toReal z'| + |toReal w * toReal w'| ≤ 9 / 8) :
    Near (1 / 2 ^ 22) ((x * x' + y * y') + (z * z' + w * w'))
      ((toReal x * toReal x' + toReal y * toReal y') + (toReal z * toReal z' + toReal w * toReal w')) := by
  obtain ⟨p, hp⟩ : ∃ p, p = |toReal x * toReal x'| := ⟨_, rfl⟩
  obtain ⟨q, hq⟩ : ∃ q, q = |toReal y * toReal y'| := ⟨_, rfl⟩
  obtain ⟨r, hr⟩ : ∃ r, r = |toReal z * toReal z'| := ⟨_, rfl⟩
  obtain ⟨s, hs⟩ : ∃ s, s = |toReal w * toReal w'| := ⟨_, rfl⟩
  have hp0 : 0 ≤ p := hp ▸ abs_nonneg _
  have hq0 : 0 ≤ q := hq ▸ abs_nonneg _
  have hr0 : 0 ≤ r := hr ▸ abs_nonneg _
  have hs0 : 0 ≤ s := hs ▸ abs_nonneg _
  rw [← hp, ← hq, ← hr, ← hs] at h
  have hpq := (abs_add_le (toReal x * toReal x') (toReal y * toReal y')).trans_eq (by rw [← hp, ← hq])
  have hrs := (abs_add_le (toReal z * toReal z') (toReal w * toReal w')).trans_eq (by rw [← hr, ← hs])
  have hall := abs_add_le (toReal x * toReal x' + toReal y * toReal y') (toReal z * toReal z' + toReal w * toReal w')
  have hleft := (near_mul hx.1 hx.2 hp.ge (by linarith)).add (near_mul hy.1 hy.2 hq.ge (by linarith))
    (M := p + q + 1 / 2 ^ 20) (by linarith) (by linarith)
  have hright := (near_mul hz.1 hz.2 hr.ge (by linarith)).add (near_mul hw.1 hw.2 hs.ge (by linarith))
    (M := r + s + 1 / 2 ^ 20) (by linarith) (by linarith)
  exact (hleft.add hright (M := 5 / 4) (by linarith) (by norm_num)).mono (by linarith)

end Binary32

end Gait
