import Mathlib
import Gait.Proofs.Binary32.Range
import Gait.Proofs.Binary32.Cancellation

/-!
# Numbers with their infinities

A number that is not none has a place on the extended real line, and numbers compare as their places do (`le_iff_place`,
`lt_iff_place`). So the order of the numbers is transitive as a whole, and a time may be told from the keys of a track also where
it is infinite. The difference of two numbers and the quotient by a positive one have the sign that they ought to have, also
where they are infinite.
-/

namespace Gait

namespace Binary32

open Float.Model (UnpackedFloat Format)
open Float.Model.UnpackedFloat

variable {x y z : Float32}

/-! ## Places on the extended real line -/

/-- The end of the extended real line that an infinite number stands for. -/
noncomputable def lineEnd : Sign → EReal
  | .positive => ⊤
  | .negative => ⊥

/-- The place of a number on the extended real line. -/
noncomputable def place (x : Float32) : EReal :=
  match parts x with
  | .infinity s => lineEnd s
  | _ => (toReal x : ℝ)

theorem place_of_isFinite (hx : x.isFinite = true) : place x = (toReal x : ℝ) := by
  rcases isFinite_iff.mp hx with ⟨s, h⟩ | ⟨s, m, e, hm, h⟩ <;> rw [place, h]

theorem place_of_infinity {s : Sign} (h : parts x = .infinity s) : place x = lineEnd s := by rw [place, h]

/-- A number is finite, infinite or none. -/
theorem number_cases (x : Float32) : x.isFinite = true ∨ (∃ s, parts x = .infinity s) ∨ IsNaN x := by
  cases h : parts x with
  | notANumber => exact Or.inr (Or.inr h)
  | infinity s => exact Or.inr (Or.inl ⟨s, rfl⟩)
  | zero s => exact Or.inl (isFinite_iff.mpr (Or.inl ⟨s, h⟩))
  | finite s m e hm => exact Or.inl (isFinite_of_parts h)

theorem not_isNaN_of_infinity {s : Sign} (h : parts x = .infinity s) : ¬IsNaN x := by
  rw [IsNaN, h]
  intro hnan
  cases hnan

/-- A finite number compares with an infinite one as with the end of the line. -/
theorem compare_infinity (hx : x.isFinite = true) (s : Sign) :
    ((toReal x : ℝ) < lineEnd s ∧ (parts x).compare (.infinity s) = some .lt ∧
        (UnpackedFloat.infinity s).compare (parts x) = some .gt) ∨
      (lineEnd s < (toReal x : ℝ) ∧ (parts x).compare (.infinity s) = some .gt ∧
        (UnpackedFloat.infinity s).compare (parts x) = some .lt) := by
  cases s with
  | positive =>
    refine Or.inl ⟨EReal.coe_lt_top _, ?_⟩
    rcases isFinite_iff.mp hx with ⟨t, h⟩ | ⟨t, m, e, hm, h⟩ <;> rw [h] <;> cases t <;> exact ⟨rfl, rfl⟩
  | negative =>
    refine Or.inr ⟨EReal.bot_lt_coe _, ?_⟩
    rcases isFinite_iff.mp hx with ⟨t, h⟩ | ⟨t, m, e, hm, h⟩ <;> rw [h] <;> cases t <;> exact ⟨rfl, rfl⟩

/-- Numbers that are not none compare as their places do. -/
theorem compare_places (hx : ¬IsNaN x) (hy : ¬IsNaN y) : (place x < place y ∧ (parts x).compare (parts y) = some .lt) ∨
    (place x = place y ∧ (parts x).compare (parts y) = some .eq) ∨
      (place y < place x ∧ (parts x).compare (parts y) = some .gt) := by
  rcases number_cases x with fx | ⟨s, px⟩ | nx
  · rcases number_cases y with fy | ⟨t, py⟩ | ny
    · rw [place_of_isFinite fx, place_of_isFinite fy, EReal.coe_lt_coe_iff, EReal.coe_eq_coe_iff, EReal.coe_lt_coe_iff]
      exact (canonical_parts x).compare_values (canonical_parts y) fx fy
    · rw [place_of_isFinite fx, place_of_infinity py, py]
      rcases compare_infinity fx t with ⟨hlt, hc, -⟩ | ⟨hlt, hc, -⟩
      · exact Or.inl ⟨hlt, hc⟩
      · exact Or.inr (Or.inr ⟨hlt, hc⟩)
    · exact absurd ny hy
  · rcases number_cases y with fy | ⟨t, py⟩ | ny
    · rw [place_of_isFinite fy, place_of_infinity px, px]
      rcases compare_infinity fy s with ⟨hlt, -, hc⟩ | ⟨hlt, -, hc⟩
      · exact Or.inr (Or.inr ⟨hlt, hc⟩)
      · exact Or.inl ⟨hlt, hc⟩
    · rw [place_of_infinity px, place_of_infinity py, px, py]
      cases s <;> cases t
      · exact Or.inr (Or.inl ⟨rfl, rfl⟩)
      · exact Or.inl ⟨bot_lt_top, rfl⟩
      · exact Or.inr (Or.inr ⟨bot_lt_top, rfl⟩)
      · exact Or.inr (Or.inl ⟨rfl, rfl⟩)
    · exact absurd ny hy
  · exact absurd nx hx

theorem le_iff_place (hx : ¬IsNaN x) (hy : ¬IsNaN y) : x ≤ y ↔ place x ≤ place y := by
  rw [le_iff_compare]
  rcases compare_places hx hy with ⟨hp, hc⟩ | ⟨hp, hc⟩ | ⟨hp, hc⟩ <;> rw [hc]
  · simp [hp.le]
  · simp [hp]
  · simpa using hp

theorem lt_iff_place (hx : ¬IsNaN x) (hy : ¬IsNaN y) : x < y ↔ place x < place y := by
  rw [lt_iff_compare]
  rcases compare_places hx hy with ⟨hp, hc⟩ | ⟨hp, hc⟩ | ⟨hp, hc⟩ <;> rw [hc]
  · simp [hp]
  · simp [hp]
  · simp [hp.le]

/-! ## The order as a whole -/

/-- Only numbers compare. -/
theorem not_isNaN_of_le (h : x ≤ y) : ¬IsNaN x ∧ ¬IsNaN y := by
  rw [le_iff_compare] at h
  constructor
  · intro hx
    rw [hx] at h
    cases h
  · intro hy
    rw [hy] at h
    cases hx : parts x <;> rw [hx] at h <;> cases h

protected theorem le_of_lt (h : x < y) : x ≤ y := by
  rw [lt_iff_compare] at h
  rw [le_iff_compare, h]
  rfl

instance isTrans_le : IsTrans Float32 (· ≤ ·) where
  trans x y z hxy hyz := by
    obtain ⟨hx, hy⟩ := not_isNaN_of_le hxy
    have hz := (not_isNaN_of_le hyz).2
    rw [le_iff_place hx hy] at hxy
    rw [le_iff_place hy hz] at hyz
    exact (le_iff_place hx hz).mpr (hxy.trans hyz)

/-- What is above another number is not at or below it. -/
protected theorem not_le_of_lt (h : x < y) : ¬y ≤ x := by
  obtain ⟨hx, hy⟩ := not_isNaN_of_le (Binary32.le_of_lt h)
  rw [lt_iff_place hx hy] at h
  rw [le_iff_place hy hx]
  exact not_le.mpr h

/-- What is none or at most zero is what is not above zero. -/
theorem isNaN_or_le_zero_iff : IsNaN x ∨ x ≤ 0 ↔ ¬0 < x := by
  have hzero : ¬IsNaN (0 : Float32) := not_isNaN_of_isFinite isFinite_zero
  constructor
  · rintro (hnan | hle) hpos
    · exact not_isNaN_of_lt hpos hnan
    · exact Binary32.not_le_of_lt hpos hle
  · intro hpos
    refine or_iff_not_imp_left.2 fun hx => ?_
    rw [lt_iff_place hzero hx, not_lt] at hpos
    exact (le_iff_place hx hzero).2 hpos

/-! ## Signs of differences and quotients -/

/-- What is rounded from no positive number is none. -/
theorem Rounded.le_zero {r : ℝ} (h : Rounded z r) (hr : r ≤ 0) : z ≤ 0 := by
  rcases le_or_gt |nearest r| largest with hle | hgt
  · obtain ⟨hfin, hval⟩ := h.finite hle
    rw [le_iff hfin isFinite_zero, toReal_zero, hval]
    exact grid_zero.nearest_le hr
  · have hparts := h.infinite hgt
    rw [if_neg (not_lt.mpr hr)] at hparts
    exact Binary32.le_of_lt (lt_of_parts_neg_infinity isFinite_zero hparts)

theorem Rounded.not_isNaN {r : ℝ} (h : Rounded z r) : ¬IsNaN z := by
  intro hnan
  rcases le_or_gt |nearest r| largest with hle | hgt
  · exact not_isNaN_of_isFinite (h.finite hle).1 hnan
  · have hparts := h.infinite hgt
    rw [hnan] at hparts
    cases hparts

/-- An infinite number is at most a finite one exactly under a negative sign. -/
theorem le_iff_of_infinity {s : Sign} (h : parts x = .infinity s) (hy : y.isFinite = true) : x ≤ y ↔ s = .negative := by
  rw [le_iff_place (not_isNaN_of_infinity h) (not_isNaN_of_isFinite hy), place_of_infinity h, place_of_isFinite hy]
  cases s <;> simp [lineEnd]

theorem parts_sub_of_infinity_of_isFinite {s : Sign} (hx : parts x = .infinity s) (hy : y.isFinite = true) :
    parts (x - y) = .infinity s := by
  refine parts_sub_of_infinity hx (not_isNaN_of_isFinite hy) ?_
  rintro rfl
  rw [not_isFinite_of_parts_infinity hx] at hy
  cases hy

/-- A finite number can be taken away from every number. -/
theorem not_isNaN_sub (hx : ¬IsNaN x) (hy : y.isFinite = true) : ¬IsNaN (x - y) := by
  rcases number_cases x with fx | ⟨s, px⟩ | nx
  · exact (rounded_sub fx hy).not_isNaN
  · exact not_isNaN_of_infinity (parts_sub_of_infinity_of_isFinite px hy)
  · exact absurd nx hx

/-- What is at most a finite number is less than it by no positive one. -/
theorem sub_le_zero (h : x ≤ y) (hy : y.isFinite = true) : x - y ≤ 0 := by
  rcases number_cases x with fx | ⟨s, px⟩ | nx
  · refine (rounded_sub fx hy).le_zero ?_
    rw [le_iff fx hy] at h
    linarith
  · rw [le_iff_of_infinity px hy] at h
    rwa [le_iff_of_infinity (parts_sub_of_infinity_of_isFinite px hy) isFinite_zero]
  · exact absurd nx (not_isNaN_of_le h).1

theorem parts_div_of_infinity {s : Sign} (hx : parts x = .infinity s) (hy : y.isFinite = true) (h0 : 0 < y) :
    parts (x / y) = .infinity s := by
  obtain ⟨m, e, hm, h⟩ := parts_of_pos hy ((pos_iff hy).mp h0)
  have hdiv : div Format.binary32 (parts x) (parts y) = .infinity s := by
    rw [hx, h]
    cases s <;> rfl
  have hpack := parts_pack_of_not_isFinite (u := div Format.binary32 (parts x) (parts y)) (by rw [hdiv]; rfl)
  exact hpack.trans hdiv

/-- Every number can be divided by a positive one. -/
theorem not_isNaN_div (hx : ¬IsNaN x) (hy : y.isFinite = true) (h0 : 0 < y) : ¬IsNaN (x / y) := by
  rcases number_cases x with fx | ⟨s, px⟩ | nx
  · exact (rounded_div fx hy ((pos_iff hy).mp h0).ne').not_isNaN
  · exact not_isNaN_of_infinity (parts_div_of_infinity px hy h0)
  · exact absurd nx hx

/-- What is at most zero stays so when it is divided by a positive number. -/
theorem div_le_zero (h : x ≤ 0) (hy : y.isFinite = true) (h0 : 0 < y) : x / y ≤ 0 := by
  rcases number_cases x with fx | ⟨s, px⟩ | nx
  · rw [le_iff fx isFinite_zero, toReal_zero] at h
    rw [pos_iff hy] at h0
    exact (rounded_div fx hy h0.ne').le_zero (div_nonpos_of_nonpos_of_nonneg h h0.le)
  · rw [le_iff_of_infinity px isFinite_zero] at h
    rwa [le_iff_of_infinity (parts_div_of_infinity px hy h0) isFinite_zero]
  · exact absurd nx (not_isNaN_of_le h).1

end Binary32

end Gait
