import Gait.Proofs.Binary32.Angle
import Gait.Proofs.Binary32.Extended

/-!
# Zeros of either sign

There are two zeros, and they compare as equal. Sums, roots, quotients by a positive number and angles before the observer keep
zeros, of whichever sign, and keep numbers alike that are so up to the sign of a zero. Only the angle of a point on the half-axis
behind tells the zeros apart, half a turn to one side or to the other.
-/

namespace Gait

namespace Binary32

open Float.Model (UnpackedFloat Format)
open Float.Model.UnpackedFloat

section Zeros

variable {r : ℝ} {x y : Float32}

theorem exactly_zero_iff_parts : Exactly 0 x ↔ ∃ s, parts x = .zero s := by
  constructor
  · rintro ⟨hfin, hval⟩
    rcases isFinite_iff.mp hfin with hzero | ⟨s, m, e, hm, h⟩
    · exact hzero
    · rw [toReal, h] at hval
      exact absurd hval (value_ne_zero s m e hm)
  · rintro ⟨s, h⟩
    refine ⟨isFinite_iff.mpr (Or.inl ⟨s, h⟩), ?_⟩
    rw [toReal, h, value_zero]

/-- What compares as equal to zero is a zero. -/
theorem beq_zero_iff : (x == 0) = true ↔ Exactly 0 x := by
  constructor
  · intro h
    have hfin : x.isFinite = true := (Alike.isFinite_eq (Or.inr h)).trans isFinite_zero
    rw [beq_iff hfin isFinite_zero, toReal_zero] at h
    exact ⟨hfin, h⟩
  · rintro ⟨hfin, hval⟩
    rw [beq_iff hfin isFinite_zero, hval, toReal_zero]

theorem Exactly.neg (h : Exactly r x) : Exactly (-r) (-x) := ⟨by rw [neg_isFinite]; exact h.1, by rw [toReal_neg, h.2]⟩

theorem Exactly.neg_of_zero (h : Exactly 0 x) : Exactly 0 (-x) := by
  have hneg := h.neg
  rwa [neg_zero] at hneg

/-- A sum of zeros is a zero. -/
theorem exactly_sum_of_zeros {xs : List Float32} (h : ∀ x ∈ xs, Exactly 0 x) : Exactly 0 (Scalar.sum xs) := by
  have hfold : ∀ (xs : List Float32) (start : Float32), (∀ x ∈ xs, Exactly 0 x) → Exactly 0 start →
      Exactly 0 (xs.foldl (· + ·) start) := by
    intro xs
    induction xs with
    | nil => exact fun start _ h => h
    | cons x xs ih =>
      intro start hxs hstart
      exact ih (start + x) (fun y hy => hxs y (List.mem_cons_of_mem _ hy)) (hstart.add_of_zero (hxs x List.mem_cons_self))
  exact hfold xs _ h exactly_zero.neg_of_zero

theorem Exactly.zero_mul (hx : Exactly 0 x) (hy : y.isFinite = true) : Exactly 0 (x * y) := by
  have hround := rounded_mul hx.1 hy
  rw [hx.2, MulZeroClass.zero_mul] at hround
  exact exactly_zero.of_rounded hround

theorem Exactly.sqrt_of_zero (h : Exactly 0 x) : Exactly 0 x.sqrt := by
  obtain ⟨s, hs⟩ := exactly_zero_iff_parts.mp h
  exact exactly_zero_iff_parts.mpr ⟨s, parts_sqrt_zero hs⟩

/-- A positive number is finite or the positive infinity. -/
theorem pos_cases (h : 0 < x) : (∃ m e hm, parts x = .finite .positive m e hm) ∨ parts x = .infinity .positive := by
  rcases number_cases x with hfin | ⟨s, hinf⟩ | hnan
  · exact Or.inl (parts_of_pos hfin ((pos_iff hfin).mp h))
  · cases s with
    | positive => exact Or.inr hinf
    | negative =>
      have hlt : x < 0 := lt_of_parts_neg_infinity isFinite_zero hinf
      exact absurd (Binary32.le_of_lt hlt) (Binary32.not_le_of_lt h)
  · exact absurd hnan (not_isNaN_of_lt h)

theorem exactly_div_of_parts {t : Sign} (h : div Format.binary32 (parts x) (parts y) = .zero t) : Exactly 0 (x / y) := by
  refine exactly_zero_iff_parts.mpr ⟨t, ?_⟩
  show parts ⟨Float32.Model.pack (div Format.binary32 (parts x) (parts y))⟩ = _
  rw [h]
  exact parts_pack trivial trivial

/-- A zero divided by a positive number, be it infinite, is a zero. -/
theorem Exactly.div_of_pos (hx : Exactly 0 x) (hy : 0 < y) : Exactly 0 (x / y) := by
  obtain ⟨s, hs⟩ := exactly_zero_iff_parts.mp hx
  apply exactly_div_of_parts (t := s / .positive)
  rw [hs]
  rcases pos_cases hy with ⟨m, e, hm, h⟩ | h <;> rw [h] <;> rfl

/-- A finite number can be divided by a positive one, be it infinite. -/
theorem not_isNaN_div_of_pos (hx : x.isFinite = true) (hy : 0 < y) : ¬IsNaN (x / y) := by
  rcases pos_cases hy with ⟨m, e, hm, h⟩ | h
  · exact not_isNaN_div (not_isNaN_of_isFinite hx) (isFinite_of_parts h) hy
  · rcases isFinite_iff.mp hx with ⟨s, hs⟩ | ⟨s, m, e, hm, hs⟩ <;>
      exact not_isNaN_of_isFinite (exactly_div_of_parts (t := s / .positive) (by rw [hs, h]; rfl)).1

/-- A number taken away from itself leaves the positive zero. -/
theorem parts_sub_self (hx : x.isFinite = true) : parts (x - x) = .zero .positive := by
  have hsub : sub Format.binary32 (parts x) (parts x) = .zero .positive := by
    rcases isFinite_iff.mp hx with ⟨s, h⟩ | ⟨s, m, e, hm, h⟩ <;> rw [h]
    · cases s <;> rfl
    · simp only [sub, Int.sub_self, UnpackedFloat.normalize]
      rfl
  show parts ⟨Float32.Model.pack (sub Format.binary32 (parts x) (parts x))⟩ = _
  rw [hsub]
  exact parts_pack trivial trivial

/-- A point on the half-axis before the observer, or at the origin if that counts as its end, has no angle. -/
theorem exactly_atan2_of_zero (hy : Exactly 0 y) (hx : 0 < x ∨ parts x = .zero .positive) : Exactly 0 (atan2 y x) := by
  obtain ⟨s, hs⟩ := exactly_zero_iff_parts.mp hy
  have hangle : atan2 y x = y := by
    unfold atan2
    rw [hs]
    rcases hx with hpos | hzero
    · rcases pos_cases hpos with ⟨m, e, hm, h⟩ | h <;> rw [h]
    · rw [hzero]
  rw [hangle]
  exact hy

end Zeros

/-! ## Alike up to the sign of a zero -/

section Alike

variable {r : ℝ} {x x' y y' z z' : Float32}

theorem Alike.refl (x : Float32) : Alike x x := Or.inl rfl

theorem alike_of_zeros (hx : Exactly 0 x) (hx' : Exactly 0 x') : Alike x x' := by
  rw [alike_iff hx.1 hx'.1, hx.2, hx'.2]

/-- Numbers that are alike are the same, or both are zeros. -/
theorem Alike.cases (h : Alike x x') : x = x' ∨ (Exactly 0 x ∧ Exactly 0 x') := by
  cases hx : x.isFinite with
  | true =>
    have hx' : x'.isFinite = true := h.isFinite_eq.symm.trans hx
    have hval := (alike_iff hx hx').mp h
    by_cases h0 : toReal x = 0
    · exact Or.inr ⟨⟨hx, h0⟩, ⟨hx', hval.symm.trans h0⟩⟩
    · exact Or.inl (eq_of_toReal_eq hval h0)
  | false => exact Or.inl (h.elim id (eq_of_beq_not_finite hx))

/-- What is rounded from one real number is alike. -/
theorem Rounded.alike (h : Rounded z r) (h' : Rounded z' r) : Alike z z' := by
  rcases le_or_gt |nearest r| largest with hle | hgt
  · obtain ⟨hz, hval⟩ := h.finite hle
    obtain ⟨hz', hval'⟩ := h'.finite hle
    rw [alike_iff hz hz', hval, hval']
  · exact Or.inl (parts_injective ((h.infinite hgt).trans (h'.infinite hgt).symm))

/-- Numbers compare as equal if they are alike and are numbers. -/
theorem Alike.beq (h : Alike x x') (hx : ¬IsNaN x) : (x == x') = true := by
  rcases h with rfl | h
  · rw [beq_iff_compare]
    rcases number_cases x with hfin | ⟨s, hs⟩ | hnan
    · rw [← beq_iff_compare, beq_iff hfin hfin]
    · rw [hs]
      cases s <;> rfl
    · exact absurd hnan hx
  · exact h

theorem Alike.neg (h : Alike x x') : Alike (-x) (-x') := by
  rcases h.cases with rfl | ⟨hx, hx'⟩
  · exact Alike.refl _
  · exact alike_of_zeros hx.neg_of_zero hx'.neg_of_zero

theorem Alike.div (h : Alike x x') (hy : 0 < y) : Alike (x / y) (x' / y) := by
  rcases h.cases with rfl | ⟨hx, hx'⟩
  · exact Alike.refl _
  · exact alike_of_zeros (hx.div_of_pos hy) (hx'.div_of_pos hy)

/-- What is not finite stays as it is when a finite number is added. -/
theorem add_eq_left (hx : x.isFinite = false) (hy : y.isFinite = true) : x + y = x := by
  have hadd : add Format.binary32 (parts x) (parts y) = parts x := by
    rcases number_cases x with hfin | ⟨s, hs⟩ | hnan
    · rw [hfin] at hx
      cases hx
    · rw [hs]
      rcases isFinite_iff.mp hy with ⟨t, ht⟩ | ⟨t, m, e, hm, ht⟩ <;> rw [ht] <;> rfl
    · rw [hnan]
      rfl
  show (⟨Float32.Model.pack (add Format.binary32 (parts x) (parts y))⟩ : Float32) = x
  rw [hadd, pack_parts]

theorem Alike.add (hx : Alike x x') (hy : Alike y y') (hfin : y.isFinite = true) : Alike (x + y) (x' + y') := by
  have hfin' : y'.isFinite = true := hy.isFinite_eq.symm.trans hfin
  cases fx : x.isFinite with
  | true =>
    have fx' : x'.isFinite = true := hx.isFinite_eq.symm.trans fx
    have hround := rounded_add fx hfin
    rw [(alike_iff fx fx').mp hx, (alike_iff hfin hfin').mp hy] at hround
    exact hround.alike (rounded_add fx' hfin')
  | false =>
    have fx' : x'.isFinite = false := hx.isFinite_eq.symm.trans fx
    rw [add_eq_left fx hfin, add_eq_left fx' hfin']
    exact hx

/-- Sums of finite numbers are alike if their terms are. -/
theorem alike_sum {xs ys : List Float32} (h : List.Forall₂ Alike xs ys) (hfin : ∀ x ∈ xs, x.isFinite = true) :
    Alike (Scalar.sum xs) (Scalar.sum ys) := by
  have hfold : ∀ {start start' : Float32}, Alike start start' → Alike (xs.foldl (· + ·) start) (ys.foldl (· + ·) start') := by
    induction h with
    | nil => exact fun h => h
    | cons hxy _ ih =>
      intro start start' hstart
      exact ih (fun x hx => hfin x (List.mem_cons_of_mem _ hx)) (hstart.add hxy (hfin _ List.mem_cons_self))
  exact hfold (Alike.refl _)

/-- Angles of points that are alike are alike, but for points on the half-axis behind. -/
theorem Alike.atan2 (hy : Alike y y') (hx : Alike x x') (h : ¬Exactly 0 y ∨ 0 < x) :
    Alike (Binary32.atan2 y x) (Binary32.atan2 y' x') := by
  have hpos : 0 < x → ¬Exactly 0 x := by
    rintro hlt ⟨hfin, hval⟩
    rw [pos_iff hfin, hval] at hlt
    exact lt_irrefl _ hlt
  rcases hy.cases with rfl | ⟨hy0, hy0'⟩
  · rcases hx.cases with rfl | ⟨hx0, hx0'⟩
    · exact Alike.refl _
    · -- off the first axis the sign of a zero does not matter
      left
      have hne : ¬Exactly 0 y := h.resolve_right fun hlt => hpos hlt hx0
      obtain ⟨s, hs⟩ := exactly_zero_iff_parts.mp hx0
      obtain ⟨t, ht⟩ := exactly_zero_iff_parts.mp hx0'
      unfold Binary32.atan2
      rw [hs, ht]
      cases hp : parts y with
      | zero u => exact absurd (exactly_zero_iff_parts.mpr ⟨u, hp⟩) hne
      | _ => rfl
  · have hlt : 0 < x := h.resolve_left fun hne => hne hy0
    obtain rfl : x = x' := hx.cases.resolve_right fun h0 => hpos hlt h0.1
    exact alike_of_zeros (exactly_atan2_of_zero hy0 (Or.inl hlt)) (exactly_atan2_of_zero hy0' (Or.inl hlt))

end Alike

end Binary32

end Gait
