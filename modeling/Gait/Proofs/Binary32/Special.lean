import Gait.Binary32.Arithmetic
import Gait.Proofs.Binary32.Operations
import Gait.Proofs.Binary32.Order

/-!
# What is not finite stays so

An operand that is infinite or no number leaves its mark: the result is not finite either, a divisor aside. No number at all
passes through everything. An infinite product tells the signs of its factors.
-/

namespace Gait

namespace Binary32

open Float.Model (UnpackedFloat Format)
open Float.Model.UnpackedFloat

/-- The number is none. -/
def IsNaN (x : Float32) : Prop := parts x = .notANumber

theorem isNaN_iff {x : Float32} : x.isNaN = true ↔ IsNaN x := by
  show (parts x).isNaN = true ↔ parts x = .notANumber
  cases parts x <;> simp [UnpackedFloat.isNaN]

theorem IsNaN.not_isFinite {x : Float32} (h : IsNaN x) : x.isFinite = false := by
  show (parts x).isFinite = false
  rw [h]
  rfl

theorem not_isNaN_of_isFinite {x : Float32} (h : x.isFinite = true) : ¬ IsNaN x := by
  intro hnan
  rw [hnan.not_isFinite] at h
  cases h

/-- What is above another number is one. -/
theorem not_isNaN_of_lt {x y : Float32} (h : x < y) : ¬ IsNaN y := by
  intro hnan
  rw [lt_iff_compare, hnan] at h
  cases hx : parts x <;> rw [hx] at h <;> cases h

/-- What is not finite is packed as it is. -/
theorem parts_pack_of_not_isFinite {u : UnpackedFloat} (h : u.isFinite = false) :
    parts ⟨Float32.Model.pack u⟩ = u := by
  cases u with
  | infinity s => exact parts_pack trivial trivial
  | notANumber => exact parts_pack trivial trivial
  | _ => exact absurd h (by simp [UnpackedFloat.isFinite])

theorem isFinite_pack {u : UnpackedFloat} (h : (⟨Float32.Model.pack u⟩ : Float32).isFinite = true) : u.isFinite = true := by
  by_contra hu
  have hu' : u.isFinite = false := Bool.eq_false_iff.mpr hu
  have hp : (parts ⟨Float32.Model.pack u⟩).isFinite = true := h
  rw [parts_pack_of_not_isFinite hu', hu'] at hp
  cases hp

/-! ## Results that are finite -/

theorem add_isFinite {u v : UnpackedFloat} (h : (add Format.binary32 u v).isFinite = true) :
    u.isFinite = true ∧ v.isFinite = true := by
  cases u with
  | notANumber => cases h
  | infinity s =>
    cases v with
    | infinity t => cases s <;> cases t <;> cases h
    | _ => cases h
  | zero s =>
    cases v with
    | zero t => exact ⟨rfl, rfl⟩
    | finite t n f hn => exact ⟨rfl, rfl⟩
    | _ => cases h
  | finite s m e hm =>
    cases v with
    | zero t => exact ⟨rfl, rfl⟩
    | finite t n f hn => exact ⟨rfl, rfl⟩
    | _ => cases h

theorem mul_isFinite {u v : UnpackedFloat} (h : (mul Format.binary32 u v).isFinite = true) :
    u.isFinite = true ∧ v.isFinite = true := by
  cases u <;> cases v <;> first | exact ⟨rfl, rfl⟩ | cases h

theorem div_isFinite {u v : UnpackedFloat} (h : (div Format.binary32 u v).isFinite = true) : u.isFinite = true := by
  cases u with
  | zero s => rfl
  | finite s m e hm => rfl
  | _ => cases v <;> cases h

theorem sqrt_isFinite {u : UnpackedFloat} (h : (sqrt Format.binary32 u).isFinite = true) : u.isFinite = true := by
  cases u with
  | zero s => rfl
  | finite s m e hm => rfl
  | infinity s => cases s <;> cases h
  | notANumber => cases h

/-- Nothing can be divided by zero. -/
theorem div_zero_isFinite (u : UnpackedFloat) (s : Sign) : (div Format.binary32 u (.zero s)).isFinite = false := by
  cases u <;> rfl

section Finite

variable {x y : Float32}

/-- Subtracting is adding the negated number. -/
theorem sub_eq_add_minus (x y : Float32) : x - y = x + -y := by
  have hparts : sub Format.binary32 (parts x) (parts y) = add Format.binary32 (parts x) (parts (-y)) := by
    rw [sub_eq_add, parts_neg]
  show (⟨Float32.Model.pack (sub Format.binary32 (parts x) (parts y))⟩ : Float32) = _
  rw [hparts]
  rfl

theorem isFinite_div_zero {s : Sign} (x : Float32) (h : parts y = .zero s) : (x / y).isFinite = false := by
  have hfin := div_zero_isFinite (parts x) s
  rw [← h] at hfin
  have hquot : parts (x / y) = div Format.binary32 (parts x) (parts y) := parts_pack_of_not_isFinite hfin
  show (parts (x / y)).isFinite = false
  rw [hquot, hfin]

theorem parts_sqrt_zero {s : Sign} (h : parts x = .zero s) : parts x.sqrt = .zero s := by
  show parts ⟨Float32.Model.pack (sqrt Format.binary32 (parts x))⟩ = _
  rw [h]
  exact parts_pack trivial trivial

theorem isFinite_of_add (h : (x + y).isFinite = true) : x.isFinite = true ∧ y.isFinite = true := add_isFinite (isFinite_pack h)

theorem isFinite_of_sub (h : (x - y).isFinite = true) : x.isFinite = true ∧ y.isFinite = true := by
  rw [sub_eq_add_minus] at h
  obtain ⟨hx, hy⟩ := isFinite_of_add h
  exact ⟨hx, by rwa [neg_isFinite] at hy⟩

theorem isFinite_of_mul (h : (x * y).isFinite = true) : x.isFinite = true ∧ y.isFinite = true := mul_isFinite (isFinite_pack h)

/-- A sum with a term that is not finite is not finite. -/
theorem not_isFinite_add (h : x.isFinite = false) : (x + y).isFinite = false := by
  by_contra hfin
  rw [(isFinite_of_add (Bool.not_eq_false _ ▸ hfin)).1] at h
  cases h

/-- A product with a factor that is not finite is not finite. -/
theorem not_isFinite_mul (h : x.isFinite = false ∨ y.isFinite = false) : (x * y).isFinite = false := by
  by_contra hfin
  obtain ⟨fx, fy⟩ := isFinite_of_mul (Bool.not_eq_false _ ▸ hfin)
  rcases h with h | h
  · rw [fx] at h
    cases h
  · rw [fy] at h
    cases h

theorem isFinite_of_div (h : (x / y).isFinite = true) : x.isFinite = true := div_isFinite (v := parts y) (isFinite_pack h)

theorem isFinite_of_sqrt (h : x.sqrt.isFinite = true) : x.isFinite = true := sqrt_isFinite (isFinite_pack h)

/-- A sum is finite only if all its terms are. -/
theorem isFinite_of_sum {xs : List Float32} (h : (Scalar.sum xs).isFinite = true) : ∀ x ∈ xs, x.isFinite = true := by
  have hfold : ∀ (xs : List Float32) (start : Float32), (xs.foldl (· + ·) start).isFinite = true →
      start.isFinite = true ∧ ∀ x ∈ xs, x.isFinite = true := by
    intro xs
    induction xs with
    | nil => exact fun start h => ⟨h, by simp⟩
    | cons x xs ih =>
      intro start h
      obtain ⟨hstart, hxs⟩ := ih (start + x) h
      obtain ⟨h1, h2⟩ := isFinite_of_add hstart
      refine ⟨h1, ?_⟩
      rintro y (_ | ⟨_, hy⟩)
      · exact h2
      · exact hxs y hy
  exact (hfold xs _ h).2

end Finite

/-! ## No number -/

section NaN

variable {x y : Float32}

theorem isNaN_pack {u : UnpackedFloat} (h : u = .notANumber) : IsNaN ⟨Float32.Model.pack u⟩ := by
  rw [h]
  exact parts_pack trivial trivial

theorem IsNaN.add_left (h : IsNaN x) : IsNaN (x + y) := by
  have hadd : add Format.binary32 (parts x) (parts y) = .notANumber := by rw [h]; rfl
  exact isNaN_pack hadd

theorem IsNaN.add_right (h : IsNaN y) : IsNaN (x + y) := by
  have hadd : add Format.binary32 (parts x) (parts y) = .notANumber := by
    rw [h]
    cases parts x <;> rfl
  exact isNaN_pack hadd

theorem IsNaN.mul_left (h : IsNaN x) : IsNaN (x * y) := by
  have hmul : mul Format.binary32 (parts x) (parts y) = .notANumber := by rw [h]; rfl
  exact isNaN_pack hmul

theorem IsNaN.mul_right (h : IsNaN y) : IsNaN (x * y) := by
  have hmul : mul Format.binary32 (parts x) (parts y) = .notANumber := by
    rw [h]
    cases parts x <;> rfl
  exact isNaN_pack hmul

theorem IsNaN.neg (h : IsNaN x) : IsNaN (-x) := by
  rw [IsNaN, parts_neg, h]
  rfl

theorem IsNaN.sub_left (h : IsNaN x) : IsNaN (x - y) := by
  rw [sub_eq_add_minus]
  exact h.add_left

theorem IsNaN.sub_right (h : IsNaN y) : IsNaN (x - y) := by
  rw [sub_eq_add_minus]
  exact h.neg.add_right

/-- An infinite number taken away from itself leaves none. -/
theorem isNaN_sub_self (h : x.isFinite = false) : IsNaN (x - x) := by
  have hfin : (parts x).isFinite = false := h
  have hsub : sub Format.binary32 (parts x) (parts x) = .notANumber := by
    cases hp : parts x with
    | infinity s => cases s <;> rfl
    | notANumber => rfl
    | _ => rw [hp] at hfin; cases hfin
  exact isNaN_pack hsub

theorem IsNaN.sqrt (h : IsNaN x) : IsNaN x.sqrt := by
  have hsqrt : UnpackedFloat.sqrt Format.binary32 (parts x) = .notANumber := by rw [h]; rfl
  exact isNaN_pack hsqrt

end NaN

/-! ## The signs of infinite results -/

/-- The sign of what is neither zero nor no number. -/
def signOf? : UnpackedFloat → Option Sign
  | .infinity s => some s
  | .finite s _ _ _ => some s
  | _ => none

theorem signOf?_neg (x : Float32) : signOf? (parts (-x)) = (signOf? (parts x)).map (- ·) := by
  rw [parts_neg]
  cases parts x <;> rfl

/-- A sum with an operand that is not finite is no number, or infinite under the sign of each such operand. -/
theorem parts_add_of_not_isFinite {x y : Float32} (hx : x.isFinite = false) (hy : y.isFinite = false)
    (h : ¬ IsNaN (x + y)) : ∃ s, parts x = .infinity s ∧ parts y = .infinity s ∧ parts (x + y) = .infinity s := by
  have hpx : (parts x).isFinite = false := hx
  have hpy : (parts y).isFinite = false := hy
  have hsum : parts (x + y) = add Format.binary32 (parts x) (parts y) := by
    apply parts_pack_of_not_isFinite
    by_contra hfin
    rw [(add_isFinite (Bool.not_eq_false _ ▸ hfin)).1] at hpx
    cases hpx
  rw [IsNaN, hsum] at h
  rw [hsum]
  cases hu : parts x with
  | notANumber => exact absurd (by rw [hu]; rfl) h
  | infinity s =>
    cases hv : parts y with
    | notANumber => exact absurd (by rw [hu, hv]; rfl) h
    | infinity t =>
      rw [hu, hv] at h
      cases s <;> cases t <;> first | exact ⟨_, rfl, rfl, rfl⟩ | exact absurd rfl h
    | _ => rw [hv] at hpy; cases hpy
  | _ => rw [hu] at hpx; cases hpx

theorem mul_eq_infinity {u v : UnpackedFloat} {s : Sign} (h : u.isFinite = false ∨ v.isFinite = false)
    (hs : mul Format.binary32 u v = .infinity s) : ∃ t r, signOf? u = some t ∧ signOf? v = some r ∧ t * r = s := by
  cases u with
  | notANumber => cases hs
  | zero t => cases v <;> cases hs
  | infinity t =>
    cases v with
    | infinity r => exact ⟨t, r, rfl, rfl, UnpackedFloat.infinity.inj hs⟩
    | finite r n f hn => exact ⟨t, r, rfl, rfl, UnpackedFloat.infinity.inj hs⟩
    | _ => cases hs
  | finite t m e hm =>
    cases v with
    | infinity r => exact ⟨t, r, rfl, rfl, UnpackedFloat.infinity.inj hs⟩
    | finite r n f hn => exact absurd h (by simp [UnpackedFloat.isFinite])
    | _ => cases hs

/-- A product with a factor that is not finite is no number, or infinite under the product of the signs of the factors. -/
theorem parts_mul_of_not_isFinite {x y : Float32} {s : Sign} (h : x.isFinite = false ∨ y.isFinite = false)
    (hs : parts (x * y) = .infinity s) :
    ∃ t r, signOf? (parts x) = some t ∧ signOf? (parts y) = some r ∧ t * r = s := by
  have hfin : (mul Format.binary32 (parts x) (parts y)).isFinite = false := by
    by_contra hfin
    obtain ⟨hx, hy⟩ := mul_isFinite (Bool.not_eq_false _ ▸ hfin)
    rcases h with h | h
    · exact absurd (hx.symm.trans h) (by decide)
    · exact absurd (hy.symm.trans h) (by decide)
  have hprod : parts (x * y) = mul Format.binary32 (parts x) (parts y) := parts_pack_of_not_isFinite hfin
  rw [hprod] at hs
  exact mul_eq_infinity h hs

end Binary32

end Gait
