import Mathlib
import Gait.Proofs.Exact.Scalar
import Gait.Proofs.Tracks.Brackets

/-!
# Motions along cubics

A cubic track goes from key to key along polynomials of degree at most three. A motion whose position is one such polynomial
throughout comes back whole: if the keys of a track are made from its positions and its velocities, then in exact arithmetic
every sample between the first key and the last is the position of the motion at that time, wherever the keys are.
-/

namespace Gait

open Polynomial
open scoped Exact

/-! ## Motions given by polynomials -/

section Motions

variable {K : Type} [Field K]

/-- Where a motion is at a time. -/
noncomputable def Vec3.positionAt (P : Vec3 K[X]) (time : K) : Vec3 K := ⟨P.x.eval time, P.y.eval time, P.z.eval time⟩

/-- How fast a motion is at a time, and where to. -/
noncomputable def Vec3.velocityAt (P : Vec3 K[X]) (time : K) : Vec3 K :=
  ⟨(derivative P.x).eval time, (derivative P.y).eval time, (derivative P.z).eval time⟩

/-- No component of a motion is of a degree above three. -/
def Vec3.IsCubic (P : Vec3 K[X]) : Prop := P.x.natDegree ≤ 3 ∧ P.y.natDegree ≤ 3 ∧ P.z.natDegree ≤ 3

end Motions

variable {K : Type} [Field K] [LinearOrder K] [Functions K]

/-! ## Between two keys -/

/-- The weights of a cubic as polynomials in the share of the way. -/
theorem Exact.hermite_at (s : K) : Hermite.at s =
    { start := 1 - (3 * s ^ 2 - 2 * s ^ 3)
      leaving := s ^ 3 - 2 * s ^ 2 + s
      stop := 3 * s ^ 2 - 2 * s ^ 3
      reaching := s ^ 3 - s ^ 2 } := by
  -- the numerals of a scalar are casts of natural numbers here
  have hweights : Hermite.at s =
      { start := ((1 : ℕ) : K) - (-((2 : ℕ) : K) * (s * s * s) + ((3 : ℕ) : K) * (s * s))
        leaving := s * s * s - s * s - s * s + s
        stop := -((2 : ℕ) : K) * (s * s * s) + ((3 : ℕ) : K) * (s * s)
        reaching := s * s * s - s * s } := rfl
  rw [hweights]
  push_cast
  simp only [Hermite.mk.injEq]
  refine ⟨?_, ?_, ?_, ?_⟩ <;> ring

/-- A polynomial of degree at most three is the cubic with its values and slopes at two points. -/
theorem Exact.eval_eq_hermite {p : K[X]} (hp : p.natDegree ≤ 3) (start dt s : K) :
    p.eval start * (Hermite.at s).start + (derivative p).eval start * (dt * (Hermite.at s).leaving) +
        p.eval (start + dt) * (Hermite.at s).stop + (derivative p).eval (start + dt) * (dt * (Hermite.at s).reaching) =
      p.eval (start + s * dt) := by
  obtain ⟨c, hc⟩ := Cubic.equiv.surjective ⟨p, degree_le_of_natDegree_le hp⟩
  obtain rfl : c.toPoly = p := congrArg Subtype.val hc
  simp only [Exact.hermite_at, Cubic.toPoly, derivative_add, derivative_mul, derivative_C, derivative_X_pow, derivative_X,
    eval_add, eval_mul, eval_C, eval_pow, eval_X, eval_zero, eval_one, Nat.cast_ofNat, Nat.add_one_sub_one, pow_one]
  ring

/-- The cubic between two positions of a motion with the motion's velocities at both is the motion. -/
theorem Exact.cubic_eq_positionAt {P : Vec3 K[X]} (hP : P.IsCubic) (start dt s : K) :
    Blend.cubic (P.positionAt start) (P.velocityAt start) (P.velocityAt (start + dt)) (P.positionAt (start + dt)) s dt =
      P.positionAt (start + s * dt) := by
  obtain ⟨hx, hy, hz⟩ := hP
  simp only [Vec3.positionAt, Vec3.velocityAt, Blend.cubic, Vec3.scale_def, Vec3.add_def, Vec3.mk.injEq]
  exact ⟨Exact.eval_eq_hermite hx start dt s, Exact.eval_eq_hermite hy start dt s, Exact.eval_eq_hermite hz start dt s⟩

namespace Track

/-- From the first key on, the last key that is reached is. -/
theorem reached_lastReached {α : Type} [Scalar α] {times : List α} {first time : α} (hfirst : times.head? = some first)
    (h : first ≤ time) : Reached times time (lastReached times time) := by
  obtain ⟨hreached, -⟩ := lastReached_eq_iff.1 (rfl : lastReached times time = lastReached times time)
  by_cases hzero : lastReached times time = 0
  · rw [hzero]
    rw [List.head?_eq_getElem?] at hfirst
    exact (reached_iff hfirst).2 h
  · exact hreached hzero

variable {t : Track (Vec3 K) K} {P : Vec3 K[X]} {first last start stop time : K} {i : ℕ}

/-- A cubic track that is made from a motion: its keys are more than a millionth of a second apart, and each has for its value
the position of the motion at its time and for the velocities it is reached and left with that of the motion. -/
structure Records (t : Track (Vec3 K) K) (P : Vec3 K[X]) : Prop where
  blending : t.blending = .cubic
  apart : t.times.IsChain fun start stop => 1 / 10 ^ 6 < stop - start
  keys : ∀ i time, t.times[i]? = some time →
    t.reaching? i = some (P.velocityAt time) ∧ t.value? i = some (P.positionAt time) ∧ t.leaving? i = some (P.velocityAt time)

/-- Between two keys the cubic is that of the motion. -/
theorem Records.between (h : t.Records P) (hP : P.IsCubic) (hstart : t.times[i]? = some start)
    (hstop : t.times[i + 1]? = some stop) (s : K) :
    t.between i s (stop - start) = some (P.positionAt (start + s * (stop - start))) := by
  obtain ⟨-, hvalue, hleaving⟩ := h.keys i start hstart
  obtain ⟨hreaching, hvalue', -⟩ := h.keys (i + 1) stop hstop
  have hcubic := Exact.cubic_eq_positionAt hP start (stop - start) s
  have hend : start + (stop - start) = stop := add_sub_cancel start stop
  rw [hend] at hcubic
  rw [value?, valueSlot, h.blending] at hvalue hvalue'
  rw [leaving?] at hleaving
  rw [reaching?] at hreaching
  simp only [Track.between, h.blending, hvalue, hleaving, hreaching, hvalue', Option.bind_eq_bind, Option.bind_some,
    Option.pure_def, hcubic]

/-! ## All samples -/

variable [IsStrictOrderedRing K]

theorem lt_of_apart (hapart : 1 / 10 ^ 6 < stop - start) : start < stop := by
  have hmicro : (0 : K) < 1 / 10 ^ 6 := by positivity
  exact sub_pos.1 (hmicro.trans hapart)

/-- Between keys that are far enough apart the share of the way is exact. -/
theorem progress_of_apart (hapart : 1 / 10 ^ 6 < stop - start) (hstart : start ≤ time) (hstop : time ≤ stop) :
    progress start stop time = (time - start) / (stop - start) := by
  have hdt : 0 < stop - start := sub_pos.2 (lt_of_apart hapart)
  have hlow : ((0 : ℕ) : K) ≤ (time - start) / (stop - start) := by
    rw [Nat.cast_zero]
    exact div_nonneg (sub_nonneg.2 hstart) hdt.le
  have hhigh : (time - start) / (stop - start) ≤ ((1 : ℕ) : K) := by
    rw [Nat.cast_one]
    exact (div_le_one hdt).2 (sub_le_sub_right hstop start)
  -- the numerals of a scalar are casts of natural numbers here
  have hmicro : ((1 : ℕ) : K) / 10 ^ 6 < stop - start := by rwa [Nat.cast_one]
  exact (if_pos hmicro).trans ((if_neg (not_lt.2 hlow)).trans (if_neg (not_lt.2 hhigh)))

theorem Records.sorted (h : t.Records P) : t.times.Pairwise (· ≤ ·) := by
  have hascending : t.times.IsChain (· ≤ ·) := h.apart.imp fun _ _ hapart => (lt_of_apart hapart).le
  exact hascending.pairwise

/-- A cubic track that is made from a motion along polynomials of degree at most three gives the motion back, from the first key
to the last one. -/
theorem sample_of_records (h : t.Records P) (hP : P.IsCubic) (hfirst : t.times.head? = some first)
    (hlast : t.times.getLast? = some last) (hle : first ≤ time) (hge : time ≤ last) :
    t.sample time = some (P.positionAt time) := by
  have hkeys : t.times ≠ [] := List.ne_nil_of_mem (List.mem_of_getLast? hlast)
  have hbracket := bracket_eq_lastReached t h.sorted time
  obtain ⟨-, hlater⟩ := lastReached_eq_iff.1 hbracket.symm
  obtain ⟨start, hstart, hreached⟩ : Reached t.times time (t.bracket time) := hbracket ▸ reached_lastReached hfirst hle
  rcases Nat.lt_or_ge (t.bracket time + 1) t.times.length with hnext | hend
  · obtain ⟨stop, hstop⟩ := exists_key hnext
    have hstopped : time ≤ stop := le_of_not_ge fun hge => hlater _ (Nat.lt_succ_self _) ((reached_iff hstop).2 hge)
    have hapart : 1 / 10 ^ 6 < stop - start := by
      have hchain := List.isChain_iff_getElem.1 h.apart _ hnext
      rwa [(List.getElem?_eq_some_iff.1 hstart).2, (List.getElem?_eq_some_iff.1 hstop).2] at hchain
    have hdt : stop - start ≠ 0 := (sub_pos.2 (lt_of_apart hapart)).ne'
    rw [sample_eq_between hstart hstop, progress_of_apart hapart hreached hstopped, h.between hP hstart hstop,
      div_mul_cancel₀ _ hdt, add_sub_cancel]
  · have hlt := bracket_lt_length hkeys time
    have hlength : t.bracket time + 1 = t.times.length := by omega
    have htime : start = time := by
      rw [List.getLast?_eq_getElem?, ← hlength, Nat.add_sub_cancel, hstart, Option.some.injEq] at hlast
      exact le_antisymm hreached (hlast ▸ hge)
    obtain ⟨-, hvalue, -⟩ := h.keys _ start hstart
    rw [sample_eq_value? hkeys hlength, hvalue, htime]

end Track

namespace Thrown

/-- Functions with no meaning. -/
local instance instFunctionsRat : Functions ℚ := ⟨id, id, id, fun y _ => y⟩

/-- A motion with a cubic, a quadratic and a constant component. -/
noncomputable def motion : Vec3 ℚ[X] := ⟨X ^ 3, X ^ 2 - X, C 2⟩

theorem isCubic_motion : motion.IsCubic := by
  have hx : (X ^ 3 : ℚ[X]).natDegree ≤ 3 := natDegree_X_pow_le 3
  have hy : (X ^ 2 - X : ℚ[X]).natDegree ≤ 3 :=
    (natDegree_sub_le _ _).trans (max_le ((natDegree_X_pow_le 2).trans (by norm_num)) (natDegree_X_le.trans (by norm_num)))
  have hz : (C 2 : ℚ[X]).natDegree ≤ 3 := (natDegree_C 2).trans_le (by norm_num)
  exact ⟨hx, hy, hz⟩

theorem positionAt_motion (time : ℚ) : motion.positionAt time = ⟨time ^ 3, time ^ 2 - time, 2⟩ := by
  simp [motion, Vec3.positionAt]

theorem velocityAt_motion (time : ℚ) : motion.velocityAt time = ⟨3 * time ^ 2, 2 * time - 1, 0⟩ := by
  norm_num [motion, Vec3.velocityAt]

/-- Three keys of the motion, at each the velocity, the position and the velocity again. -/
def track : Track (Vec3 ℚ) ℚ :=
  { times := [0, 1 / 2, 3]
    values := [⟨0, -1, 0⟩, ⟨0, 0, 2⟩, ⟨0, -1, 0⟩,
      ⟨3 / 4, 0, 0⟩, ⟨1 / 8, -1 / 4, 2⟩, ⟨3 / 4, 0, 0⟩,
      ⟨27, 5, 0⟩, ⟨27, 6, 2⟩, ⟨27, 5, 0⟩]
    blending := .cubic }

theorem records_track : track.Records motion := by
  refine ⟨rfl, by decide +kernel, ?_⟩
  intro i time hi
  rw [positionAt_motion, velocityAt_motion]
  match i, hi with
  | 0, rfl => decide +kernel
  | 1, rfl => decide +kernel
  | 2, rfl => decide +kernel

/-- Two seconds in, far from all keys, the track is where the motion is. -/
theorem sample_of_records_thrown :
    track.Records motion ∧ motion.IsCubic ∧ track.times.head? = some 0 ∧ track.times.getLast? = some 3 ∧
    (0 : ℚ) ≤ 2 ∧ (2 : ℚ) ≤ 3 ∧ track.sample 2 = some (motion.positionAt 2) ∧ motion.positionAt 2 = ⟨8, 2, 2⟩ := by
  refine ⟨records_track, isCubic_motion, rfl, rfl, by norm_num, by norm_num, ?_, ?_⟩
  · exact Track.sample_of_records records_track isCubic_motion rfl rfl (by norm_num) (by norm_num)
  · rw [positionAt_motion]
    norm_num

end Thrown

end Gait
