import Gait.Proofs.Binary32.Signs
import Gait.Proofs.Features.Dependence
import Gait.Proofs.Features.Tame
import Gait.Proofs.Sampling.Counts

/-!
# Turns of negated rotations

A quaternion and its negative are one rotation. A turn between two rotations is the angle of a point that has even degree in each
of them, so negating one or both leaves the point where it is, though the products it is made of change their signs one by one; at
most a zero among its coordinates changes its sign. That matters on the half-axis behind alone, where a turn is exactly a half, to
one side or to the other. So a sum of turns, none of which is a half, does not see the signs of any of the rotations.
-/

namespace Gait

open Binary32
open Float.Model.UnpackedFloat (Sign)

namespace Quat

variable {k : ℕ} {s t : Sign} {q q' l l' r r' previous previous' current current' : Quat Float32}

/-- The same rotation, all components negated. -/
instance : Neg (Quat Float32) := ⟨fun q => ⟨-q.x, -q.y, -q.z, -q.w⟩⟩

/-- The second quaternion is the first or its negative. -/
def Flipped (q q' : Quat Float32) : Prop := q' = q ∨ q' = -q

/-- The turn is exactly a half: the sine of its yaw is computed as zero and the cosine is not positive. -/
def HalfTurn (previous current : Quat Float32) : Prop :=
  ((current * previous.conj).sinYaw == 0) = true ∧ ¬0 < (current * previous.conj).cosYaw

instance (previous current : Quat Float32) : Decidable (HalfTurn previous current) := inferInstanceAs (Decidable (_ ∧ _))

/-! ## Quaternions of the same values under a sign -/

/-- Each component of the second quaternion has the value of the first's under the sign. -/
structure Signed (s : Sign) (q q' : Quat Float32) : Prop where
  x : Mirrored s q.x q'.x
  y : Mirrored s q.y q'.y
  z : Mirrored s q.z q'.z
  w : Mirrored s q.w q'.w

theorem Flipped.signed (h : Flipped q q') (hq : q.Within k) : ∃ s, Signed s q q' := by
  obtain ⟨hx, hy, hz, hw⟩ := hq
  rcases h with rfl | rfl
  · exact ⟨.positive, mirrored_self hx.1, mirrored_self hy.1, mirrored_self hz.1, mirrored_self hw.1⟩
  · exact ⟨.negative, mirrored_neg hx.1, mirrored_neg hy.1, mirrored_neg hz.1, mirrored_neg hw.1⟩

theorem Signed.conj (h : Signed s q q') : Signed s q.conj q'.conj := ⟨h.x.neg, h.y.neg, h.z.neg, h.w⟩

/-- The signs of the factors are multiplied. -/
theorem Signed.mul (hl : Signed s l l') (hr : Signed t r r') (hlr : (l * r).Within k) : Signed (s * t) (l * r) (l' * r') := by
  obtain ⟨⟨fx, -⟩, ⟨fy, -⟩, ⟨fz, -⟩, ⟨fw, -⟩⟩ := hlr
  refine ⟨?_, ?_, ?_, ?_⟩
  · obtain ⟨h1, h2⟩ := isFinite_of_add fx
    exact (hl.w.mul_add_mul hr.x hl.x hr.w h1).add (hl.y.mul_add_mul hr.z hl.z hr.y.neg h2) fx
  · obtain ⟨h1, h2⟩ := isFinite_of_add fy
    exact (hl.w.mul_add_mul hr.y hl.x hr.z.neg h1).add (hl.y.mul_add_mul hr.w hl.z hr.x h2) fy
  · obtain ⟨h1, h2⟩ := isFinite_of_add fz
    exact (hl.w.mul_add_mul hr.z hl.x hr.y h1).add (hl.y.mul_add_mul hr.x.neg hl.z hr.w h2) fz
  · obtain ⟨h1, h2⟩ := isFinite_of_add fw
    exact (hl.w.mul_add_mul hr.w hl.x hr.x.neg h1).add (hl.y.mul_add_mul hr.y.neg hl.z hr.z.neg h2) fw

/-- What has even degree does not see the sign. -/
theorem mirrored_of_square {x x' : Float32} (h : Mirrored (s * s) x x') : Mirrored .positive x x' := by
  cases s <;> exact h

theorem Signed.sinYaw (h : Signed s q q') (hfin : q.sinYaw.isFinite = true) :
    Mirrored .positive q.sinYaw q'.sinYaw := by
  obtain ⟨htwo, hsum⟩ := isFinite_of_mul hfin
  have hsquare := mirrored_of_square (h.x.mul_add_mul h.y h.z h.w hsum)
  exact (mirrored_self htwo).mul hsquare hfin

theorem Signed.cosYaw (h : Signed s q q') (hfin : q.cosYaw.isFinite = true) :
    Mirrored .positive q.cosYaw q'.cosYaw := by
  obtain ⟨hone, hprod⟩ := isFinite_of_sub hfin
  obtain ⟨htwo, hsum⟩ := isFinite_of_mul hprod
  have hsquare := mirrored_of_square (h.y.mul_add_mul h.y h.z h.z hsum)
  exact (mirrored_self hone).sub ((mirrored_self htwo).mul hsquare hprod) hfin

/-- A turn that is no half turn does not see the signs of the two rotations. -/
theorem alike_turn (hp : previous.Within 30) (hc : current.Within 30) (hp' : Flipped previous previous')
    (hc' : Flipped current current') (h : ¬HalfTurn previous current) :
    Alike (turn previous current) (turn previous' current') := by
  obtain ⟨s, hprevious⟩ := hp'.signed hp
  obtain ⟨t, hcurrent⟩ := hc'.signed hc
  have hdelta := hc.mul hp.conj (by norm_num)
  have hsigned := hcurrent.mul hprevious.conj hdelta
  have hsin := (hsigned.sinYaw (small_sinYaw hdelta (by norm_num)).1).alike
  have hcos := (hsigned.cosYaw (small_cosYaw hdelta (by norm_num)).1).alike
  have hside : ¬Exactly 0 (current * previous.conj).sinYaw ∨ 0 < (current * previous.conj).cosYaw := by
    rw [HalfTurn, beq_zero_iff, not_and_or, not_not] at h
    exact h
  rw [turn, turn, yaw_eq, yaw_eq]
  exact (hsin.atan2 hcos hside).neg

/-- A half turn does see them: the zero that its sine is comes with the sign of the rotation. -/
example : HalfTurn ⟨1, 1, 1, 1⟩ ⟨0, 2, 0, -2⟩ ∧
    ¬Alike (turn ⟨1, 1, 1, 1⟩ ⟨0, 2, 0, -2⟩) (turn ⟨1, 1, 1, 1⟩ (-⟨0, 2, 0, -2⟩)) := by decide +kernel

end Quat

/-! ## Sums of turns -/

section Sums

/-- Elements that are related one by one make steps that are related end by end. -/
theorem forall₂_steps {β γ : Type} {R : β → γ → Prop} {xs : List β} {ys : List γ} (h : List.Forall₂ R xs ys) :
    List.Forall₂ (fun step step' => R step.1 step'.1 ∧ R step.2 step'.2) (steps xs) (steps ys) := by
  induction h with
  | nil => exact .nil
  | cons hxy hrest ih =>
    cases hrest with
    | nil => exact .nil
    | cons hxy' _ => exact .cons ⟨hxy, hxy'⟩ ih

variable {poses poses' : List (Transform Float32)}

/-- The sum of the turns does not see the signs of the rotations if none of them is a half turn. -/
theorem alike_totalTurn (hsmall : ∀ q ∈ poses, q.rotation.Within 30)
    (hflip : List.Forall₂ (fun q q' => Quat.Flipped q.rotation q'.rotation) poses poses')
    (hhalf : ∀ step ∈ steps poses, ¬Quat.HalfTurn step.1.rotation step.2.rotation) :
    Alike (totalTurn poses) (totalTurn poses') := by
  apply alike_sum
  · rw [List.forall₂_map_left_iff, List.forall₂_map_right_iff]
    refine List.Forall₂.imp ?_ ((List.forall₂_and_left _ _).mpr ⟨fun step hstep => hstep, forall₂_steps hflip⟩)
    rintro step step' ⟨hstep, hprevious, hcurrent⟩
    obtain ⟨h1, h2⟩ := mem_of_mem_steps hstep
    exact Quat.alike_turn (hsmall _ h1) (hsmall _ h2) hprevious hcurrent (hhalf step hstep)
  · intro x hx
    obtain ⟨step, hstep, rfl⟩ := List.mem_map.mp hx
    obtain ⟨h1, h2⟩ := mem_of_mem_steps hstep
    exact (Quat.small_turn (hsmall _ h1) (hsmall _ h2)).1

end Sums

/-! ## The evaluators -/

namespace Evaluator

variable {p p' : Playback} {w w' : World} {m m' : Motion Float32}

/-- Let two motions of one duration be sampled so that each rotation of the second is that of the first or its negative, whichever
of the samples are negated, and let no component be larger than two to the thirtieth. If no step is a half turn, the turn angle and
the turn speed of the two compare as equal. -/
theorem turn_of_flipped (s s' : Settings) (hm : (p.resolve w).result = .ok m) (hm' : (p'.resolve w').result = .ok m')
    (hd : m'.duration = m.duration) (hsmall : ∀ q ∈ (m.plan s).poses m.pose, q.rotation.Within 30)
    (hflip : List.Forall₂ (fun q q' => Quat.Flipped q.rotation q'.rotation) ((m.plan s).poses m.pose)
      ((m'.plan s').poses m'.pose))
    (hhalf : ∀ step ∈ steps ((m.plan s).poses m.pose), ¬Quat.HalfTurn step.1.rotation step.2.rotation) :
    ∀ e ∈ [turnAngle, turnSpeed], ∃ v v', (e.evaluate p s w).result = .ok v ∧ (e.evaluate p' s' w').result = .ok v' ∧
      (v == v') = true := by
  have halike := alike_totalTurn hsmall hflip hhalf
  have hfin : (totalTurn ((m.plan s).poses m.pose)).isFinite = true := by
    refine (small_totalTurn_of_within (fun step hstep => ?_) (length_steps_poses (Plan.count_ofRate_le _ _))).1
    obtain ⟨h1, h2⟩ := mem_of_mem_steps hstep
    exact ⟨hsmall _ h1, hsmall _ h2⟩
  intro e he
  refine ⟨_, _, e.result_evaluate s hm, e.result_evaluate s' hm', ?_⟩
  rw [Motion.measure, Motion.measure, hd]
  rw [List.mem_cons, List.mem_singleton] at he
  by_cases hpos : 0 < m.duration
  · rcases he with rfl | rfl <;> simp only [measure, if_pos hpos]
    · exact halike.beq (not_isNaN_of_isFinite hfin)
    · exact (halike.div hpos).beq (not_isNaN_div_of_pos hfin hpos)
  · rcases he with rfl | rfl <;> simp only [measure, if_neg hpos] <;> exact beq_zero_iff.mpr exactly_zero

/-- A motion on the spot in three rotations, none of length one but the first. -/
def spin (time : Float32) : Quat Float32 := if time = 0 then ⟨0, 0, 0, 1⟩ else if time = 0.5 then ⟨0, 1, 2, 2⟩ else ⟨0, 0, 3, 1⟩

/-- The same motion, the second rotation negated. -/
def spinFlipped (time : Float32) : Quat Float32 := if time = 0.5 then -spin time else spin time

theorem within_spin (time : Float32) : (spin time).Within 30 := by
  have hsmall : ∀ {n : ℕ}, n ≤ 2 ^ 2 → Small 30 (Float32.ofNat n) :=
    fun hn => (small_ofNat hn (by norm_num)).mono (by norm_num)
  unfold spin
  split_ifs <;> exact ⟨hsmall (by norm_num), hsmall (by norm_num), hsmall (by norm_num), hsmall (by norm_num)⟩

/-- Of the two steps both start or end at the negated rotation, and the turns are the same. -/
theorem turn_of_flipped_spin : spinFlipped 0.5 ≠ spin 0.5 ∧
    ∀ e ∈ [turnAngle, turnSpeed], ∃ v v',
      (e.evaluate (riding 2 fun time => .ofRotation (spin time)) {} (rider 0)).result = .ok v ∧
      (e.evaluate (riding 2 fun time => .ofRotation (spinFlipped time)) {} (rider 0)).result = .ok v' ∧ (v == v') = true := by
  have hm : ((riding 2 fun time => .ofRotation (spin time)).resolve (rider 0)).result =
      .ok (ride 2 (fun time => .ofRotation (spin time)) 0) := rfl
  have hm' : ((riding 2 fun time => .ofRotation (spinFlipped time)).resolve (rider 0)).result =
      .ok (ride 2 (fun time => .ofRotation (spinFlipped time)) 0) := rfl
  refine ⟨by decide +kernel, turn_of_flipped {} {} hm hm' rfl ?_ ?_ ?_⟩
  · intro q hq
    obtain ⟨t, -, rfl⟩ := List.mem_map.mp hq
    exact within_spin t
  · show List.Forall₂ _ (List.map _ _) (List.map _ _)
    rw [List.forall₂_map_left_iff, List.forall₂_map_right_iff]
    refine List.forall₂_same.mpr fun t _ => ?_
    show Quat.Flipped (spin t) (spinFlipped t)
    unfold spinFlipped
    split_ifs
    · exact Or.inr rfl
    · exact Or.inl rfl
  · decide +kernel

end Evaluator

end Gait
