import Gait.Proofs.Sampling.Counts
import Gait.Proofs.Features.Distances
import Gait.Proofs.Features.Turns

/-!
# Features of tame poses

Poses are tame if each position is ordinary or the bound one and each rotation is ordinary or broken. Over a plan with ordinary
times the two features of turns are finite exactly if no rotation at an end of a step is broken, and the others if every distance
that is measured has a finite square.
-/

namespace Gait

open Binary32

/-! ## Steps and times -/

/-- The plan for a duration of ordinary size has as many samples as there may be intervals, and one more, at ordinary times. -/
theorem Plan.small_times {rate duration : Float32} (hr : isUsable rate = true) (hd : isUsable duration = true)
    (hlong : Small 20 duration) :
    (ofRate rate duration).count.toNat ≤ 2 ^ 20 + 1 ∧ ∀ t ∈ (ofRate rate duration).times, Small 40 t := by
  have hn := intervals_le rate duration
  have hstep : Small 20 (ofRate rate duration).step := by
    rw [ofRate_of_isUsable hr hd]
    by_cases h0 : intervals rate duration = 0
    · simp only [if_pos h0]
      exact hlong
    · simp only [if_neg h0]
      obtain ⟨hfin, hval⟩ := uint32_toFloat32 (n := intervals rate duration) (by omega)
      have hone : ((2 : ℝ) ^ 0)⁻¹ ≤ toReal (intervals rate duration).toFloat32 := by
        rw [hval, pow_zero, inv_one]
        exact_mod_cast intervals_pos h0
      exact hlong.div hfin hone (by norm_num)
  refine ⟨count_ofRate_le rate duration, ?_⟩
  intro t ht
  obtain ⟨i, hi, rfl⟩ := List.mem_map.mp ht
  have hi' := List.mem_range.mp hi
  have hcount := count_ofRate_le rate duration
  exact (small_ofNat (k := 20) (by omega) (by norm_num)).mul hstep (by norm_num)

/-- A sum of at most as many terms as a motion has steps. -/
theorem small_sum {k : ℕ} {xs : List Float32} (h : ∀ x ∈ xs, Small k x) (hlength : xs.length ≤ 2 ^ 20) (hk : k ≤ 100) :
    Small (20 + k) (Scalar.sum xs) := by
  have hfold : ∀ (xs : List Float32) (n : ℕ) (start : Float32), (∀ x ∈ xs, Small k x) → n + xs.length ≤ 2 ^ 24 →
      Total k n start → Total k (n + xs.length) (xs.foldl (· + ·) start) := by
    intro xs
    induction xs with
    | nil => exact fun n start _ _ h => h
    | cons x xs ih =>
      intro n start hxs hn hstart
      rw [List.length_cons] at hn ⊢
      have hnext := ih (n + 1) (start + x) (fun y hy => hxs y (List.mem_cons_of_mem _ hy)) (by omega)
        (hstart.add (hxs x List.mem_cons_self) (by omega) hk)
      rwa [Nat.add_assoc, Nat.add_comm 1] at hnext
  have hzero : Total k 0 (-(Float32.ofNat 0)) := by
    have h0 : toReal (Float32.ofNat 0) = 0 := toReal_zero
    refine ⟨by rw [neg_isFinite]; exact isFinite_zero, ?_⟩
    rw [toReal_neg, h0, neg_zero, abs_zero]
    positivity
  have hall := hfold xs 0 _ h (by omega) hzero
  rw [zero_add] at hall
  exact hall.small hlength

/-- Turns between rotations that are not very large add up to an ordinary number. -/
theorem small_totalTurn_of_within {poses : List (Transform Float32)}
    (h : ∀ step ∈ steps poses, step.1.rotation.Within 30 ∧ step.2.rotation.Within 30) (hlength : (steps poses).length ≤ 2 ^ 20) :
    Small 25 (totalTurn poses) := by
  refine small_sum (k := 5) ?_ (by rw [List.length_map]; exact hlength) (by norm_num)
  intro x hx
  obtain ⟨step, hstep, rfl⟩ := List.mem_map.mp hx
  exact Quat.small_turn (h step hstep).1 (h step hstep).2

/-! ## Features of tame poses -/

/-- Poses as ordinary clips have them: at all times a position that is ordinary or the bound one, and a rotation that is
ordinary unless it vanishes at that time, and then broken. -/
structure Tame (bound : Vec3 Float32) (vanishes : Float32 → Prop) (pose : Float32 → Transform Float32) : Prop where
  finite : bound.IsFinite
  position (time : Float32) (h : Small 40 time) : Vec3.Placed bound (pose time).position
  rotation (time : Float32) (h : Small 40 time) :
    (vanishes time ∧ (pose time).rotation.Broken) ∨ (¬ vanishes time ∧ (pose time).rotation.Within 16)

section Features

variable {bound : Vec3 Float32} {vanishes : Float32 → Prop} {pose : Float32 → Transform Float32} {duration : Float32}
  {plan : Plan Float32}

/-- A sum over the steps of a motion is over the steps from time to time. -/
theorem mem_steps_poses {p : Transform Float32 × Transform Float32} :
    p ∈ steps (plan.poses pose) ↔ ∃ step ∈ steps plan.times, (pose step.1, pose step.2) = p := by
  rw [Plan.poses, steps_map, List.mem_map]
  rfl

theorem length_steps_poses (hcount : plan.count.toNat ≤ 2 ^ 20 + 1) : (steps (plan.poses pose)).length ≤ 2 ^ 20 := by
  rw [length_steps, Plan.length_poses]
  exact Nat.sub_le_iff_le_add.2 hcount

section Sampled

variable (hpose : Tame bound vanishes pose) (hcount : plan.count.toNat ≤ 2 ^ 20 + 1) (htimes : ∀ t ∈ plan.times, Small 40 t)
include hpose hcount htimes

/-- The turns add up to an ordinary number if no rotation vanishes at an end of a step. -/
theorem small_totalTurn (h : ∀ step ∈ steps plan.times, ¬ vanishes step.1 ∧ ¬ vanishes step.2) :
    Small 25 (totalTurn (plan.poses pose)) := by
  refine small_totalTurn_of_within ?_ (length_steps_poses hcount)
  intro p hp
  obtain ⟨step, hstep, rfl⟩ := mem_steps_poses.mp hp
  obtain ⟨h1, h2⟩ := mem_of_mem_steps hstep
  obtain ⟨hv1, hv2⟩ := h step hstep
  have hprevious := ((hpose.rotation _ (htimes _ h1)).resolve_left (fun h => hv1 h.1)).2
  have hcurrent := ((hpose.rotation _ (htimes _ h2)).resolve_left (fun h => hv2 h.1)).2
  exact ⟨hprevious.mono (by norm_num), hcurrent.mono (by norm_num)⟩

/-- The turns do not add up to a finite number if a rotation vanishes. -/
theorem isFinite_totalTurn_iff : (totalTurn (plan.poses pose)).isFinite = true ↔
    ∀ step ∈ steps plan.times, ¬ vanishes step.1 ∧ ¬ vanishes step.2 := by
  constructor
  · intro h step hstep
    obtain ⟨h1, h2⟩ := mem_of_mem_steps hstep
    have hturn := isFinite_of_sum h _ (List.mem_map_of_mem (mem_steps_poses.mpr ⟨step, hstep, rfl⟩))
    have hbroken : ¬ ((pose step.1).rotation.Broken ∨ (pose step.2).rotation.Broken) := by
      intro hbroken
      exact not_isNaN_of_isFinite hturn (Quat.isNaN_turn_of_broken hbroken)
    rw [not_or] at hbroken
    exact ⟨((hpose.rotation _ (htimes _ h1)).resolve_left (fun h => hbroken.1 h.2)).1,
      ((hpose.rotation _ (htimes _ h2)).resolve_left (fun h => hbroken.2 h.2)).1⟩
  · exact fun h => (small_totalTurn hpose hcount htimes h).1

omit hpose htimes in
/-- The lengths of the steps add up to an ordinary number if each step has one. -/
theorem small_pathLength (h : ∀ step ∈ steps plan.times, Vec3.Spans (pose step.1).position (pose step.2).position) :
    Small 84 (pathLength (plan.poses pose)) := by
  refine small_sum (k := 64) ?_ (by rw [List.length_map]; exact length_steps_poses hcount) (by norm_num)
  intro x hx
  obtain ⟨p, hp, rfl⟩ := List.mem_map.mp hx
  obtain ⟨step, hstep, rfl⟩ := mem_steps_poses.mp hp
  exact Vec3.small_length (h step hstep)

omit hpose htimes in
theorem isFinite_pathLength_iff : (pathLength (plan.poses pose)).isFinite = true ↔
    ∀ step ∈ steps plan.times, Vec3.Spans (pose step.1).position (pose step.2).position := by
  constructor
  · intro h step hstep
    have hlength := isFinite_of_sum h _ (List.mem_map_of_mem (mem_steps_poses.mpr ⟨step, hstep, rfl⟩))
    exact Vec3.isFinite_length_iff.mp hlength
  · exact fun h => (small_pathLength hcount h).1

omit hpose htimes in
/-- The parts of the steps along an axis add up to an ordinary number if each step has a length. -/
theorem small_distanceAlong {axis : Vec3 Float32} (haxis : axis.Within 0)
    (h : ∀ step ∈ steps plan.times, Vec3.Spans (pose step.1).position (pose step.2).position) :
    Small 86 (distanceAlong axis (plan.poses pose)) := by
  refine small_sum (k := 66) ?_ (by rw [List.length_map]; exact length_steps_poses hcount) (by norm_num)
  intro x hx
  obtain ⟨p, hp, rfl⟩ := List.mem_map.mp hx
  obtain ⟨step, hstep, rfl⟩ := mem_steps_poses.mp hp
  exact Vec3.small_dot_axis (Vec3.within_of_isFinite_dot (h step hstep)) haxis

/-- The mean slope is always an ordinary number. -/
theorem small_meanSlope : Small 26 (meanSlope (plan.poses pose)) := by
  have hplaced : ∀ p ∈ plan.poses pose, Vec3.Placed bound p.position := by
    intro p hp
    obtain ⟨t, ht, rfl⟩ := List.mem_map.mp hp
    exact hpose.position t (htimes t ht)
  have hlength : (plan.poses pose).length ≤ 2 ^ 20 + 1 := by
    rw [Plan.length_poses]
    exact hcount
  unfold meanSlope
  cases hposes : plan.poses pose with
  | nil => exact small_zero 26
  | cons first rest =>
    rw [hposes] at hplaced hlength
    rw [List.length_cons] at hlength
    have hstart : (⟨first.position, 0, 0⟩ : Climb Float32).Bounded bound := by
      refine ⟨hplaced first List.mem_cons_self, isFinite_zero, ?_⟩
      have h0 : toReal (Float32.ofNat 0) = 0 := toReal_zero
      show |toReal (Float32.ofNat 0)| ≤ _
      rw [h0, abs_zero]
      positivity
    have hrest : ∀ p ∈ rest.map (·.position), Vec3.Placed bound p := by
      intro p hp
      obtain ⟨t, ht, rfl⟩ := List.mem_map.mp hp
      exact hplaced t (List.mem_cons_of_mem _ ht)
    obtain ⟨hclimb, hle⟩ := Climb.Bounded.foldl hpose.finite hrest hstart (by rw [List.length_map]; simp only; omega)
    rw [List.length_map] at hle
    simp only at hle ⊢
    split_ifs with hnone
    · exact small_zero 26
    · have hsmall := hclimb.total.small (j := 21) (by omega)
      obtain ⟨hfin, hval⟩ := float32_ofNat (n := ((rest.map (·.position)).foldl Climb.add ⟨first.position, 0, 0⟩).count) (by omega)
      have hone : ((2 : ℝ) ^ 0)⁻¹ ≤
          toReal (Float32.ofNat ((rest.map (·.position)).foldl Climb.add ⟨first.position, 0, 0⟩).count) := by
        rw [hval, pow_zero, inv_one]
        exact_mod_cast Nat.one_le_iff_ne_zero.mpr hnone
      exact hsmall.div hfin hone (by norm_num)

end Sampled

/-- The direction is always an ordinary number. -/
theorem small_direction (hpose : Tame bound vanishes pose) (hd : Small 40 duration) :
    Small 5 (atan2 (displacement duration pose).x (displacement duration pose).y) := by
  obtain ⟨hx, hy, -⟩ := Vec3.isFinite_sub hpose.finite (hpose.position 0 (small_zero 40)) (hpose.position duration hd)
  exact small_atan2 (not_isNaN_of_isFinite hx) (not_isNaN_of_isFinite hy)

section Measured

variable (hpose : Tame bound vanishes pose) (hcount : plan.count.toNat ≤ 2 ^ 20 + 1) (htimes : ∀ t ∈ plan.times, Small 40 t)
  (hd : Between (1 / 2 ^ 10) (2 ^ 20) duration)
include hd

theorem isFinite_div_duration {k : ℕ} {x : Float32} (hx : Small k x) (hk : k + 10 ≤ 127) : (x / duration).isFinite = true :=
  (hx.div hd.1 (by rw [← one_div]; exact hd.2.1) hk).1

theorem duration_pos : 0 < duration := (pos_iff hd.1).mpr (lt_of_lt_of_le (by positivity) hd.2.1)

theorem small_duration : Small 20 duration := hd.small (by norm_num) le_rfl

include hpose hcount htimes

/-- The two features of turns are finite exactly if no rotation vanishes at an end of a step. -/
theorem isFinite_measure_turn_iff {e : Evaluator} (he : e = .turnSpeed ∨ e = .turnAngle) :
    (e.measure duration plan pose).isFinite = true ↔ ∀ step ∈ steps plan.times, ¬ vanishes step.1 ∧ ¬ vanishes step.2 := by
  have hiff := isFinite_totalTurn_iff hpose hcount htimes
  rcases he with rfl | rfl <;> simp only [Evaluator.measure, if_pos (duration_pos hd)]
  · exact ⟨fun h => hiff.mp (isFinite_of_div h),
      fun h => isFinite_div_duration hd (small_totalTurn hpose hcount htimes h) (by norm_num)⟩
  · exact hiff

/-- The other features are finite if every distance that is measured has a finite square. -/
theorem isFinite_measure_of_spans
    (hspans : ∀ step ∈ steps plan.times, Vec3.Spans (pose step.1).position (pose step.2).position)
    (htravel : Vec3.Spans (pose 0).position (pose duration).position) {e : Evaluator} (he : ¬ (e = .turnSpeed ∨ e = .turnAngle)) :
    (e.measure duration plan pose).isFinite = true := by
  cases e <;> simp only [Evaluator.measure, if_pos (duration_pos hd)]
  case unselected => exact isFinite_zero
  case moveSpeed => exact isFinite_div_duration hd (small_pathLength hcount hspans) (by norm_num)
  case turnSpeed => exact absurd (Or.inl rfl) he
  case travelDirection => exact (small_direction hpose ((small_duration hd).mono (by norm_num))).1
  case travelSlope => exact (small_meanSlope hpose hcount htimes).1
  case turnAngle => exact absurd (Or.inr rfl) he
  case travelDistance => exact Vec3.isFinite_length_iff.mpr htravel
  case leftRightVelocity =>
    exact isFinite_div_duration hd (small_distanceAlong hcount ⟨small_one 0, small_zero 0, small_zero 0⟩ hspans) (by norm_num)
  case frontBackVelocity =>
    exact isFinite_div_duration hd (small_distanceAlong hcount ⟨small_zero 0, small_one 0, small_zero 0⟩ hspans) (by norm_num)

/-- All features are finite exactly if no rotation vanishes at an end of a step and every distance that is measured has a finite
square. -/
theorem isFinite_measure_iff : (∀ e : Evaluator, (e.measure duration plan pose).isFinite = true) ↔
    (∀ step ∈ steps plan.times, ¬ vanishes step.1 ∧ ¬ vanishes step.2) ∧
      (∀ step ∈ steps plan.times, Vec3.Spans (pose step.1).position (pose step.2).position) ∧
      Vec3.Spans (pose 0).position (pose duration).position := by
  have hturn := fun e he => isFinite_measure_turn_iff (e := e) hpose hcount htimes hd he
  constructor
  · intro h
    have hspeed := h .moveSpeed
    have htravel := h .travelDistance
    simp only [Evaluator.measure, if_pos (duration_pos hd)] at hspeed htravel
    exact ⟨(hturn .turnAngle (Or.inr rfl)).mp (h _), (isFinite_pathLength_iff hcount).mp (isFinite_of_div hspeed),
      Vec3.isFinite_length_iff.mp htravel⟩
  · rintro ⟨hturns, hspans, htravel⟩ e
    by_cases he : e = .turnSpeed ∨ e = .turnAngle
    · exact (hturn e he).mpr hturns
    · exact isFinite_measure_of_spans hpose hcount htimes hd hspans htravel he

omit hcount in
/-- From a bound position that is not very far away every distance has a finite square. -/
theorem spans_of_bound (hbound : bound.Within 60) :
    (∀ step ∈ steps plan.times, Vec3.Spans (pose step.1).position (pose step.2).position) ∧
      Vec3.Spans (pose 0).position (pose duration).position := by
  have hwithin : ∀ time, Small 40 time → (pose time).position.Within 60 :=
    fun time htime => (hpose.position time htime).within hbound
  refine ⟨?_, Vec3.spans_of_within (hwithin 0 (small_zero 40)) (hwithin duration ((small_duration hd).mono (by norm_num)))⟩
  intro step hstep
  obtain ⟨h1, h2⟩ := mem_of_mem_steps hstep
  exact Vec3.spans_of_within (hwithin _ (htimes _ h1)) (hwithin _ (htimes _ h2))

end Measured

end Features

end Gait
