import Gait.Proofs.Binary32.Signs
import Gait.Proofs.Features.Dependence
import Gait.Proofs.Features.Idle
import Gait.Proofs.Features.Turns
import Gait.Proofs.Sampling.Counts

/-!
# Features that are zero

There are two reasons for a feature to be zero. A motion whose duration or rate leaves nothing to sample, or a single sample, has
no steps, and then no pose has a part in the value, whatever it is. And a joint that is at one and the same place whenever it is
looked at makes steps that go nowhere: a rotation of any length times its own conjugate cancels component by component, though
each product is rounded, because the products come in pairs of opposite signs.
-/

namespace Gait

open Binary32

/-! ## The turn from a rotation to itself -/

namespace Quat

variable {q : Quat Float32}

/-- The imaginary part of a rotation times its own conjugate cancels. -/
theorem exactly_mul_conj (hq : q.Within 60) :
    Exactly 0 (q * q.conj).x ∧ Exactly 0 (q * q.conj).y ∧ Exactly 0 (q * q.conj).z := by
  obtain ⟨hx, hy, hz, hw⟩ := hq
  have hmirror : ∀ {a b c d : Float32}, Small 60 a → Small 60 b → Small 60 c → Small 60 d →
      toReal c * toReal d = -(toReal a * toReal b) → Mirrored .negative (a * b) (c * d) := by
    intro a b c d ha hb hc hd h
    exact mirrored_mul ha.1 hb.1 hc.1 hd.1 (by rw [h]; simp [unit]) (ha.mul hb (by norm_num)).1
  have hsmall : ∀ {a b c d : Float32}, Small 60 a → Small 60 b → Small 60 c → Small 60 d → (a * b + c * d).isFinite = true := by
    intro a b c d ha hb hc hd
    exact ((ha.mul hb (by norm_num)).add (hc.mul hd (by norm_num)) (by norm_num)).1
  refine ⟨?_, ?_, ?_⟩
  · show Exactly 0 ((q.w * -q.x + q.x * q.w) + (q.y * -q.z + q.z * - -q.y))
    exact (hmirror hw hx.neg hx hw (by rw [toReal_neg]; ring)).exactly_add.add_of_zero
      (hmirror hy hz.neg hz hy.neg.neg (by simp only [toReal_neg]; ring)).exactly_add
  · show Exactly 0 ((q.w * -q.y + q.x * - -q.z) + (q.y * q.w + q.z * -q.x))
    have h1 := hmirror hw hy.neg hy hw (by rw [toReal_neg]; ring)
    have h2 := hmirror hx hz.neg.neg hz hx.neg (by simp only [toReal_neg]; ring)
    exact (h1.add h2 (hsmall hw hy.neg hx hz.neg.neg)).exactly_add
  · show Exactly 0 ((q.w * -q.z + q.x * -q.y) + (q.y * - -q.x + q.z * q.w))
    have h1 := hmirror hw hz.neg hz hw (by rw [toReal_neg]; ring)
    have h2 := hmirror hx hy.neg hy hx.neg.neg (by simp only [toReal_neg]; ring)
    -- the two terms come back in the other order
    refine (mirrored_add h1.left h2.left h2.right h1.right ?_ (hsmall hw hz.neg hx hy.neg)).exactly_add
    rw [h1.value_eq, h2.value_eq]
    ring

/-- A rotation does not turn away from itself, of whatever length it is. -/
theorem exactly_turn_self (hq : q.Within 60) : Exactly 0 (q.turn q) := by
  obtain ⟨hx, hy, hz⟩ := exactly_mul_conj hq
  have hw : (q * q.conj).w.isFinite = true := (hq.mul hq.conj le_rfl).2.2.2.1
  have htwo : (Float32.ofNat 2).isFinite = true := (float32_ofNat (by norm_num)).1
  have hsin := Exactly.mul_of_zero htwo ((Exactly.mul_of_zero hx.1 hy).add_of_zero (hz.zero_mul hw))
  have hcos := exactly_one.sub_of_zero (Exactly.mul_of_zero htwo
    ((Exactly.mul_of_zero hy.1 hy).add_of_zero (Exactly.mul_of_zero hz.1 hz)))
  have hpos : (0 : ℝ) < 1 := one_pos
  rw [← hcos.2] at hpos
  exact (exactly_atan2_of_zero hsin (Or.inl ((pos_iff hcos.1).mpr hpos))).neg_of_zero

end Quat

/-! ## Steps that go nowhere -/

section Steps

variable {still : Transform Float32} {poses : List (Transform Float32)} {duration : Float32} {plan : Plan Float32}
  {pose : Float32 → Transform Float32}

/-- All that is read off the step is zero. -/
structure AtRest (step : Transform Float32 × Transform Float32) : Prop where
  length : Exactly 0 (step.2.position - step.1.position).length
  turn : Exactly 0 (step.1.rotation.turn step.2.rotation)
  right : Exactly 0 ((step.2.position - step.1.position).dot Vec3.right)
  front : Exactly 0 ((step.2.position - step.1.position).dot Vec3.front)

theorem Vec3.exactly_length_sub_self {v : Vec3 Float32} (hv : v.IsFinite) : Exactly 0 (v - v).length := by
  have hsquare : ∀ {x : Float32}, x.isFinite = true → Exactly 0 ((x - x) * (x - x)) :=
    fun hx => Exactly.mul_of_zero (exactly_sub_self hx).1 (exactly_sub_self hx)
  exact (((hsquare hv.1).add_of_zero (hsquare hv.2.1)).add_of_zero (hsquare hv.2.2)).sqrt_of_zero

theorem Vec3.exactly_dot_sub_self {v axis : Vec3 Float32} (hv : v.IsFinite) (haxis : axis.IsFinite) :
    Exactly 0 ((v - v).dot axis) :=
  (((exactly_sub_self hv.1).zero_mul haxis.1).add_of_zero ((exactly_sub_self hv.2.1).zero_mul haxis.2.1)).add_of_zero
    ((exactly_sub_self hv.2.2).zero_mul haxis.2.2)

/-- A step from a finite transform to itself goes nowhere. -/
theorem atRest_self (hposition : still.position.IsFinite) (hrotation : still.rotation.Within 60) : AtRest (still, still) where
  length := Vec3.exactly_length_sub_self hposition
  turn := Quat.exactly_turn_self hrotation
  right := Vec3.exactly_dot_sub_self hposition ⟨isFinite_one, isFinite_zero, isFinite_zero⟩
  front := Vec3.exactly_dot_sub_self hposition ⟨isFinite_zero, isFinite_one, isFinite_zero⟩

/-- Poses that are all the same have no slope, finite or not. -/
theorem meanSlope_of_still (h : ∀ p ∈ poses, p = still) : meanSlope poses = 0 := by
  apply meanSlope_of_groundSteps
  apply groundSteps_eq_zero
  intro p hp q hq
  rw [h p hp, h q hq]
  exact Vec3.not_pos_groundLength (lost_sub_self _) (lost_sub_self _)

/-- What is added up over steps that go nowhere is zero. -/
theorem exactly_sum_steps {f : Transform Float32 × Transform Float32 → Float32}
    (h : ∀ step ∈ steps poses, Exactly 0 (f step)) : Exactly 0 (Scalar.sum ((steps poses).map f)) := by
  apply exactly_sum_of_zeros
  intro x hx
  obtain ⟨step, hstep, rfl⟩ := List.mem_map.mp hx
  exact h step hstep

/-- The features that are read off the samples are zero if no step goes anywhere and there is no slope. -/
theorem exactly_measure_of_atRest (hsteps : ∀ step ∈ steps (plan.poses pose), AtRest step)
    (hslope : meanSlope (plan.poses pose) = 0) {e : Evaluator} (he : e.isSampled = true) :
    Exactly 0 (e.measure duration plan pose) := by
  have hturn : Exactly 0 (totalTurn (plan.poses pose)) := exactly_sum_steps fun step hstep => (hsteps step hstep).turn
  unfold Evaluator.measure
  split_ifs with hpos
  · cases e with
    | moveSpeed => exact (exactly_sum_steps fun step hstep => (hsteps step hstep).length).div_of_pos hpos
    | turnSpeed => exact hturn.div_of_pos hpos
    | travelSlope =>
      simp only [hslope]
      exact exactly_zero
    | turnAngle => exact hturn
    | leftRightVelocity => exact (exactly_sum_steps fun step hstep => (hsteps step hstep).right).div_of_pos hpos
    | frontBackVelocity => exact (exactly_sum_steps fun step hstep => (hsteps step hstep).front).div_of_pos hpos
    | _ => cases he
  · exact exactly_zero

/-- The features of the whole journey are zero if it ends where it starts. -/
theorem exactly_measure_of_return (hstart : (pose 0).position = still.position)
    (hend : (pose duration).position = still.position) (hstill : still.position.IsFinite) {e : Evaluator}
    (he : e.isSampled = false) : Exactly 0 (e.measure duration plan pose) := by
  have hway : displacement duration pose = still.position - still.position := by rw [displacement, hstart, hend]
  unfold Evaluator.measure
  split_ifs
  · cases e with
    | unselected => exact exactly_zero
    | travelDirection =>
      simp only [hway]
      exact exactly_atan2_of_zero (exactly_sub_self hstill.1) (Or.inr (parts_sub_self hstill.2.1))
    | travelDistance =>
      simp only [hway]
      exact Vec3.exactly_length_sub_self hstill
    | _ => cases he
  · exact exactly_zero

end Steps

/-! ## Nothing to sample -/

section Degenerate

variable {rate duration : Float32} {pose : Float32 → Transform Float32} {plan : Plan Float32}

/-- There is at most one sample if the rate or the duration is not usable, or their product rounds to none. -/
theorem Plan.count_ofRate_le_one (h : duration.isFinite = false ∨ (rate.isFinite = false ∨ rate ≤ 0) ∨
    (wanted rate duration == 0) = true) : (ofRate rate duration).count.toNat ≤ 1 := by
  by_cases husable : isUsable rate = true ∧ isUsable duration = true
  · obtain ⟨hr, hd⟩ := husable
    have hr' := isUsable_iff.mp hr
    have hd' := isUsable_iff.mp hd
    have hzero : Exactly 0 (wanted rate duration) := by
      rcases h with hfin | (hfin | hle) | hzero
      · rw [hd'.1] at hfin
        cases hfin
      · rw [hr'.1] at hfin
        cases hfin
      · rw [le_iff hr'.1 isFinite_zero, toReal_zero] at hle
        exact absurd hr'.2 (not_lt.mpr hle)
      · exact beq_zero_iff.mp hzero
    have hnone := intervals_of_exactly (w := 0) (by rw [Nat.cast_zero]; exact hzero)
    rw [toNat_count_ofRate hr hd, hnone]
    exact Nat.le_refl 1
  · rw [ofRate_of_not_isUsable husable]
    exact Nat.zero_le 1

/-- Without a positive duration every feature is the positive zero. -/
theorem Evaluator.measure_of_not_pos (h : ¬0 < duration) (e : Evaluator) : e.measure duration plan pose = 0 := if_neg h

/-- With at most one sample the features that are read off the samples are zero. -/
theorem exactly_measure_of_count_le_one (hcount : plan.count.toNat ≤ 1) {e : Evaluator} (he : e.isSampled = true) :
    Exactly 0 (e.measure duration plan pose) := by
  have hlength : (plan.poses pose).length ≤ 1 := by
    rw [Plan.length_poses]
    exact hcount
  cases hposes : plan.poses pose with
  | nil => exact exactly_measure_of_atRest (by simp [hposes]) (by rw [hposes]; rfl) he
  | cons first rest =>
    obtain rfl : rest = [] := by
      rw [hposes, List.length_cons] at hlength
      exact List.eq_nil_of_length_eq_zero (by omega)
    exact exactly_measure_of_atRest (by simp [hposes]) (by rw [hposes]; rfl) he

end Degenerate

/-! ## The evaluators -/

namespace Evaluator

variable {p : Playback} {s : Settings} {w : World} {m : Motion Float32}

/-- A motion whose duration is no number, or no positive one, has only zeros. A motion whose duration is infinite, or whose rate,
as the settings correct it, is not finite or not positive, or whose rate and duration have a product that rounds to zero, has zeros
for the features that are read off samples. None of this depends on a pose. -/
theorem evaluate_of_degenerate (s : Settings) (hm : (p.resolve w).result = .ok m) :
    (IsNaN m.duration ∨ m.duration ≤ 0 → ∀ e : Evaluator, (e.evaluate p s w).result = .ok 0) ∧
    ((0 < m.duration ∧ m.duration.isFinite = false) ∨
        ((s.rateFor m.rate).isFinite = false ∨ s.rateFor m.rate ≤ 0) ∨
        (Plan.wanted (s.rateFor m.rate) m.duration == 0) = true →
      ∀ e ∈ [moveSpeed, turnSpeed, travelSlope, turnAngle, leftRightVelocity, frontBackVelocity],
        ∃ v, (e.evaluate p s w).result = .ok v ∧ (v == 0) = true) := by
  constructor
  · intro hduration e
    have hnot : ¬0 < m.duration := by
      intro hpos
      rcases hduration with hnan | hle
      · exact not_isNaN_of_lt hpos hnan
      · exact Binary32.not_le_of_lt hpos hle
    rw [e.result_evaluate s hm, Motion.measure, measure_of_not_pos hnot]
  · intro h e he
    have hcount : (m.plan s).count.toNat ≤ 1 := by
      apply Plan.count_ofRate_le_one
      rcases h with ⟨-, hinf⟩ | h
      · exact Or.inl hinf
      · exact Or.inr h
    have hsampled : e.isSampled = true := by
      simp only [List.mem_cons, List.not_mem_nil, or_false] at he
      rcases he with rfl | rfl | rfl | rfl | rfl | rfl <;> rfl
    exact ⟨_, e.result_evaluate s hm, beq_zero_iff.mpr (exactly_measure_of_count_le_one hcount hsampled)⟩

/-- A place of which nothing can be told. -/
def nowhere : Transform Float32 := ⟨⟨0 / 0, 1 / 0, 1⟩, ⟨1 / 0, 0 / 0, 0, 1⟩⟩

/-- A motion that is nowhere, played by the only actor of a world. -/
def losing (duration rate : Float32) : Playback := ⟨some ⟨duration, rate, fun _ _ _ _ => nowhere⟩, some ⟨some 0⟩, false⟩

/-- The motion that such a playback stands for. -/
def loss (duration rate : Float32) : Motion Float32 :=
  ⟨⟨duration, rate, fun _ _ _ _ => nowhere⟩, ⟨"rider", ⟨#[]⟩, #[]⟩, 0, false⟩

theorem resolve_losing (duration rate : Float32) : ((losing duration rate).resolve (rider 0)).result = .ok (loss duration rate) :=
  rfl

/-- Nowhere for no time, for ever, for a second without a rate, and for less than half a frame. -/
theorem evaluate_of_degenerate_losing :
    (∀ e : Evaluator, (e.evaluate (losing (0 / 0) 30) {} (rider 0)).result = .ok 0) ∧
    (∃ v, (moveSpeed.evaluate (losing (1 / 0) 30) {} (rider 0)).result = .ok v ∧ (v == 0) = true) ∧
    (∃ v, (turnAngle.evaluate (losing 1 0) { fallbackRate := 0 / 0 } (rider 0)).result = .ok v ∧ (v == 0) = true) ∧
    ∃ v, (frontBackVelocity.evaluate (losing 1 0.25) {} (rider 0)).result = .ok v ∧ (v == 0) = true :=
  ⟨(evaluate_of_degenerate {} (resolve_losing (0 / 0) 30)).1 (Or.inl (by rfl)),
    (evaluate_of_degenerate {} (resolve_losing (1 / 0) 30)).2 (Or.inl (by decide +kernel)) _ (by simp),
    (evaluate_of_degenerate { fallbackRate := 0 / 0 } (resolve_losing 1 0)).2 (Or.inr (Or.inl (by decide +kernel))) _ (by simp),
    (evaluate_of_degenerate {} (resolve_losing 1 0.25)).2 (Or.inr (Or.inr (by decide +kernel))) _ (by simp)⟩

/-- A joint that has one and the same transform whenever it is sampled, at the start and at the end has no feature, if no component
of the transform is very large. The rotation need not have length one, and the duration and the rate may be any. -/
theorem evaluate_of_still (s : Settings) {still : Transform Float32} (hposition : still.position.Within 60)
    (hrotation : still.rotation.Within 60) (hm : (p.resolve w).result = .ok m)
    (hstill : ∀ t ∈ 0 :: m.duration :: (m.plan s).times, m.pose t = still) (e : Evaluator) :
    ∃ v, (e.evaluate p s w).result = .ok v ∧ (v == 0) = true := by
  refine ⟨_, e.result_evaluate s hm, beq_zero_iff.mpr ?_⟩
  have hfinite : still.position.IsFinite := ⟨hposition.1.1, hposition.2.1.1, hposition.2.2.1⟩
  have hposes : ∀ q ∈ (m.plan s).poses m.pose, q = still := by
    intro q hq
    obtain ⟨t, ht, rfl⟩ := List.mem_map.mp hq
    exact hstill t (List.mem_cons_of_mem _ (List.mem_cons_of_mem _ ht))
  cases he : e.isSampled with
  | true =>
    refine exactly_measure_of_atRest (fun step hstep => ?_) (meanSlope_of_still hposes) he
    obtain ⟨h1, h2⟩ := mem_of_mem_steps hstep
    obtain rfl : step = (still, still) := Prod.ext (hposes _ h1) (hposes _ h2)
    exact atRest_self hfinite hrotation
  | false =>
    have hstart : (m.pose 0).position = still.position := by rw [hstill 0 (by simp)]
    have hend : (m.pose m.duration).position = still.position := by rw [hstill m.duration (by simp)]
    exact exactly_measure_of_return hstart hend hfinite he

/-- A place, with a rotation that is far from length one. -/
def perch : Transform Float32 := ⟨⟨5, 7, 3⟩, ⟨1, 2, 3, 4⟩⟩

/-- A joint that is there, but for a leap that no sample meets. -/
def twitch (time : Float32) : Transform Float32 := if time = 0.25 then .ofPosition ⟨9, 9, 9⟩ else perch

/-- The joint is taken for a still one. -/
theorem evaluate_of_still_twitch : ((riding 2 twitch).resolve (rider 0)).result = .ok (ride 2 twitch 0) ∧ twitch 0.25 ≠ perch ∧
    ∀ e : Evaluator, ∃ v, (e.evaluate (riding 2 twitch) {} (rider 0)).result = .ok v ∧ (v == 0) = true := by
  have hm : ((riding 2 twitch).resolve (rider 0)).result = .ok (ride 2 twitch 0) := rfl
  have hsmall : ∀ {n : ℕ}, n ≤ 2 ^ 4 → Small 60 (Float32.ofNat n) :=
    fun hn => (small_ofNat hn (by norm_num)).mono (by norm_num)
  have hposition : perch.position.Within 60 := ⟨hsmall (by norm_num), hsmall (by norm_num), hsmall (by norm_num)⟩
  have hrotation : perch.rotation.Within 60 :=
    ⟨hsmall (by norm_num), hsmall (by norm_num), hsmall (by norm_num), hsmall (by norm_num)⟩
  have hstill : ∀ t ∈ 0 :: (ride 2 twitch 0).duration :: ((ride 2 twitch 0).plan {}).times, (ride 2 twitch 0).pose t = perch := by
    decide +kernel
  exact ⟨hm, by decide +kernel, evaluate_of_still {} hposition hrotation hm hstill⟩

end Evaluator

end Gait
