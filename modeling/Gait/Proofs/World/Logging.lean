import Mathlib
import Gait.Proofs.Sampling.Walk
import Gait.World.Evaluation

/-!
# What evaluating logs

Between the line about a motion joint that had to be chosen and the line with the value stand the lines of planning samples.
They come from making a sampler, and a sampler is made once and only where a feature that is read off samples is asked of a
motion with a positive duration: evaluators that make their samplers themselves, and walk them, come to the same values and the
same lines (`Motion.evaluate_eq`). Planning tells first of a rate that will not do and then of intervals that had to be capped, at
the rate that is used in the end. So all the lines of an evaluation can be told from the playback, the world and the settings
(`evaluate_log_lines`).
-/

namespace Gait

open Binary32

/-! ## Samplers made where they are needed -/

/-- The sampler of a motion, with the lines that choosing the rate and making the plan leave. -/
def Motion.sampler (m : Motion Float32) (s : Settings) : Action Sampler := do
  Action.log (s.rateForLog m.rate)
  Action.log (Plan.ofRateLog (s.rateFor m.rate) m.duration)
  return ⟨m, Plan.ofRate (s.rateFor m.rate) m.duration⟩

/-- What the steps of a sampler come to, added up on a walk. -/
def Sampler.total (sampler : Sampler) (term : Transform Float32 × Transform Float32 → Float32) : Float32 :=
  sampler.plan.gather sampler.motion.pose (fun sum step => sum + term step) (-0) (sampler.plan.setOut sampler.motion.pose)

/-- The value of a feature, with a sampler made for it if it is read off samples. For a motion without a positive duration
nothing is looked at. -/
def Motion.evaluate (m : Motion Float32) (e : Evaluator) (s : Settings) : Action Float32 :=
  if m.duration.isNaN || decide (m.duration ≤ 0) then return 0
  else
    match e with
    | .unselected => return 0
    | .moveSpeed => do
      let sampler ← m.sampler s
      return sampler.total (fun (previous, current) => (current.position - previous.position).length) / m.duration
    | .turnSpeed => do
      let sampler ← m.sampler s
      return sampler.total (fun (previous, current) => previous.rotation.turn current.rotation) / m.duration
    | .travelDirection =>
      let d := displacement m.duration m.pose
      return Scalar.atan2 d.x d.y
    | .travelSlope => do
      let sampler ← m.sampler s
      return meanSlope sampler.poses
    | .turnAngle => do
      let sampler ← m.sampler s
      return sampler.total (fun (previous, current) => previous.rotation.turn current.rotation)
    | .travelDistance => return (displacement m.duration m.pose).length
    | .leftRightVelocity => do
      let sampler ← m.sampler s
      return sampler.total (fun (previous, current) => (current.position - previous.position).dot Vec3.right) / m.duration
    | .frontBackVelocity => do
      let sampler ← m.sampler s
      return sampler.total (fun (previous, current) => (current.position - previous.position).dot Vec3.front) / m.duration

theorem Sampler.total_eq_sum (sampler : Sampler) (term : Transform Float32 × Transform Float32 → Float32) :
    sampler.total term = Scalar.sum ((Gait.steps sampler.poses).map term) :=
  (Plan.sum_steps_poses sampler.plan sampler.motion.pose term).symm

/-- Making samplers where they are needed comes to the value of the feature and to its lines, and leaves the world alone. -/
theorem Motion.evaluate_eq (m : Motion Float32) (e : Evaluator) (s : Settings) (w : World) :
    m.evaluate e s w = ⟨m.measure e s, w, m.measureLog e s⟩ := by
  have hguard : (m.duration.isNaN || decide (m.duration ≤ 0)) = true ↔ ¬0 < m.duration := by
    rw [Bool.or_eq_true, decide_eq_true_iff, isNaN_iff, isNaN_or_le_zero_iff]
  unfold Motion.evaluate Motion.measure Motion.measureLog Evaluator.measure
  by_cases hpos : 0 < m.duration
  · rw [if_neg (hguard.not.2 (not_not.2 hpos)), if_pos hpos]
    cases e <;>
      simp [Evaluator.isSampled, hpos, Motion.sampler, planLog, plan, Sampler.total_eq_sum, Sampler.poses, pathLength, totalTurn,
        distanceAlong]
  · rw [if_pos (hguard.2 hpos), if_neg hpos]
    simp [hpos]

/-! ## Lines under conditions -/

/-- The lines are the one given where a condition holds, and none where it does not. The line has the level given. -/
def LoggedIff (c : Prop) (level : LogLevel) (line : LogLine) (lines : List LogLine) : Prop :=
  line.level = level ∧ (c → lines = [line]) ∧ (¬c → lines = [])

section LoggedIff

variable {c c' : Prop} {level : LogLevel} {line : LogLine} {lines : List LogLine}

theorem loggedIff_ite {b : Bool} (hlevel : line.level = level) (hb : b = true ↔ c) :
    LoggedIff c level line (if b then [line] else []) :=
  ⟨hlevel, fun hc => if_pos (hb.2 hc), fun hc => if_neg (hb.not.2 hc)⟩

/-- What is logged under a condition, and only where another one holds, is logged where both do. -/
theorem LoggedIff.only (h : LoggedIff c level line lines) {b : Bool} (hb : b = true ↔ c') :
    LoggedIff (c' ∧ c) level line (if b then lines else []) := by
  obtain ⟨hlevel, hlogged, hquiet⟩ := h
  refine ⟨hlevel, fun ⟨hc', hc⟩ => ?_, fun hnot => ?_⟩
  · rw [if_pos (hb.2 hc'), hlogged hc]
  · by_cases hc' : c'
    · rw [if_pos (hb.2 hc'), hquiet fun hc => hnot ⟨hc', hc⟩]
    · exact if_neg (hb.not.2 hc')

end LoggedIff

/-! ## The lines of planning -/

/-- A motion would need more intervals than are allowed: rate and duration are finite and above zero, and their product is
rounded to a whole number above the cap or is too large to be finite. -/
def Plan.Exceeds (rate duration : Float32) : Prop :=
  (rate.isFinite = true ∧ 0 < rate) ∧ (duration.isFinite = true ∧ 0 < duration) ∧
    ((rate * duration).isFinite = true → 2 ^ 20 < round (toReal (rate * duration)))

theorem Plan.loggedIff_ofRateLog (rate duration : Float32) : LoggedIff (Exceeds rate duration) .warn
    (.capped duration rate (wanted rate duration) (2 ^ 20)) (ofRateLog rate duration) := by
  refine loggedIff_ite rfl ?_
  rw [Bool.and_eq_true, Bool.and_eq_true, decide_eq_true_iff, Exceeds, ← isUsable_iff_pos, ← isUsable_iff_pos, and_assoc]
  exact and_congr_right fun hr => and_congr_right fun hd => cap_lt_wanted_iff hr hd

theorem Settings.loggedIff_rateForLog (s : Settings) (rate : Float32) :
    LoggedIff (¬(rate.isFinite = true ∧ 0 < rate)) .warn (.invalidRate rate s.fallbackRate) (s.rateForLog rate) := by
  rw [← Plan.isUsable_iff_pos, rateForLog]
  cases isUsable rate <;> simp [LoggedIff, LogLine.level]

/-- The feature is read off samples, and the duration of the motion is a number above zero. -/
def Motion.IsSampled (m : Motion Float32) (e : Evaluator) : Prop :=
  e ∈ [.moveSpeed, .turnSpeed, .travelSlope, .turnAngle, .leftRightVelocity, .frontBackVelocity] ∧
    ¬IsNaN m.duration ∧ 0 < m.duration

theorem Motion.isSampled_iff {m : Motion Float32} {e : Evaluator} :
    (e.isSampled && decide (0 < m.duration)) = true ↔ m.IsSampled e := by
  have hfeature : e.isSampled = true ↔
      e ∈ [.moveSpeed, .turnSpeed, .travelSlope, .turnAngle, .leftRightVelocity, .frontBackVelocity] := by
    cases e <;> decide
  rw [Bool.and_eq_true, decide_eq_true_iff, hfeature, IsSampled]
  exact and_congr_right fun _ => ⟨fun hpos => ⟨not_isNaN_of_lt hpos, hpos⟩, And.right⟩

/-- The lines of a feature are that of the rate and then that of the intervals, each under its condition. -/
theorem Motion.measureLog_eq_append (m : Motion Float32) (e : Evaluator) (s : Settings) :
    ∃ replaced capped, m.measureLog e s = replaced ++ capped ∧
      LoggedIff (m.IsSampled e ∧ ¬(m.rate.isFinite = true ∧ 0 < m.rate)) .warn (.invalidRate m.rate s.fallbackRate) replaced ∧
      LoggedIff (m.IsSampled e ∧ Plan.Exceeds (s.rateFor m.rate) m.duration) .warn
        (.capped m.duration (s.rateFor m.rate) (Plan.wanted (s.rateFor m.rate) m.duration) (2 ^ 20)) capped := by
  refine ⟨_, _, ?_, (s.loggedIff_rateForLog m.rate).only isSampled_iff,
    (Plan.loggedIff_ofRateLog (s.rateFor m.rate) m.duration).only isSampled_iff⟩
  unfold measureLog planLog
  split <;> rfl

/-! ## The lines of an evaluation -/

/-- A playback that stands for a motion is told of in one line where its actor had no motion joint. -/
theorem Playback.loggedIff_resolve {p : Playback} {w : World} {m : Motion Float32} (hm : (p.resolve w).result = .ok m) :
    ∃ n slot, p.actor? = some n ∧ w.slots[n]? = some slot ∧
      LoggedIff (slot.motionJoint = none) .debug (.jointChosen n slot.actor.name m.joint) (p.resolve w).log := by
  have hends := p.resolution w
  generalize p.resolve w = o at hm hends ⊢
  cases hends with
  | @assigned clip inst n j slot hclip hinst hactor hslot hjoint =>
    obtain rfl := Except.ok.inj hm
    have hsome : slot.motionJoint ≠ none := by
      rw [hjoint]
      exact Option.some_ne_none j
    exact ⟨n, slot, by simp [actor?, hinst, hactor], hslot, rfl, fun hnone => absurd hnone hsome, fun _ => rfl⟩
  | @chosen clip inst n j slot hclip hinst hactor hslot hjoint hroot =>
    obtain rfl := Except.ok.inj hm
    exact ⟨n, slot, by simp [actor?, hinst, hactor], hslot, rfl, fun _ => rfl, fun hsome => absurd hjoint hsome⟩
  | _ => cases hm

/-- The lines that an evaluation logs, in order. The place left for an evaluator logs none. A playback that leaves something
open is warned about in one line, with the name of the evaluator and the reason. For any other playback there is a line if the
actor had no motion joint; then, if the feature is read off samples and the duration is a number above zero, a warning if the
clip's own rate is not finite and above zero, and a warning if the rate that is used and the duration would make more intervals
than are allowed, both of them from the sampler that the feature makes; and at last one line with the value that is returned. -/
theorem Evaluator.evaluate_log_lines (e : Evaluator) (p : Playback) (s : Settings) (w : World) :
    (e = unselected → (e.evaluate p s w).log = []) ∧
    (∀ cause, e ≠ unselected → (p.resolve w).result = .error cause →
      (e.evaluate p s w).log = [.unresolved e cause] ∧ (LogLine.unresolved e cause).level = .warn ∧
        (LogLine.unresolved e cause).message = e.displayName ++ ": " ++ cause.message) ∧
    ∀ m, e ≠ unselected → (p.resolve w).result = .ok m →
      ∃ n slot chosen replaced capped value, p.clip = some m.clip ∧ p.actor? = some n ∧ w.slots[n]? = some slot ∧
        (e.evaluate p s w).result = .ok value ∧
        (e.evaluate p s w).log = chosen ++ replaced ++ capped ++ [.value e value] ∧ (LogLine.value e value).level = .trace ∧
        m.evaluate e s (p.resolve w).world = ⟨value, (p.resolve w).world, replaced ++ capped⟩ ∧
        LoggedIff (slot.motionJoint = none) .debug (.jointChosen n slot.actor.name m.joint) chosen ∧
        LoggedIff (m.IsSampled e ∧ ¬(m.rate.isFinite = true ∧ 0 < m.rate)) .warn (.invalidRate m.rate s.fallbackRate) replaced ∧
        LoggedIff (m.IsSampled e ∧ Plan.Exceeds (s.rateFor m.rate) m.duration) .warn
          (.capped m.duration (s.rateFor m.rate) (Plan.wanted (s.rateFor m.rate) m.duration) (2 ^ 20)) capped := by
  have hplaceholder : e.isPlaceholder = true ↔ e = unselected := by simp [isPlaceholder]
  refine ⟨fun he => ?_, fun cause he hr => ?_, fun m he hr => ?_⟩
  · rw [evaluate_of_placeholder (hplaceholder.2 he)]
  · rw [evaluate_of_error (Bool.eq_false_iff.2 (hplaceholder.not.2 he)) s hr, Playback.resolve_of_error hr]
    exact ⟨rfl, rfl, rfl⟩
  · obtain ⟨n, slot, hactor, hslot, hchosen⟩ := Playback.loggedIff_resolve hr
    obtain ⟨replaced, capped, hlines, hreplaced, hcapped⟩ := m.measureLog_eq_append e s
    refine ⟨n, slot, _, replaced, capped, m.measure e s, (Playback.of_resolve_ok hr).1, hactor, hslot, e.result_evaluate s hr,
      ?_, rfl, ?_, hchosen, hreplaced, hcapped⟩
    · rw [evaluate_of_ok (Bool.eq_false_iff.2 (hplaceholder.not.2 he)) s hr, hlines]
      simp only [List.append_assoc]
    · rw [m.evaluate_eq, hlines]

/-- A clip that is too long and names no rate, on an actor without a motion joint, leaves all four lines, and only two for a
feature that needs no samples. -/
example : ∀ e ∈ Evaluator.all.tail, ((e.evaluate
      ⟨some ⟨1000000000, 0, fun _ _ _ _ => .identity⟩, some ⟨some 0⟩, false⟩ {}
      ⟨[⟨⟨"rider", ⟨#[⟨"hip", none⟩]⟩, #[]⟩, none⟩]⟩).log.map LogLine.level) =
    if e.isSampled then [.debug, .warn, .warn, .trace] else [.debug, .trace] := by decide +kernel

end Gait
