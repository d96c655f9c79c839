import Gait.World.Evaluation
import Gait.Proofs.Features.Tame

/-!
# When features are finite

For a clip with ordinary keys on an actor with an ordinary bind pose, all features are finite exactly if no rotation vanishes at
a sampled time that a step starts or ends at, and the squares of the distances that are measured are finite. The first can fail
for a cubic track: the cubic between two rotations of length one may pass through the origin. The second can fail only for a
joint that is bound very far away.
-/

namespace Gait

open Binary32

section Clips

variable {c : KeyframedClip Float32} {p : Playback} {s : Settings} {w : World} {m : Motion Float32}

/-- The poses of an ordinary clip on an ordinary actor are tame. -/
theorem KeyframedClip.Ordinary.tame (hc : c.Ordinary) {actor : Actor Float32} (ha : actor.Ordinary) (joint : ℕ) :
    Tame (actor.bindTransform joint).position (c.Vanishes actor joint) (fun time => c.pose actor joint time false) where
  finite := (ha.bindTransform joint).position
  position _ htime := hc.position joint htime
  rotation _ htime := hc.rotation ha joint htime

/-- A motion made of an ordinary clip is sampled at ordinary times. -/
theorem Motion.small_times (hc : c.Ordinary) (hs : isUsable s.fallbackRate = true) (hclip : m.clip = c.toClip) :
    (m.plan s).count.toNat ≤ 2 ^ 20 + 1 ∧ ∀ t ∈ (m.plan s).times, Small 40 t := by
  have hd : m.duration = c.duration := by rw [Motion.duration, hclip]; rfl
  have hr : isUsable (s.rateFor m.rate) = true := by
    unfold Settings.rateFor
    split_ifs with h
    · exact h
    · exact hs
  unfold Motion.plan
  rw [hd]
  exact Plan.small_times hr (Plan.isUsable_iff.mpr ⟨hc.duration.1, lt_of_lt_of_le (by positivity) hc.duration.2.1⟩)
    (small_duration hc.duration)

/-- For an ordinary clip on an actor with an ordinary bind pose, all nine evaluators give finite values exactly if no rotation
vanishes at an end of a sampled step and every distance that is measured has a finite square. Unless the joint is bound very far
away the squares are finite, and then only the two features of turns can be otherwise. -/
theorem Evaluator.evaluate_isFinite_iff (hc : c.Ordinary) (ha : m.actor.Ordinary) (hs : isUsable s.fallbackRate = true)
    (hclip : p.clip = some c.toClip) (hplain : p.retargeting = false) (hm : (p.resolve w).result = .ok m) :
    ((∀ e : Evaluator, ∃ v, (e.evaluate p s w).result = .ok v ∧ v.isFinite = true) ↔
      (∀ step ∈ steps (m.plan s).times, ¬ c.Vanishes m.actor m.joint step.1 ∧ ¬ c.Vanishes m.actor m.joint step.2) ∧
        (∀ step ∈ steps (m.plan s).times, Vec3.Spans (m.pose step.1).position (m.pose step.2).position) ∧
        Vec3.Spans (m.pose 0).position (m.pose m.duration).position) ∧
    ((m.actor.bindTransform m.joint).position.Within 60 → ∀ e : Evaluator,
      (∃ v, (e.evaluate p s w).result = .ok v ∧ v.isFinite = true) ↔
        (e = .turnSpeed ∨ e = .turnAngle →
          ∀ step ∈ steps (m.plan s).times, ¬ c.Vanishes m.actor m.joint step.1 ∧ ¬ c.Vanishes m.actor m.joint step.2)) := by
  obtain ⟨hclip', hplain'⟩ := Playback.of_resolve_ok hm
  have hmclip : m.clip = c.toClip := Option.some.inj (hclip'.symm.trans hclip)
  obtain ⟨hcount, htimes⟩ := Motion.small_times hc hs hmclip
  have hpose : m.pose = fun time => c.pose m.actor m.joint time false := by
    funext time
    rw [Motion.pose, hmclip, hplain', hplain]
    rfl
  have hduration : m.duration = c.duration := by rw [Motion.duration, hmclip]; rfl
  have hd : Between (1 / 2 ^ 10) (2 ^ 20) m.duration := by
    rw [hduration]
    exact hc.duration
  have htame : Tame (m.actor.bindTransform m.joint).position (c.Vanishes m.actor m.joint) m.pose := by
    rw [hpose]
    exact hc.tame ha m.joint
  have hvalue : ∀ e : Evaluator, (∃ v, (e.evaluate p s w).result = .ok v ∧ v.isFinite = true) ↔
      (e.measure m.duration (m.plan s) m.pose).isFinite = true := by
    intro e
    rw [Evaluator.result_evaluate e s hm]
    simp [Motion.measure]
  refine ⟨(forall_congr' hvalue).trans (isFinite_measure_iff htame hcount htimes hd), ?_⟩
  intro hbound e
  rw [hvalue e]
  obtain ⟨hspans, htravel⟩ := spans_of_bound htame htimes hd hbound
  by_cases he : e = .turnSpeed ∨ e = .turnAngle
  · rw [isFinite_measure_turn_iff htame hcount htimes hd he]
    simp [he]
  · have hfinite := isFinite_measure_of_spans htame hcount htimes hd hspans htravel he
    simp [he, hfinite]

end Clips

namespace Evaluator

/-- From one quaternion to the opposite one, which is the same rotation, along a cubic that starts and ends at rest. -/
def flipTrack : Track (Quat Float32) Float32 :=
  { times := [0, 1], blending := .cubic
    values := [⟨0, 0, 0, 0⟩, ⟨0, 0, 0, 1⟩, ⟨0, 0, 0, 0⟩, ⟨0, 0, 0, 0⟩, ⟨0, 0, 0, -1⟩, ⟨0, 0, 0, 0⟩] }

/-- A clip of one second in which a joint follows this track. -/
def flip (rate : Float32) : KeyframedClip Float32 :=
  ⟨"flip", 1, rate, [⟨"hip", Track.constant Vec3.zero, flipTrack, none⟩]⟩

/-- An actor with the one joint. -/
def acrobat : Actor Float32 := Actor.ofSkeleton "acrobat" ⟨#[⟨"hip", none⟩]⟩

/-- The clip played on the actor. -/
def flipping (rate : Float32) : Playback := ⟨some (flip rate).toClip, some ⟨some 0⟩, false⟩

/-- The motion that this playback stands for. -/
def flipMotion (rate : Float32) : Motion Float32 := ⟨(flip rate).toClip, acrobat, 0, false⟩

/-- The world of the actor. -/
def stage : World := ⟨[⟨acrobat, some 0⟩]⟩

theorem ordinary_acrobat : acrobat.Ordinary := by
  intro t ht
  obtain rfl : t = Transform.identity := by simpa [acrobat, Actor.ofSkeleton, Skeleton.size] using ht
  exact Transform.ordinary_identity

theorem ordinary_flipTrack : flipTrack.OrdinaryRotations := by
  refine ⟨?_, ?_, ?_⟩
  · intro x hx
    rcases List.mem_pair.mp hx with rfl | rfl
    · exact small_zero 20
    · exact small_one 20
  · intro i q hi hq
    have hi' : i < 2 := hi
    rcases (by omega : i = 0 ∨ i = 1) with rfl | rfl
    · obtain rfl : (⟨0, 0, 0, 1⟩ : Quat Float32) = q := Option.some.inj hq
      exact Quat.isUnit_real isFinite_one (by rw [toReal_one, one_pow])
    · obtain rfl : (⟨0, 0, 0, -1⟩ : Quat Float32) = q := Option.some.inj hq
      exact Quat.isUnit_real (by rw [neg_isFinite]; exact isFinite_one) (by rw [toReal_neg, toReal_one]; norm_num)
  · intro _ q hq
    have hreal : ∀ w : Float32, Small 20 w → (⟨0, 0, 0, w⟩ : Quat Float32).Within 20 :=
      fun w hw => ⟨small_zero 20, small_zero 20, small_zero 20, hw⟩
    simp only [flipTrack, List.mem_cons, List.not_mem_nil, or_false] at hq
    rcases hq with rfl | rfl | rfl | rfl | rfl | rfl
    · exact hreal 0 (small_zero 20)
    · exact hreal 1 (small_one 20)
    · exact hreal 0 (small_zero 20)
    · exact hreal 0 (small_zero 20)
    · exact hreal (-1) (small_one 20).neg
    · exact hreal 0 (small_zero 20)

theorem ordinary_flip (rate : Float32) : (flip rate).Ordinary := by
  refine ⟨⟨isFinite_one, ?_, ?_⟩, ?_, ?_⟩
  · show 1 / 2 ^ 10 ≤ toReal 1
    rw [toReal_one]
    norm_num
  · show toReal 1 ≤ 2 ^ 20
    rw [toReal_one]
    norm_num
  · intro t ht
    obtain rfl := List.mem_singleton.mp ht
    refine ⟨?_, ?_⟩
    · intro x hx
      obtain rfl := List.mem_singleton.mp hx
      exact small_zero 20
    · intro v hv
      obtain rfl := List.mem_singleton.mp hv
      exact ⟨small_zero 20, small_zero 20, small_zero 20⟩
  · intro t ht
    obtain rfl := List.mem_singleton.mp ht
    exact ordinary_flipTrack

/-- With one interval only the two ends are sampled, and all features are finite. -/
theorem evaluate_isFinite_flip_one :
    (flip 1).Ordinary ∧ (flipMotion 1).actor.Ordinary ∧ isUsable ({} : Settings).fallbackRate = true ∧
      ((flipping 1).resolve stage).result = .ok (flipMotion 1) ∧
      ∀ e : Evaluator, ∃ v, (e.evaluate (flipping 1) {} stage).result = .ok v ∧ v.isFinite = true := by
  have hs : isUsable ({} : Settings).fallbackRate = true := by decide +kernel
  have hm : ((flipping 1).resolve stage).result = .ok (flipMotion 1) := rfl
  refine ⟨ordinary_flip 1, ordinary_acrobat, hs, hm, ?_⟩
  refine (evaluate_isFinite_iff (ordinary_flip 1) ordinary_acrobat hs rfl rfl hm).1.mpr ?_
  decide +kernel

/-- With two intervals the middle is sampled, where the cubic goes through the origin. -/
theorem evaluate_not_isFinite_flip_two :
    ¬ ∀ (c : KeyframedClip Float32) (p : Playback) (s : Settings) (w : World) (m : Motion Float32), c.Ordinary →
      (∀ t ∈ c.tracks, t.positions.times.Pairwise (· ≤ ·) ∧ t.rotations.times.Pairwise (· ≤ ·)) → m.actor.Ordinary →
      isUsable s.fallbackRate = true → p.clip = some c.toClip → p.retargeting = false → (p.resolve w).result = .ok m →
      ∀ e : Evaluator, ∃ v, (e.evaluate p s w).result = .ok v ∧ v.isFinite = true := by
  intro h
  have hs : isUsable ({} : Settings).fallbackRate = true := by decide +kernel
  have hm : ((flipping 2).resolve stage).result = .ok (flipMotion 2) := rfl
  have hsorted : ∀ t ∈ (flip 2).tracks, t.positions.times.Pairwise (· ≤ ·) ∧ t.rotations.times.Pairwise (· ≤ ·) := by
    decide +kernel
  obtain ⟨v, hv, hfin⟩ := h (flip 2) (flipping 2) {} stage (flipMotion 2) (ordinary_flip 2) hsorted ordinary_acrobat hs rfl rfl
    hm .turnAngle
  have hnan : (match (turnAngle.evaluate (flipping 2) {} stage).result with
      | .ok v => v.isFinite
      | .error _ => true) = false := by decide +kernel
  rw [hv] at hnan
  exact absurd (hfin.symm.trans hnan) (by decide)

end Evaluator

end Gait
