import Gait.Clip.Keyframed
import Gait.Proofs.Exact.Scalar
import Gait.Proofs.Features.Dependence

/-!
# Retargeting changes no feature

Retargeting moves all positions of a joint by one offset and multiplies all its rotations by one quaternion on the right. In exact
arithmetic the ways and the turns from time to time stay the same, and with them every feature.
-/

namespace Gait

open scoped Exact

variable {K : Type} [Field K] [LinearOrder K] [Functions K]

namespace JointTrack

variable {t : JointTrack K} {source bound : Transform K} {times : List K}

/-- The position that a track with a bind pose of its own gives is moved by the difference of the bind positions. -/
theorem position_pose_true (hb : t.bind = some source) (time : K) :
    (t.pose bound time true).position = (t.pose bound time false).position - source.position + bound.position := by
  simp only [pose, hb]
  rfl

/-- The rotation is multiplied by one quaternion on the right, if all of them have length one. -/
theorem rotation_pose_true (hsqrt : Functions.sqrt (1 : K) = 1) (hb : t.bind = some source)
    (hs : source.rotation.dot source.rotation = 1) (ha : bound.rotation.dot bound.rotation = 1) {time : K}
    (hq : ∀ q, t.rotations.sample time = some q → q.dot q = 1) :
    (t.pose bound time true).rotation = (t.pose bound time false).rotation * (source.rotation.conj * bound.rotation) := by
  have hsampled : ((t.rotations.sample time).getD bound.rotation).dot ((t.rotations.sample time).getD bound.rotation) = 1 := by
    cases hsample : t.rotations.sample time with
    | none => exact ha
    | some q => exact hq q hsample
  have hunit : ((t.rotations.sample time).getD bound.rotation * source.rotation.conj * bound.rotation).dot
      ((t.rotations.sample time).getD bound.rotation * source.rotation.conj * bound.rotation) = 1 := by
    rw [Exact.dot_mul, Exact.dot_mul, Exact.dot_conj, hsampled, hs, ha]
    ring
  simp only [pose, hb]
  change Quat.normalize _ = _
  rw [Exact.normalize_of_dot hsqrt hunit, Exact.mul_assoc_quat]
  rfl

/-- Retargeting leaves the ways from time to time. -/
theorem sameWays_retarget (hb : t.bind = some source) :
    SameWays times (fun time => t.pose bound time true) (fun time => t.pose bound time false) := by
  intro v _ u _
  simp only [position_pose_true hb]
  exact Exact.sub_offset _ _ _ _

/-- Retargeting leaves the turns from time to time. -/
theorem sameTurns_retarget (hsqrt : Functions.sqrt (1 : K) = 1) (hb : t.bind = some source)
    (hs : source.rotation.dot source.rotation = 1) (ha : bound.rotation.dot bound.rotation = 1)
    (hq : ∀ time ∈ times, ∀ q, t.rotations.sample time = some q → q.dot q = 1) :
    SameTurns times (fun time => t.pose bound time true) (fun time => t.pose bound time false) := by
  have hunit : (source.rotation.conj * bound.rotation).dot (source.rotation.conj * bound.rotation) = 1 := by
    rw [Exact.dot_mul, Exact.dot_conj, hs, ha, one_mul]
  intro v hv u hu
  simp only [rotation_pose_true hsqrt hb hs ha (hq v hv), rotation_pose_true hsqrt hb hs ha (hq u hu)]
  exact Exact.turn_mul_right _ _ hunit

end JointTrack

/-- In exact arithmetic every feature of a joint with a source bind pose is the same with retargeting on and off, if the two bind
rotations and the sampled rotations have length one: for any clip, actor and joint, any duration and any plan of samples. -/
theorem KeyframedClip.measure_retargeting (hsqrt : Functions.sqrt (1 : K) = 1) (c : KeyframedClip K) (actor : Actor K) (joint : ℕ)
    {t : JointTrack K} (ht : (actor.skeleton.joint? joint).bind (fun j => c.track? j.name) = some t)
    {source : Transform K} (hb : t.bind = some source) (hs : source.rotation.dot source.rotation = 1)
    (ha : (actor.bindTransform joint).rotation.dot (actor.bindTransform joint).rotation = 1) (duration : K) (plan : Plan K)
    (hq : ∀ time ∈ plan.times, ∀ q, t.rotations.sample time = some q → q.dot q = 1) (e : Evaluator) :
    e.measure duration plan (Motion.pose ⟨c.toClip, actor, joint, true⟩) =
      e.measure duration plan (Motion.pose ⟨c.toClip, actor, joint, false⟩) := by
  have hpose : ∀ retargeting, Motion.pose ⟨c.toClip, actor, joint, retargeting⟩ =
      fun time => t.pose (actor.bindTransform joint) time retargeting := by
    intro retargeting
    funext time
    show c.pose actor joint time retargeting = _
    simp only [KeyframedClip.pose, ht]
  rw [hpose true, hpose false]
  cases e with
  | unselected => rfl
  | moveSpeed | travelSlope | leftRightVelocity | frontBackVelocity =>
    exact (JointTrack.sameWays_retarget hb).measure (by simp)
  | turnSpeed | turnAngle => exact (JointTrack.sameTurns_retarget hsqrt hb hs ha hq).measure (by simp)
  | travelDirection | travelDistance => exact (JointTrack.sameWays_retarget hb).measure_journey _ _ (by simp)

namespace Tilted

/-- Functions with no meaning but that the root of one is one. -/
local instance instFunctionsRat : Functions ℚ := ⟨id, id, id, fun y _ => y⟩

/-- A track with rotations of length one, made on a skeleton whose hip is bound with another. -/
def track : JointTrack ℚ :=
  { joint := "hip"
    positions := ⟨[0, 1], [⟨1, 2, 3⟩, ⟨4, 5, 6⟩], .linear⟩
    rotations := ⟨[0, 1], [⟨0, 0, 3 / 5, 4 / 5⟩, ⟨0, 0, 0, 1⟩], .step⟩
    bind := some ⟨⟨0, 0, 1⟩, ⟨3 / 5, 0, 0, 4 / 5⟩⟩ }

def clip : KeyframedClip ℚ := ⟨"turning", 1, 2, [track]⟩

/-- An actor whose hip is bound with a rotation of its own. -/
def actor : Actor ℚ := ⟨"tilted", ⟨#[⟨"hip", none⟩]⟩, #[⟨⟨0, 0, 2⟩, ⟨0, 5 / 13, 0, 12 / 13⟩⟩]⟩

/-- Three samples of the clip: the poses are other ones with retargeting on, and the features are the same. -/
theorem measure_retargeting_tilted :
    Functions.sqrt (1 : ℚ) = 1 ∧ (actor.skeleton.joint? 0).bind (fun j => clip.track? j.name) = some track ∧
    track.bind = some ⟨⟨0, 0, 1⟩, ⟨3 / 5, 0, 0, 4 / 5⟩⟩ ∧
    Motion.pose ⟨clip.toClip, actor, 0, true⟩ (1 / 2) ≠ Motion.pose ⟨clip.toClip, actor, 0, false⟩ (1 / 2) ∧
    ∀ e : Evaluator, e.measure 1 ⟨1 / 2, 3⟩ (Motion.pose ⟨clip.toClip, actor, 0, true⟩) =
      e.measure 1 ⟨1 / 2, 3⟩ (Motion.pose ⟨clip.toClip, actor, 0, false⟩) := by
  have hsampled : ∀ time ∈ (⟨1 / 2, 3⟩ : Plan ℚ).times,
      (track.rotations.sample time).all (fun q => decide (q.dot q = 1)) = true := by decide +kernel
  refine ⟨rfl, by rfl, rfl, by decide +kernel, ?_⟩
  refine KeyframedClip.measure_retargeting rfl clip actor 0 (by rfl) rfl (by decide +kernel) (by decide +kernel) 1 _ ?_
  intro time htime q hq
  have hall := hsampled time htime
  rw [hq] at hall
  simpa using hall

end Tilted

end Gait
