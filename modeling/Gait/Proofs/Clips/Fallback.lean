import Gait.Proofs.Binary32.Cancellation
import Gait.Proofs.Clips.Retargeting
import Gait.Proofs.Features.Samples

/-!
# Where a clip has nothing to say

A joint that a clip has no track for stays in the actor's bind pose, and without retargeting so does a component that its track
gives no sample of. Retargeting corrects the bind pose as well, as if it had been sampled from the other skeleton: the joint is
moved from where it already is by the difference of the two bind poses. It is left in place only if that difference is nothing,
or is lost in rounding.
-/

namespace Gait

open Binary32

/-! ## The component of a joint -/

namespace Vec3

/-- The components are alike. -/
def Alike (u v : Vec3 Float32) : Prop := Binary32.Alike u.x v.x ∧ Binary32.Alike u.y v.y ∧ Binary32.Alike u.z v.z

/-- Each component comes back when the other vector's is taken away from it and it is added again. -/
def Restores (s b : Vec3 Float32) : Prop := Binary32.Restores s.x b.x ∧ Binary32.Restores s.y b.y ∧ Binary32.Restores s.z b.z

instance (u v : Vec3 Float32) : Decidable (Alike u v) := inferInstanceAs (Decidable (_ ∧ _))

/-- A position moved from where it is to where it is. -/
theorem alike_sub_add_iff {s b : Vec3 Float32} : (b - s + b).Alike b ↔ s.Restores b :=
  and_congr Binary32.alike_sub_add_iff (and_congr Binary32.alike_sub_add_iff Binary32.alike_sub_add_iff)

end Vec3

/-- A rotation retargeted from where it is to where it is stays within a hundred-thousandth if the other bind rotation is within
a millionth of it, and only if that one is within three hundred-thousandths. -/
theorem Quat.close_retarget {a s : Quat Float32} (ha : a.IsUnit) (hs : s.IsUnit) :
    (s.Close (1 / 10 ^ 6) a → (a * s.conj * a).normalize.Close (1 / 10 ^ 5) a) ∧
      ((a * s.conj * a).normalize.Close (1 / 10 ^ 5) a → s.Close (3 / 10 ^ 5) a) := by
  obtain ⟨hfin, hmiss⟩ := abs_norm_retarget_sub_le ha hs
  obtain ⟨h1, h2⟩ := abs_le.mp hmiss
  refine ⟨fun h => close_of_norm_sub_le hfin ?_, fun h => close_of_norm_sub_le hs.finite ?_⟩
  · linarith [h.norm_sub_le]
  · linarith [h.norm_sub_le]

namespace JointTrack

variable {α : Type} [Scalar α]

/-- The bind pose that what the track gives is corrected by, if it is. -/
def correction? (t : JointTrack α) (retargeting : Bool) : Option (Transform α) := if retargeting then t.bind else none

/-- What the track gives, or the bind pose instead, is corrected or left as it is. -/
theorem pose_eq (t : JointTrack α) (bound : Transform α) (time : α) (retargeting : Bool) :
    t.pose bound time retargeting =
      match t.correction? retargeting with
      | none => ⟨(t.positions.sample time).getD bound.position, (t.rotations.sample time).getD bound.rotation⟩
      | some source => retarget source bound
          ⟨(t.positions.sample time).getD bound.position, (t.rotations.sample time).getD bound.rotation⟩ := by
  unfold pose correction?
  cases t.bind <;> cases retargeting <;> rfl

end JointTrack

/-! ## A joint of an actor -/

namespace KeyframedClip

/-- A joint that the clip has no track for is at the actor's bind pose. A position that its track gives no sample of is the
actor's bind position if nothing is corrected, and otherwise exactly if the two bind positions are such that the correction does
nothing. A rotation that its track gives no sample of is the actor's bind rotation if nothing is corrected; otherwise it is so to
within a hundred-thousandth if the two bind rotations differ by at most a millionth, and not if they differ by more than three
hundred-thousandths. -/
theorem pose_of_no_sample (c : KeyframedClip Float32) (actor : Actor Float32) (joint : ℕ) (time : Float32) (retargeting : Bool) :
    ((actor.skeleton.joint? joint).bind (fun j => c.track? j.name) = none →
      c.pose actor joint time retargeting = actor.bindTransform joint) ∧
    ∀ t, (actor.skeleton.joint? joint).bind (fun j => c.track? j.name) = some t →
      (t.positions.sample time = none →
        (t.correction? retargeting = none →
          (c.pose actor joint time retargeting).position = (actor.bindTransform joint).position) ∧
        ∀ source, t.correction? retargeting = some source →
          ((c.pose actor joint time retargeting).position.Alike (actor.bindTransform joint).position ↔
            source.position.Restores (actor.bindTransform joint).position)) ∧
      (t.rotations.sample time = none →
        (t.correction? retargeting = none →
          (c.pose actor joint time retargeting).rotation = (actor.bindTransform joint).rotation) ∧
        ∀ source, t.correction? retargeting = some source →
          source.rotation.IsUnit → (actor.bindTransform joint).rotation.IsUnit →
          (source.rotation.Close (1 / 10 ^ 6) (actor.bindTransform joint).rotation →
            (c.pose actor joint time retargeting).rotation.Close (1 / 10 ^ 5) (actor.bindTransform joint).rotation) ∧
          ((c.pose actor joint time retargeting).rotation.Close (1 / 10 ^ 5) (actor.bindTransform joint).rotation →
            source.rotation.Close (3 / 10 ^ 5) (actor.bindTransform joint).rotation)) := by
  refine ⟨fun hnone => by simp only [pose, hnone], fun t ht => ?_⟩
  have hpose : c.pose actor joint time retargeting = t.pose (actor.bindTransform joint) time retargeting := by
    simp only [pose, ht]
  rw [hpose, JointTrack.pose_eq]
  refine ⟨fun hp => ⟨fun hplain => ?_, fun source hsource => ?_⟩, fun hr => ⟨fun hplain => ?_, fun source hsource hs ha => ?_⟩⟩
  · simp only [hplain, hp, Option.getD_none]
  · simp only [hsource, hp, Option.getD_none]
    exact Vec3.alike_sub_add_iff
  · simp only [hplain, hr, Option.getD_none]
  · simp only [hsource, hr, Option.getD_none]
    exact Quat.close_retarget ha hs

/-! ### A clip without keys -/

/-- A clip whose one track has no keys, made on a skeleton that binds the joint there. -/
def still (source : Transform Float32) : KeyframedClip Float32 :=
  ⟨"still", 0, defaultRate, [⟨"hip", ⟨[], [], .linear⟩, ⟨[], [], .linear⟩, some source⟩]⟩

/-- An actor whose one joint is bound two units above the ground. -/
def walker : Actor Float32 := ⟨"walker", ⟨#[⟨"hip", none⟩]⟩, #[Transform.ofPosition ⟨0, 0, 2⟩]⟩

/-- On the skeleton that the clip was made on the joint stays where it is bound. -/
theorem pose_of_no_sample_still :
    ((still (walker.bindTransform 0)).pose walker 0 0.5 true).position.Alike (walker.bindTransform 0).position ∧
      ((still (walker.bindTransform 0)).pose walker 0 0.5 true).rotation.Close (1 / 10 ^ 5) (walker.bindTransform 0).rotation := by
  have hunit : (walker.bindTransform 0).rotation.IsUnit := Transform.ordinary_identity.rotation
  obtain ⟨hposition, hrotation⟩ := (pose_of_no_sample (still (walker.bindTransform 0)) walker 0 0.5 true).2 _ rfl
  have hself : ∀ {b : Float32}, b.isFinite = true → Binary32.Restores b b :=
    fun hb => (restores_iff_of_isFinite hb).mpr ⟨hb, Or.inl rfl⟩
  have htwo : (2 : Float32).isFinite = true := (float32_ofNat (by norm_num)).1
  have hclose : (walker.bindTransform 0).rotation.Close (1 / 10 ^ 6) (walker.bindTransform 0).rotation :=
    Quat.close_of_norm_sub_le hunit.finite (by rw [sub_self, norm_zero]; positivity)
  exact ⟨((hposition rfl).2 _ rfl).mpr ⟨hself isFinite_zero, hself isFinite_zero, hself htwo⟩,
    ((hrotation rfl).2 _ rfl hunit hunit).1 hclose⟩

/-- On a skeleton that binds the joint half as high and turned about, it leaves the bind pose. -/
theorem pose_of_no_sample_moved :
    ¬ ∀ (c : KeyframedClip Float32) (actor : Actor Float32) (joint : ℕ) (time : Float32) (retargeting : Bool),
      ((actor.skeleton.joint? joint).bind (fun j => c.track? j.name) = none →
        c.pose actor joint time retargeting = actor.bindTransform joint) ∧
      ∀ t, (actor.skeleton.joint? joint).bind (fun j => c.track? j.name) = some t →
        (t.positions.sample time = none →
          (c.pose actor joint time retargeting).position.Alike (actor.bindTransform joint).position) ∧
        (t.rotations.sample time = none →
          (∀ source, t.bind = some source → source.rotation.IsUnit) → (actor.bindTransform joint).rotation.IsUnit →
          (c.pose actor joint time retargeting).rotation.Close (1 / 10 ^ 5) (actor.bindTransform joint).rotation) := by
  intro h
  have halike := ((h (still ⟨⟨0, 0, 1⟩, ⟨0, 0, 1, 0⟩⟩) walker 0 0.5 true).2 _ rfl).1 rfl
  revert halike
  decide +kernel

end KeyframedClip

end Gait
