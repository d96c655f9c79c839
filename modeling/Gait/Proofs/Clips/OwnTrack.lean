import Mathlib
import Gait.Clip.Keyframed
import Gait.Proofs.Features.Dependence

/-!
# The track of a joint

A keyframed clip moves a joint of an actor by the first track that has the joint's name. The number of the joint only leads to its
name and to its bind pose; the other tracks, later ones of the same name too, and the rest of the skeleton and of the bind pose
have no part in it (`pose_congr`). So the features of a joint depend on the clip through its duration, its rate and this one
track, and on the actor through this name and this bind pose (`sameValue_of_own_track`).
-/

namespace Gait

/-! ## The first track for a name -/

section Lookup

variable {α : Type} {c c' : KeyframedClip α} {tracks tracks' : List (JointTrack α)} {name : String} {t : JointTrack α}

/-- The track is the first one for a joint's name: there may be others before it for other joints, and any others after it. -/
def FirstFor (tracks : List (JointTrack α)) (name : String) (t : JointTrack α) : Prop :=
  t.joint = name ∧ ∃ before after, tracks = before ++ t :: after ∧ ∀ u ∈ before, u.joint ≠ name

/-- Both have the same first track for a joint's name, or neither has one. -/
def SameFirst (tracks tracks' : List (JointTrack α)) (name : String) : Prop :=
  (∃ t, FirstFor tracks name t ∧ FirstFor tracks' name t) ∨ ∀ t ∈ tracks ++ tracks', t.joint ≠ name

namespace KeyframedClip

theorem track?_eq_some_iff : c.track? name = some t ↔ FirstFor c.tracks name t := by
  rw [track?, List.find?_eq_some_iff_append, FirstFor]
  simp

theorem track?_eq_none_iff : c.track? name = none ↔ ∀ t ∈ c.tracks, t.joint ≠ name := by
  rw [track?, List.find?_eq_none]
  simp

/-- Clips whose first track for a name is the same find the same track for it. -/
theorem track?_congr (h : SameFirst c.tracks c'.tracks name) : c.track? name = c'.track? name := by
  rcases h with ⟨t, h, h'⟩ | h
  · rw [track?_eq_some_iff.2 h, track?_eq_some_iff.2 h']
  · rw [List.forall_mem_append] at h
    rw [track?_eq_none_iff.2 h.1, track?_eq_none_iff.2 h.2]

end KeyframedClip

end Lookup

/-! ## The pose of a joint -/

section Poses

variable {α : Type} [Scalar α] {c c' : KeyframedClip α} {actor actor' : Actor α} {joint joint' : ℕ}

/-- The name of the joint with a number. -/
def Skeleton.name? (s : Skeleton) (joint : ℕ) : Option String := (s.joint? joint).map (·.name)

/-- The pose of a joint is made of its bind pose and of the first track for its name. -/
theorem KeyframedClip.pose_eq (c : KeyframedClip α) (actor : Actor α) (joint : ℕ) (time : α) (retargeting : Bool) :
    c.pose actor joint time retargeting =
      match (actor.skeleton.name? joint).bind c.track? with
      | none => actor.bindTransform joint
      | some t => t.pose (actor.bindTransform joint) time retargeting := by
  rw [pose, Skeleton.name?, Option.bind_map]
  rfl

/-- Joints of the same name and bind pose are moved alike by clips that have the same first track for this name. -/
theorem KeyframedClip.pose_congr (hname : actor.skeleton.name? joint = actor'.skeleton.name? joint')
    (hbind : actor.bindTransform joint = actor'.bindTransform joint')
    (htrack : ∀ name, actor.skeleton.name? joint = some name → SameFirst c.tracks c'.tracks name) (time : α) (retargeting : Bool) :
    c.pose actor joint time retargeting = c'.pose actor' joint' time retargeting := by
  rw [pose_eq, pose_eq, ← hname, ← hbind]
  cases h : actor.skeleton.name? joint with
  | none => rfl
  | some name => rw [Option.bind_some, Option.bind_some, track?_congr (htrack name h)]

end Poses

/-! ## The features of a joint -/

/-- Motions of the same duration and rate with the same poses have the same features. -/
theorem Motion.measure_congr {m m' : Motion Float32} (hduration : m.duration = m'.duration) (hrate : m.rate = m'.rate)
    (hpose : m.pose = m'.pose) (e : Evaluator) (s : Settings) : m.measure e s = m'.measure e s := by
  rw [measure, measure, plan, plan, hduration, hrate, hpose]

namespace Evaluator

variable {p p' : Playback} {w w' : World} {m m' : Motion Float32} {c c' : KeyframedClip Float32}

/-- Let two keyframed clips of the same duration and rate be played on joints, of any actors and with any numbers, that have the
same name and the same bind pose. If the first track for this name is the same in both clips, whatever other tracks are before and
after it, or if neither clip has one, then every evaluator has the same value for both. -/
theorem sameValue_of_own_track (s : Settings) (hm : (p.resolve w).result = .ok m) (hm' : (p'.resolve w').result = .ok m')
    (hclip : p.clip = some c.toClip) (hclip' : p'.clip = some c'.toClip) (hretargeting : p.retargeting = p'.retargeting)
    (hduration : c.duration = c'.duration) (hrate : c.rate = c'.rate)
    (hname : m.actor.skeleton.name? m.joint = m'.actor.skeleton.name? m'.joint)
    (hbind : m.actor.bindTransform m.joint = m'.actor.bindTransform m'.joint)
    (htrack : ∀ name, m.actor.skeleton.name? m.joint = some name → SameFirst c.tracks c'.tracks name) (e : Evaluator) :
    e.SameValue p p' s s w w' := by
  obtain ⟨hc, hr⟩ := Playback.of_resolve_ok hm
  obtain ⟨hc', hr'⟩ := Playback.of_resolve_ok hm'
  have hmclip : m.clip = c.toClip := Option.some.inj (hc.symm.trans hclip)
  have hmclip' : m'.clip = c'.toClip := Option.some.inj (hc'.symm.trans hclip')
  rw [sameValue_iff hm hm']
  apply Motion.measure_congr
  · rw [Motion.duration, Motion.duration, hmclip, hmclip']
    exact hduration
  · rw [Motion.rate, Motion.rate, hmclip, hmclip']
    exact hrate
  · funext time
    rw [Motion.pose, Motion.pose, hmclip, hmclip', hr, hr', hretargeting]
    exact KeyframedClip.pose_congr hname hbind htrack time p'.retargeting

/-- The way of a hip that was bound in front of the origin where the motion was made. -/
def hipTrack : JointTrack Float32 :=
  ⟨"hip", ⟨[0, 1], [Vec3.zero, Vec3.right], .linear⟩, Track.constant Quat.identity, some (Transform.ofPosition Vec3.front)⟩

/-- A clip that moves a hip and nothing else. -/
def hipOnly : KeyframedClip Float32 := ⟨"hip only", 1, 2, [hipTrack]⟩

/-- A clip with a track for an arm before that of the hip, and a second one for the hip after it. -/
def crowded : KeyframedClip Float32 :=
  ⟨"crowded", 1, 2, [.ofPositions "arm" [0] [Vec3.front], hipTrack, .ofPositions "hip" [0, 2] [Vec3.zero, Vec3.front]]⟩

/-- An actor of a hip alone, with more bind poses than joints, whose motion joint is open. -/
def bare : Slot := ⟨⟨"bare", ⟨#[⟨"hip", none⟩]⟩, #[.ofPosition ⟨0, 0, 2⟩, .ofPosition Vec3.right]⟩, none⟩

/-- An actor whose motion joint is its third one, the first with the name of the two hips that it has. -/
def laden : Slot :=
  ⟨⟨"laden", ⟨#[⟨"prop", none⟩, ⟨"arm", some 2⟩, ⟨"hip", none⟩, ⟨"hip", some 2⟩]⟩,
    #[.identity, .identity, .ofPosition ⟨0, 0, 2⟩]⟩, some 2⟩

/-- A retargeted clip on the only actor of a world. -/
def retargeted (c : KeyframedClip Float32) : Playback := ⟨some c.toClip, some ⟨some 0⟩, true⟩

/-- The hips of both actors have the same features. -/
theorem sameValue_of_own_track_crowded :
    ((retargeted hipOnly).resolve ⟨[bare]⟩).result = .ok ⟨hipOnly.toClip, bare.actor, 0, true⟩ ∧
      ((retargeted crowded).resolve ⟨[laden]⟩).result = .ok ⟨crowded.toClip, laden.actor, 2, true⟩ ∧
      bare.actor.skeleton.name? 0 = laden.actor.skeleton.name? 2 ∧
      bare.actor.bindTransform 0 = laden.actor.bindTransform 2 ∧ SameFirst hipOnly.tracks crowded.tracks "hip" ∧
      ∀ e : Evaluator, e.SameValue (retargeted hipOnly) (retargeted crowded) {} {} ⟨[bare]⟩ ⟨[laden]⟩ := by
  have hm : ((retargeted hipOnly).resolve ⟨[bare]⟩).result = .ok ⟨hipOnly.toClip, bare.actor, 0, true⟩ := rfl
  have hm' : ((retargeted crowded).resolve ⟨[laden]⟩).result = .ok ⟨crowded.toClip, laden.actor, 2, true⟩ := rfl
  have hname : bare.actor.skeleton.name? 0 = laden.actor.skeleton.name? 2 := rfl
  have hbind : bare.actor.bindTransform 0 = laden.actor.bindTransform 2 := rfl
  have htrack : SameFirst hipOnly.tracks crowded.tracks "hip" := by
    refine Or.inl ⟨hipTrack, ⟨rfl, [], [], rfl, by simp⟩, ⟨rfl, [_], [_], rfl, ?_⟩⟩
    simp [JointTrack.ofPositions]
  refine ⟨hm, hm', hname, hbind, htrack, fun e => ?_⟩
  refine sameValue_of_own_track {} hm hm' rfl rfl rfl rfl rfl hname hbind ?_ e
  rintro name hhip
  obtain rfl : "hip" = name := Option.some.inj hhip
  exact htrack

end Evaluator

end Gait
