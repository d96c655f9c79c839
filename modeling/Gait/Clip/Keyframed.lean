import Gait.Clip.Basic
import Gait.Track

/-!
# Keyframed clips

A keyframed clip has a track of positions and a track of rotations for each joint it moves, and finds them by the name that the
joint has in the actor's skeleton. A joint that it does not move stays in the actor's bind pose, and so does the component of a
joint whose track has nothing to say.
-/

namespace Gait

/-- The motion of one joint. -/
structure JointTrack (α : Type) where
  joint : String
  positions : Track (Vec3 α) α
  rotations : Track (Quat α) α
  /-- Where the joint was bound in the skeleton that the motion was made on, if the motion can be retargeted. -/
  bind : Option (Transform α)

/-- Motion made of keyframes. Of tracks for the same joint the first counts. -/
structure KeyframedClip (α : Type) where
  name : String
  duration : α
  rate : α
  tracks : List (JointTrack α)

/-- The frames a second of a clip that names no other rate. -/
def defaultRate {α : Type} [Scalar α] : α := 30

variable {α : Type} [Scalar α]

namespace JointTrack

/-- The straight way through positions, without rotation. -/
def ofPositions (joint : String) (times : List α) (positions : List (Vec3 α)) : JointTrack α :=
  { joint, positions := ⟨times, positions, .linear⟩, rotations := Track.constant Quat.identity, bind := none }

/-- The later of the ends of the two tracks. -/
def endTime (t : JointTrack α) : α := Scalar.max t.positions.endTime t.rotations.endTime

/-- The transform adapted from the joint's build in the skeleton it was made on to the one in the actor: moved by the difference
of the two bind positions, and with the rotation relative to the one bind rotation applied to the other. -/
def retarget (source target pose : Transform α) : Transform α :=
  { position := pose.position - source.position + target.position
    rotation := (pose.rotation * source.rotation.conj * target.rotation).normalize }

/-- Where the track puts its joint at a time, given where the actor binds the joint. -/
def pose (t : JointTrack α) (bound : Transform α) (time : α) (retargeting : Bool) : Transform α :=
  let pose : Transform α :=
    { position := (t.positions.sample time).getD bound.position
      rotation := (t.rotations.sample time).getD bound.rotation }
  match t.bind with
  | some source => if retargeting then retarget source bound pose else pose
  | none => pose

end JointTrack

namespace KeyframedClip

/-- The clip of some tracks that ends with the last of their keys. -/
def ofTracks (name : String) (tracks : List (JointTrack α)) : KeyframedClip α :=
  { name, duration := (tracks.map JointTrack.endTime).foldl Scalar.max 0, rate := defaultRate, tracks }

/-- The track for a joint's name. -/
def track? (c : KeyframedClip α) (joint : String) : Option (JointTrack α) := c.tracks.find? (·.joint == joint)

/-- The place of the track for a joint's name among the tracks. -/
def trackIndex? (c : KeyframedClip α) (joint : String) : Option Nat := c.tracks.findIdx? (·.joint == joint)

/-- Where the clip puts a joint of an actor at a time. -/
def pose (c : KeyframedClip α) (actor : Actor α) (joint : Nat) (time : α) (retargeting : Bool) : Transform α :=
  let bound := actor.bindTransform joint
  match (actor.skeleton.joint? joint).bind (fun j => c.track? j.name) with
  | none => bound
  | some track => track.pose bound time retargeting

/-- The clip as a piece of motion. -/
def toClip (c : KeyframedClip α) : Clip α := ⟨c.duration, c.rate, c.pose⟩

end KeyframedClip

end Gait
