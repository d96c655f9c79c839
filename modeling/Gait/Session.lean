import Gait.Operation
import Gait.Clip.Keyframed
import Gait.Clip.Baked

/-!
# Sessions

A session is a world that is built up and asked about step by step: a skeleton under construction, the actors made of it, their
instances, and clips, each addressed by the number it got when it was added.
-/

namespace Gait

/-- A clip that a session keeps. -/
inductive ClipAsset where
  | keyframed (clip : KeyframedClip Float32)
  | baked (clip : BakedClip)

/-- The clip as a piece of motion. -/
def ClipAsset.toClip : ClipAsset → Clip Float32
  | keyframed clip => clip.toClip
  | baked clip => clip.toClip

/-- The state of a session. -/
structure Session where
  skeleton : Skeleton := Skeleton.empty
  world : World := World.empty
  instances : List ActorInstance := []
  clips : List ClipAsset := []

namespace Session

/-- A playback by numbers. -/
structure Cue where
  clip : Option Nat
  actorInstance : Option Nat
  retargeting : Bool

/-- Changes to a keyframed clip: a duration, a rate, a further track. -/
structure ClipEdit where
  duration : Option Float32
  rate : Option Float32
  track : Option (JointTrack Float32)

/-- A step of a session. -/
inductive Step where
  | newSkeleton
  | addJoint (name : String) (parent : Option Nat)
  | addActor (name : String) (bindPose : Option (List (Transform Float32))) (motionJoint : Option Nat)
  | setMotionJoint (actor : Nat) (joint : Option Nat)
  | mainRoot (actor : Nat)
  | addInstance (actor : Option Nat)
  | addClip (clip : ClipAsset)
  | editClip (clip : Nat) (edit : ClipEdit)
  | resolve (cue : Cue) (times : List Float32)
  | evaluate (cue : Cue) (kinds : List Evaluator) (settings : Settings)
  | sample (cue : Cue) (settings : Settings)
  | probe (cue : Cue) (probe : RateProbe)

/-- What a step answers. -/
inductive Reply where
  | skeleton (skeleton : Skeleton)
  | joint (index : Nat) (skeleton : Skeleton)
  | number (n : Nat)
  | done
  | root (joint : Option Nat)
  | clip (clip : KeyframedClip Float32)
  | motion (found : Except ContextError (Motion Float32 × List (Transform Float32)))
  | values (found : List (Except AssertionFailure Float32))
  | sampler (made : Except ContextError Sampler)
  | probed (found : Except AssertionFailure Float32) (placeholder : Bool) (name : String)
  /-- The step names something that is not there. -/
  | refused

/-- What a step does: its answer, the session it leaves and the lines it logs. -/
structure Turn where
  reply : Reply
  session : Session
  log : List LogLine

/-! ## Playbacks by numbers -/

/-- The playback that a cue stands for; a number that nothing has stands for nothing. -/
def playback (s : Session) (cue : Cue) : Playback :=
  { clip := do
      let n ← cue.clip
      let asset ← s.clips[n]?
      return asset.toClip
    actorInstance := do
      let n ← cue.actorInstance
      s.instances[n]?
    retargeting := cue.retargeting }

/-- A step that does something in the world and leaves all else as it is. -/
def act (s : Session) (action : Action Reply) : Turn :=
  let outcome := action s.world
  ⟨outcome.result, { s with world := outcome.world }, outcome.log⟩

/-- A step that changes the session and logs nothing. -/
def become (session : Session) (reply : Reply) : Turn := ⟨reply, session, []⟩

/-! ## Steps -/

/-- An actor with the skeleton as it is now. -/
def newActor (s : Session) (name : String) (bindPose : Option (List (Transform Float32))) : Actor Float32 :=
  match bindPose with
  | none => Actor.ofSkeleton name s.skeleton
  | some poses => ⟨name, s.skeleton, poses.toArray⟩

/-- The clip after an edit. The duration is not taken from the tracks again. -/
def ClipEdit.apply (edit : ClipEdit) (clip : KeyframedClip Float32) : KeyframedClip Float32 :=
  { clip with
    duration := edit.duration.getD clip.duration
    rate := edit.rate.getD clip.rate
    tracks := clip.tracks ++ edit.track.toList }

/-- What a step does. -/
def step (s : Session) : Step → Turn
  | .newSkeleton => become { s with skeleton := Skeleton.empty } (.skeleton Skeleton.empty)
  | .addJoint name parent =>
    let skeleton := s.skeleton.addJoint name parent
    become { s with skeleton } (.joint s.skeleton.size skeleton)
  | .addActor name bindPose motionJoint =>
    become { s with world := s.world.addActor (s.newActor name bindPose) motionJoint } (.number s.world.slots.length)
  | .setMotionJoint actor joint => become { s with world := s.world.setMotionJoint actor joint } .done
  | .mainRoot actor =>
    match s.world.slots[actor]? with
    | some slot => become s (.root slot.actor.skeleton.mainRoot?)
    | none => become s .refused
  | .addInstance actor => become { s with instances := s.instances ++ [⟨actor⟩] } (.number s.instances.length)
  | .addClip clip => become { s with clips := s.clips ++ [clip] } (.number s.clips.length)
  | .editClip n edit =>
    match s.clips[n]? with
    | some (.keyframed clip) =>
      let clip := edit.apply clip
      become { s with clips := s.clips.set n (.keyframed clip) } (.clip clip)
    | _ => become s .refused
  | .resolve cue times => s.act do
    let found ← (s.playback cue).resolve
    return .motion (found.map fun motion => (motion, times.map motion.pose))
  | .evaluate cue kinds settings => s.act do
    return .values (← Action.each (fun (e : Evaluator) => e.evaluate (s.playback cue) settings) kinds)
  | .sample cue settings => s.act do
    return .sampler (← (s.playback cue).sampler settings)
  | .probe cue probe => s.act do
    let found ← Measure.evaluateDefault probe (s.playback cue)
    return .probed found (Measure.isPlaceholder probe) (Measure.name probe)

/-- The motion joints of the session's actors. -/
def motionJoints (s : Session) : List (Option Nat) := s.world.motionJoints

/-- What steps do, one after the other. -/
def run (s : Session) : List Step → List Turn
  | [] => []
  | first :: rest =>
    let turn := s.step first
    turn :: turn.session.run rest

end Session

end Gait
