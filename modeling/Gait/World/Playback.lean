import Gait.World.Basic
import Gait.Motion
import Gait.Sampling.Walk

/-!
# Playbacks

A playback names a clip, an instance of an actor and whether to retarget; any of it may be missing. Resolving it gives the
motion it stands for, or the first thing that is missing. An actor without a motion joint gets its skeleton's main root as one,
for this and for all later playbacks. `Playback.Resolution` says once all that resolving can do.
-/

namespace Gait

/-- A figure on the scene: an instance of the actor with a number. One without a number, or with a number that no actor has, has
lost its actor. -/
structure ActorInstance where
  actor : Option Nat
  deriving DecidableEq, Repr

/-- The actor that an instance is of, unless it has lost it. -/
def ActorInstance.slot? (inst : ActorInstance) (w : World) : Option Slot := inst.actor.bind fun n => w.slots[n]?

theorem ActorInstance.slot?_eq_some_iff {inst : ActorInstance} {w : World} {slot : Slot} :
    inst.slot? w = some slot ↔ ∃ n, inst.actor = some n ∧ w.slots[n]? = some slot := by
  rw [slot?, Option.bind_eq_some_iff]

/-- What an evaluator is asked about. -/
structure Playback where
  clip : Option (Clip Float32) := none
  actorInstance : Option ActorInstance := none
  retargeting : Bool := false

namespace Playback

/-- The actor that a playback is about, by number. -/
def actor? (p : Playback) : Option Nat := p.actorInstance.bind (·.actor)

/-- The playback with its clip, instance and actor found, or the first of them that is missing. -/
def parts (p : Playback) (w : World) : Except ContextError (Clip Float32 × Nat × Slot) :=
  match p.clip with
  | none => .error .missingClip
  | some clip =>
    match p.actorInstance with
    | none => .error .missingActorInstance
    | some inst =>
      match inst.actor with
      | none => .error .missingActor
      | some n =>
        match w.slots[n]? with
        | none => .error .missingActor
        | some slot => .ok (clip, n, slot)

/-- The motion that a playback stands for. -/
def resolve (p : Playback) : Action (Except ContextError (Motion Float32)) := fun w =>
  match p.parts w with
  | .error cause => ⟨.error cause, w, []⟩
  | .ok (clip, n, slot) =>
    match slot.motionJoint with
    | some joint => ⟨.ok ⟨clip, slot.actor, joint, p.retargeting⟩, w, []⟩
    | none =>
      match slot.actor.skeleton.mainRoot? with
      | none => ⟨.error .noMotionJoint, w, []⟩
      | some joint =>
        ⟨.ok ⟨clip, slot.actor, joint, p.retargeting⟩, w.setMotionJoint n (some joint),
          [.jointChosen n slot.actor.name joint]⟩

/-! ## The ways in which resolving ends -/

/-- The ways in which resolving a playback ends, with what it leaves. -/
inductive Resolution (p : Playback) (w : World) : Outcome (Except ContextError (Motion Float32)) → Prop where
  | noClip (hclip : p.clip = none) : Resolution p w ⟨.error .missingClip, w, []⟩
  | noInstance {clip : Clip Float32} (hclip : p.clip = some clip) (hinst : p.actorInstance = none) :
      Resolution p w ⟨.error .missingActorInstance, w, []⟩
  | detached {clip : Clip Float32} {inst : ActorInstance} (hclip : p.clip = some clip) (hinst : p.actorInstance = some inst)
      (hactor : inst.slot? w = none) : Resolution p w ⟨.error .missingActor, w, []⟩
  | rootless {clip : Clip Float32} {inst : ActorInstance} {n : Nat} {slot : Slot} (hclip : p.clip = some clip)
      (hinst : p.actorInstance = some inst) (hactor : inst.actor = some n) (hslot : w.slots[n]? = some slot)
      (hjoint : slot.motionJoint = none) (hroot : slot.actor.skeleton.mainRoot? = none) :
      Resolution p w ⟨.error .noMotionJoint, w, []⟩
  | assigned {clip : Clip Float32} {inst : ActorInstance} {n j : Nat} {slot : Slot} (hclip : p.clip = some clip)
      (hinst : p.actorInstance = some inst) (hactor : inst.actor = some n) (hslot : w.slots[n]? = some slot)
      (hjoint : slot.motionJoint = some j) : Resolution p w ⟨.ok ⟨clip, slot.actor, j, p.retargeting⟩, w, []⟩
  | chosen {clip : Clip Float32} {inst : ActorInstance} {n j : Nat} {slot : Slot} (hclip : p.clip = some clip)
      (hinst : p.actorInstance = some inst) (hactor : inst.actor = some n) (hslot : w.slots[n]? = some slot)
      (hjoint : slot.motionJoint = none) (hroot : slot.actor.skeleton.mainRoot? = some j) :
      Resolution p w ⟨.ok ⟨clip, slot.actor, j, p.retargeting⟩, w.setMotionJoint n (some j),
        [.jointChosen n slot.actor.name j]⟩

/-- Resolving a playback ends in one of the six ways. -/
theorem resolution (p : Playback) (w : World) : Resolution p w (p.resolve w) := by
  cases hclip : p.clip with
  | none =>
    have hrun : p.resolve w = ⟨.error .missingClip, w, []⟩ := by simp [resolve, parts, hclip]
    exact hrun ▸ .noClip hclip
  | some clip =>
    cases hinst : p.actorInstance with
    | none =>
      have hrun : p.resolve w = ⟨.error .missingActorInstance, w, []⟩ := by simp [resolve, parts, hclip, hinst]
      exact hrun ▸ .noInstance hclip hinst
    | some inst =>
      cases hslot : inst.slot? w with
      | none =>
        have hrun : p.resolve w = ⟨.error .missingActor, w, []⟩ := by
          cases hactor : inst.actor with
          | none => simp [resolve, parts, hclip, hinst, hactor]
          | some n =>
            have hnone : w.slots[n]? = none := by simpa [ActorInstance.slot?, hactor] using hslot
            simp [resolve, parts, hclip, hinst, hactor, hnone]
        exact hrun ▸ .detached hclip hinst hslot
      | some slot =>
        obtain ⟨n, hactor, hslot⟩ := ActorInstance.slot?_eq_some_iff.1 hslot
        have hparts : p.parts w = .ok (clip, n, slot) := by simp [parts, hclip, hinst, hactor, hslot]
        cases hjoint : slot.motionJoint with
        | some j =>
          have hrun : p.resolve w = ⟨.ok ⟨clip, slot.actor, j, p.retargeting⟩, w, []⟩ := by simp [resolve, hparts, hjoint]
          exact hrun ▸ .assigned hclip hinst hactor hslot hjoint
        | none =>
          cases hroot : slot.actor.skeleton.mainRoot? with
          | none =>
            have hrun : p.resolve w = ⟨.error .noMotionJoint, w, []⟩ := by simp [resolve, hparts, hjoint, hroot]
            exact hrun ▸ .rootless hclip hinst hactor hslot hjoint hroot
          | some j =>
            have hrun : p.resolve w = ⟨.ok ⟨clip, slot.actor, j, p.retargeting⟩, w.setMotionJoint n (some j),
                [.jointChosen n slot.actor.name j]⟩ := by simp [resolve, hparts, hjoint, hroot]
            exact hrun ▸ .chosen hclip hinst hactor hslot hjoint hroot

/-- A playback that stands for a motion names its clip and says whether it is retargeted. -/
theorem of_resolve_ok {p : Playback} {w : World} {m : Motion Float32} (h : (p.resolve w).result = .ok m) :
    p.clip = some m.clip ∧ m.retargeting = p.retargeting := by
  have hends := p.resolution w
  generalize p.resolve w = o at h hends
  cases hends with
  | assigned hclip | chosen hclip =>
    obtain rfl := Except.ok.inj h
    exact ⟨hclip, rfl⟩
  | _ => cases h

/-- A playback that leaves something open changes nothing and logs nothing. -/
theorem resolve_of_error {p : Playback} {w : World} {cause : ContextError} (h : (p.resolve w).result = .error cause) :
    p.resolve w = ⟨.error cause, w, []⟩ := by
  have hends := p.resolution w
  generalize p.resolve w = o at h hends ⊢
  cases hends with
  | assigned | chosen => cases h
  | _ => obtain rfl := Except.error.inj h; rfl

/-- The pieces of a playback in words. -/
def describe (p : Playback) : String :=
  let flag (b : Bool) : String := if b then "true" else "false"
  let actor (inst : ActorInstance) : String :=
    match inst.actor with
    | none => "None"
    | some n => "Some(" ++ toString n ++ ")"
  let actorInstance :=
    match p.actorInstance with
    | none => "None"
    | some inst => "Some(ActorInstance \x7b actor: " ++ actor inst ++ " \x7d)"
  "PlaybackContext \x7b has_clip: " ++ flag p.clip.isSome ++ ", actor_instance: " ++ actorInstance ++
    ", retargeting: " ++ flag p.retargeting ++ " \x7d"

end Playback

/-! ## Samplers -/

/-- A motion and how it is sampled. -/
structure Sampler where
  motion : Motion Float32
  plan : Plan Float32

namespace Sampler

/-- The joint at the times of the samples. -/
def poses (s : Sampler) : List (Transform Float32) := s.plan.poses s.motion.pose

/-- The steps from each sampled pose to the next, as a walk over the samples comes to them. -/
def steps (s : Sampler) : List (Transform Float32 × Transform Float32) := s.plan.walk s.motion.pose

end Sampler

/-- The sampler for a playback. -/
def Playback.sampler (p : Playback) (s : Settings) : Action (Except ContextError Sampler) := do
  match ← p.resolve with
  | .error cause => return .error cause
  | .ok motion =>
    Action.log (motion.planLog s)
    return .ok ⟨motion, motion.plan s⟩

/-- A playback that leaves something open has no sampler. -/
theorem Playback.sampler_of_error {p : Playback} {w : World} (s : Settings) {cause : ContextError}
    (hr : (p.resolve w).result = .error cause) :
    p.sampler s w = ⟨.error cause, (p.resolve w).world, (p.resolve w).log⟩ := by
  simp [sampler, hr]

/-- The sampler of a playback is that of the motion it stands for. -/
theorem Playback.sampler_of_ok {p : Playback} {w : World} (s : Settings) {motion : Motion Float32}
    (hr : (p.resolve w).result = .ok motion) :
    p.sampler s w = ⟨.ok ⟨motion, motion.plan s⟩, (p.resolve w).world, (p.resolve w).log ++ motion.planLog s⟩ := by
  simp [sampler, hr]

end Gait
