import Mathlib
import Gait.Proofs.World.Settling
import Gait.Proofs.Skeletons.Roots

/-!
# How resolving ends

Of the six ways in which resolving a playback ends (`Playback.Resolution`), four say what is missing, the first of four things in
order; in the others the actor has a motion joint, or it is given one. Only the last of these writes anything, one joint for one
actor and one line into the log, and after it the actor has a motion joint. So a failure leaves all as it was, and what is resolved
again at once is answered as before and leaves all as it is (`resolve_reports_or_settles`).
-/

namespace Gait

namespace Playback

variable {p : Playback} {w : World}

/-! ## What is missing -/

theorem resolve_eq_missingClip_iff : (p.resolve w).result = .error .missingClip ↔ p.clip = none := by
  have h := p.resolution w
  generalize p.resolve w = o at h ⊢
  cases h <;> simp_all

theorem resolve_eq_missingActorInstance_iff :
    (p.resolve w).result = .error .missingActorInstance ↔ p.clip ≠ none ∧ p.actorInstance = none := by
  have h := p.resolution w
  generalize p.resolve w = o at h ⊢
  cases h <;> simp_all

theorem resolve_eq_missingActor_iff : (p.resolve w).result = .error .missingActor ↔
    p.clip ≠ none ∧ ∃ inst, p.actorInstance = some inst ∧ inst.slot? w = none := by
  have h := p.resolution w
  generalize p.resolve w = o at h ⊢
  cases h with
  | noClip hclip => simp [hclip]
  | noInstance _ hinst => simp [hinst]
  | detached hclip hinst hactor => simp [hclip, hinst, hactor]
  | rootless _ hinst hactor hslot | assigned _ hinst hactor hslot | chosen _ hinst hactor hslot =>
    simp [hinst, ActorInstance.slot?_eq_some_iff.2 ⟨_, hactor, hslot⟩]

theorem resolve_eq_noMotionJoint_iff : (p.resolve w).result = .error .noMotionJoint ↔
    p.clip ≠ none ∧ ∃ inst slot, p.actorInstance = some inst ∧ inst.slot? w = some slot ∧ slot.motionJoint = none ∧
      slot.actor.skeleton.roots = [] := by
  have h := p.resolution w
  generalize p.resolve w = o at h ⊢
  cases h with
  | noClip hclip => simp [hclip]
  | noInstance _ hinst => simp [hinst]
  | detached _ hinst hactor => simp [hinst, hactor]
  | rootless hclip hinst hactor hslot hjoint hroot =>
    simp [hclip, hinst, ActorInstance.slot?_eq_some_iff.2 ⟨_, hactor, hslot⟩, hjoint, Skeleton.mainRoot?_eq_none_iff.1 hroot]
  | assigned _ hinst hactor hslot hjoint =>
    simp [hinst, ActorInstance.slot?_eq_some_iff.2 ⟨_, hactor, hslot⟩, hjoint]
  | chosen _ hinst hactor hslot _ hroot =>
    simp [hinst, ActorInstance.slot?_eq_some_iff.2 ⟨_, hactor, hslot⟩, ← Skeleton.mainRoot?_eq_none_iff, hroot]

/-! ## What is left behind -/

/-- A playback resolved again at once is answered as before, and nothing is written down or logged. -/
theorem resolve_resolve (p : Playback) (w : World) :
    p.resolve (p.resolve w).world = ⟨(p.resolve w).result, (p.resolve w).world, []⟩ := by
  have h := p.resolution w
  generalize hrun : p.resolve w = o at h
  cases h with
  | chosen hclip hinst hactor hslot hjoint hroot =>
    simp [resolve, parts, hclip, hinst, hactor, World.getElem?_setMotionJoint, hslot]
  | _ => exact hrun

/-- Resolving a playback fails for the first thing that is missing: the clip, the instance, its actor, or last a motion joint,
where the actor has none and its skeleton has no root. A failure changes no actor and logs nothing. Otherwise the motion is that of
the clip and of the actor's motion joint, if it has one, whatever its number, and then nothing is changed or logged either; or of
the main root, which becomes the motion joint of this actor and of no other, with one line in the log. What is resolved again at
once is answered as before, with nothing changed or logged. -/
theorem resolve_reports_or_settles (p : Playback) (w : World) :
    ((p.resolve w).result = .error .missingClip ↔ p.clip = none) ∧
      ((p.resolve w).result = .error .missingActorInstance ↔ p.clip ≠ none ∧ p.actorInstance = none) ∧
      ((p.resolve w).result = .error .missingActor ↔
        p.clip ≠ none ∧ ∃ inst, p.actorInstance = some inst ∧ inst.slot? w = none) ∧
      ((p.resolve w).result = .error .noMotionJoint ↔
        p.clip ≠ none ∧ ∃ inst slot, p.actorInstance = some inst ∧ inst.slot? w = some slot ∧ slot.motionJoint = none ∧
          slot.actor.skeleton.roots = []) ∧
      (∀ cause, (p.resolve w).result = .error cause → (p.resolve w).world = w ∧ (p.resolve w).log = []) ∧
      (∀ m, (p.resolve w).result = .ok m → ∃ n slot, p.actor? = some n ∧ w.slots[n]? = some slot ∧
        p.clip = some m.clip ∧ m.actor = slot.actor ∧ m.retargeting = p.retargeting ∧
          (∀ j, slot.motionJoint = some j → m.joint = j ∧ (p.resolve w).world = w ∧ (p.resolve w).log = []) ∧
          (slot.motionJoint = none → slot.actor.skeleton.mainRoot? = some m.joint ∧
            (∀ i, (p.resolve w).world.slots[i]? =
              if i = n then some { slot with motionJoint := some m.joint } else w.slots[i]?) ∧
            (p.resolve w).log = [.jointChosen n slot.actor.name m.joint] ∧
            (p.resolve w).log.map LogLine.level = [.debug])) ∧
      p.resolve (p.resolve w).world = ⟨(p.resolve w).result, (p.resolve w).world, []⟩ := by
  refine ⟨resolve_eq_missingClip_iff, resolve_eq_missingActorInstance_iff, resolve_eq_missingActor_iff,
    resolve_eq_noMotionJoint_iff, fun cause hcause => ?_, ?_, resolve_resolve p w⟩
  · rw [resolve_of_error hcause]
    exact ⟨rfl, rfl⟩
  · have h := p.resolution w
    generalize p.resolve w = o at h ⊢
    intro m hm
    cases h with
    | @assigned clip inst n j slot hclip hinst hactor hslot hjoint =>
      obtain rfl := Except.ok.inj hm
      refine ⟨n, slot, by simp [actor?, hinst, hactor], hslot, hclip, rfl, rfl, fun j' hj' => ?_, fun hnone => ?_⟩
      · exact ⟨Option.some.inj (hjoint.symm.trans hj'), rfl, rfl⟩
      · cases hjoint.symm.trans hnone
    | @chosen clip inst n j slot hclip hinst hactor hslot hjoint hroot =>
      obtain rfl := Except.ok.inj hm
      refine ⟨n, slot, by simp [actor?, hinst, hactor], hslot, hclip, rfl, rfl, fun j' hj' => ?_, fun _ => ?_⟩
      · cases hjoint.symm.trans hj'
      · exact ⟨hroot, fun i => World.getElem?_setMotionJoint_of_some hslot _ i, rfl, rfl⟩
    | _ => cases hm

/-- Two joints that are each the other's parent leave no root to choose. -/
example (clip : Clip Float32) :
    ((⟨some clip, some ⟨some 0⟩, false⟩ : Playback).resolve
      ⟨[⟨⟨"ring", ⟨#[⟨"left", some 1⟩, ⟨"right", some 0⟩]⟩, #[]⟩, none⟩]⟩).result = .error .noMotionJoint :=
  rfl

end Playback

end Gait
