import Mathlib.Data.List.Induction
import Gait.Proofs.World.Events

/-!
# The life of a motion joint

The motion joint of an actor after any run is told by the events of the run alone (`motionJoint_life_cycle`): it is the joint
assigned last; if none was, or the last assignment cleared it, it is the main root of the skeleton as soon as a playback of the
actor has been resolved since. The log has a line for each time that a joint was found, and only for those
(`Accounts`): within an operation that assigns nothing a joint, once there, stays.
-/

namespace Gait

/-! ## What the events of a run say about one actor -/

namespace Event

/-- Whether an event asks for the joint of an actor: a playback with a clip and an instance of the actor is resolved. -/
def asksFor (n : Nat) : Event → Bool
  | .resolved p => p.clip.isSome && p.actor? == some n
  | .assigned _ _ => false

/-- The joint, or the want of one, that an event assigns to an actor. -/
def assigns? (n : Nat) : Event → Option (Option Nat)
  | .resolved _ => none
  | .assigned m joint => if m = n then some joint else none

/-- What was assigned to an actor last, if anything was. -/
def lastAssigned? (n : Nat) (es : List Event) : Option (Option Nat) := es.reverse.findSome? (assigns? n)

/-- The events after the last assignment to an actor, the latest first. -/
def sinceAssigned (n : Nat) (es : List Event) : List Event := es.reverse.takeWhile fun e => (e.assigns? n).isNone

theorem asksFor_resolved_iff {n : Nat} {p : Playback} : asksFor n (.resolved p) = true ↔ p.target? = some n := by
  rw [asksFor, Playback.target?]
  cases p.clip <;> simp

/-- An event settles the actor that it asks for, gives the actor that it assigns to what it assigns, and leaves all others
as they are. -/
theorem getElem?_apply (e : Event) (w : World) (n : Nat) :
    (e.apply w).slots[n]? = (w.slots[n]?).map fun slot =>
      match e.assigns? n with
      | some joint => { slot with motionJoint := joint }
      | none => if e.asksFor n then slot.settle else slot := by
  cases e with
  | assigned m joint =>
    rw [apply, World.getElem?_setMotionJoint]
    by_cases h : m = n <;> simp [assigns?, asksFor, h]
  | resolved p =>
    rw [apply, Playback.resolve_world]
    cases ht : p.target? with
    | none =>
      have hask : asksFor n (.resolved p) = false := by rw [← Bool.not_eq_true, asksFor_resolved_iff, ht]; simp
      simp [assigns?, hask]
    | some m =>
      have hask : asksFor n (.resolved p) = true ↔ m = n := by rw [asksFor_resolved_iff, ht, Option.some.injEq]
      rw [Option.toList_some, List.foldl_cons, List.foldl_nil, World.getElem?_settle]
      by_cases h : m = n
      · simp [assigns?, hask.2 h, h]
      · have hno : asksFor n (.resolved p) = false := by rw [← Bool.not_eq_true, hask]; exact h
        simp [assigns?, hno, h]

end Event

/-- The motion joint that events leave an actor with: the one assigned last, or had from the start; if that is none, the main
root of the skeleton once it has been asked for. -/
def Slot.jointAfter (slot : Slot) (n : Nat) (es : List Event) : Option Nat :=
  match (Event.lastAssigned? n es).getD slot.motionJoint with
  | some joint => some joint
  | none => if (Event.sinceAssigned n es).any (·.asksFor n) then slot.actor.skeleton.mainRoot? else none

namespace Slot

theorem jointAfter_nil (slot : Slot) (n : Nat) : slot.jointAfter n [] = slot.motionJoint := by
  cases h : slot.motionJoint <;> simp [jointAfter, Event.lastAssigned?, Event.sinceAssigned, h]

/-- An assignment to the actor decides. -/
theorem jointAfter_concat_of_assigns {n : Nat} {e : Event} {joint : Option Nat} (h : e.assigns? n = some joint)
    (slot : Slot) (es : List Event) : slot.jointAfter n (es ++ [e]) = joint := by
  cases joint <;> simp [jointAfter, Event.lastAssigned?, Event.sinceAssigned, h]

/-- Once the joint has been asked for it is there, if there is one. -/
theorem jointAfter_concat_of_asksFor {n : Nat} {e : Event} (h : e.assigns? n = none) (hask : e.asksFor n = true)
    (slot : Slot) (es : List Event) :
    slot.jointAfter n (es ++ [e]) = (slot.jointAfter n es).or slot.actor.skeleton.mainRoot? := by
  have hlast : Event.lastAssigned? n (es ++ [e]) = Event.lastAssigned? n es := by simp [Event.lastAssigned?, h]
  have hsince : Event.sinceAssigned n (es ++ [e]) = e :: Event.sinceAssigned n es := by simp [Event.sinceAssigned, h]
  rw [jointAfter, jointAfter, hlast, hsince]
  cases (Event.lastAssigned? n es).getD slot.motionJoint with
  | some joint => simp
  | none => cases hany : (Event.sinceAssigned n es).any (·.asksFor n) <;> simp [hask]

/-- Any other event changes nothing. -/
theorem jointAfter_concat_of_other {n : Nat} {e : Event} (h : e.assigns? n = none) (hask : e.asksFor n = false)
    (slot : Slot) (es : List Event) : slot.jointAfter n (es ++ [e]) = slot.jointAfter n es := by
  have hlast : Event.lastAssigned? n (es ++ [e]) = Event.lastAssigned? n es := by simp [Event.lastAssigned?, h]
  have hsince : Event.sinceAssigned n (es ++ [e]) = e :: Event.sinceAssigned n es := by simp [Event.sinceAssigned, h]
  rw [jointAfter, jointAfter, hlast, hsince, List.any_cons, hask, Bool.false_or]

/-- Events that neither assign to the actor nor ask for its joint change nothing. -/
theorem jointAfter_of_other {n : Nat} {es : List Event} (h : ∀ e ∈ es, e.assigns? n = none ∧ e.asksFor n = false)
    (slot : Slot) : slot.jointAfter n es = slot.motionJoint := by
  induction es using List.reverseRecOn with
  | nil => exact slot.jointAfter_nil n
  | append_singleton es e ih =>
    obtain ⟨ha, hask⟩ := h e (by simp)
    rw [jointAfter_concat_of_other ha hask]
    exact ih fun e' he' => h e' (by simp [he'])

end Slot

/-- After events each actor has the joint that they say, and is otherwise as it was. -/
theorem Event.getElem?_foldl_apply (es : List Event) (w : World) (n : Nat) :
    (es.foldl Event.apply w).slots[n]? =
      (w.slots[n]?).map fun slot => { slot with motionJoint := slot.jointAfter n es } := by
  induction es using List.reverseRecOn with
  | nil => simp [Slot.jointAfter_nil]
  | append_singleton es e ih =>
    rw [List.foldl_append, List.foldl_cons, List.foldl_nil, Event.getElem?_apply, ih, Option.map_map]
    congr 1
    funext slot
    cases ha : e.assigns? n with
    | some joint => simp [Slot.jointAfter_concat_of_assigns ha]
    | none =>
      cases hask : e.asksFor n with
      | true => simp [Slot.jointAfter_concat_of_asksFor ha hask, Slot.settle, Slot.joint?]
      | false => simp [Slot.jointAfter_concat_of_other ha hask]

/-! ## The log tells each joint that was found -/

/-- Whether a line of the log says that a joint was found for an actor. -/
def LogLine.isChoiceFor (n : Nat) : LogLine → Bool
  | .jointChosen m _ _ => m == n
  | _ => false

/-- The motion joint of an actor, if there is such an actor and it has one. -/
def World.motionJoint? (w : World) (n : Nat) : Option Nat := (w.slots[n]?).bind (·.motionJoint)

/-- One if an actor has a motion joint in the second world and none in the first, and zero otherwise. -/
def World.gains (w w' : World) (n : Nat) : Nat :=
  if (w.motionJoint? n).isNone && (w'.motionJoint? n).isSome then 1 else 0

/-- An outcome that takes no motion joint away, and whose log has a line for each actor that gains one and no other such
line. -/
def Outcome.Accounts {β : Type} (w : World) (o : Outcome β) : Prop :=
  ∀ n, ((w.motionJoint? n).isSome → (o.world.motionJoint? n).isSome) ∧
    o.log.countP (·.isChoiceFor n) = w.gains o.world n

namespace Outcome

variable {β γ : Type} {w : World}

/-- An outcome that changes nothing and logs no choice. -/
theorem accounts_refl (b : β) {lines : List LogLine} (h : ∀ n, lines.countP (·.isChoiceFor n) = 0) :
    Accounts w ⟨b, w, lines⟩ := by
  intro n
  refine ⟨id, ?_⟩
  rw [h n, World.gains]
  cases w.motionJoint? n <;> rfl

/-- What two outcomes account for one after the other, both together do. -/
theorem Accounts.trans {o : Outcome β} {o' : Outcome γ} (h : Accounts w o) (h' : Accounts o.world o') (c : γ) :
    Accounts w ⟨c, o'.world, o.log ++ o'.log⟩ := by
  intro n
  obtain ⟨hkeep, hcount⟩ := h n
  obtain ⟨hkeep', hcount'⟩ := h' n
  refine ⟨fun hw => hkeep' (hkeep hw), ?_⟩
  simp only at hkeep' hcount' ⊢
  rw [List.countP_append, hcount, hcount', World.gains, World.gains, World.gains]
  cases h0 : w.motionJoint? n <;> cases h1 : o.world.motionJoint? n <;> cases h2 : o'.world.motionJoint? n <;>
    simp_all

/-- Lines that log no choice may follow. -/
theorem Accounts.logs {o : Outcome β} (h : Accounts w o) {lines : List LogLine}
    (hlines : ∀ n, lines.countP (·.isChoiceFor n) = 0) (c : γ) : Accounts w ⟨c, o.world, o.log ++ lines⟩ :=
  h.trans (accounts_refl c hlines) c

end Outcome

open Outcome

/-- Resolving a playback logs a choice if it writes a motion joint. -/
theorem Playback.resolve_accounts (p : Playback) (w : World) : Accounts w (p.resolve w) := by
  have hends := p.resolution w
  generalize p.resolve w = o at hends ⊢
  cases hends with
  | @chosen clip inst n j slot hclip hinst hactor hslot hjoint hroot =>
    intro m
    by_cases hm : m = n
    · subst hm
      simp [World.motionJoint?, World.gains, World.getElem?_setMotionJoint_of_some hslot, hslot, hjoint, LogLine.isChoiceFor]
    · have hsame : (w.setMotionJoint n (some j)).motionJoint? m = w.motionJoint? m := by
        rw [World.motionJoint?, World.motionJoint?, World.getElem?_setMotionJoint_of_some hslot, if_neg hm]
      have hother : (LogLine.jointChosen n slot.actor.name j).isChoiceFor m = false := by
        simp [LogLine.isChoiceFor, Ne.symm hm]
      refine ⟨fun h => hsame ▸ h, ?_⟩
      rw [World.gains, hsame, List.countP_singleton, hother]
      cases w.motionJoint? m <;> rfl
  | _ => exact accounts_refl _ fun _ => rfl

/-- The lines about planning samples tell no choice. -/
theorem Motion.countP_planLog (m : Motion Float32) (s : Settings) (n : Nat) :
    (m.planLog s).countP (·.isChoiceFor n) = 0 := by
  rw [planLog, List.countP_append, Settings.rateForLog, Plan.ofRateLog]
  split <;> split <;> simp [LogLine.isChoiceFor]

theorem Motion.countP_measureLog (m : Motion Float32) (e : Evaluator) (s : Settings) (n : Nat) :
    (m.measureLog e s).countP (·.isChoiceFor n) = 0 := by
  rw [measureLog]
  split
  · exact m.countP_planLog s n
  · rfl

theorem Evaluator.evaluate_accounts (e : Evaluator) (p : Playback) (s : Settings) (w : World) :
    Accounts w (e.evaluate p s w) := by
  cases he : e.isPlaceholder with
  | true => exact evaluate_of_placeholder he s ▸ accounts_refl _ fun _ => rfl
  | false =>
    cases hr : (p.resolve w).result with
    | error cause =>
      rw [evaluate_of_error he s hr]
      exact (p.resolve_accounts w).logs (fun _ => rfl) _
    | ok motion =>
      rw [evaluate_of_ok he s hr]
      refine (p.resolve_accounts w).logs (fun n => ?_) _
      rw [List.countP_append, motion.countP_measureLog]
      rfl

theorem Playback.sampler_accounts (p : Playback) (s : Settings) (w : World) : Accounts w (p.sampler s w) := by
  cases hr : (p.resolve w).result with
  | error cause =>
    rw [sampler_of_error s hr]
    exact p.resolve_accounts w
  | ok motion =>
    rw [sampler_of_ok s hr]
    exact (p.resolve_accounts w).logs (motion.countP_planLog s) _

/-- A run of actions that account for themselves, up to a failure, accounts for itself. -/
theorem Action.eachUntilError_accounts {β γ ε : Type} {f : γ → Action (Except ε β)} (h : ∀ c w, Accounts w (f c w))
    (cs : List γ) (w : World) : Accounts w (eachUntilError f cs w) := by
  induction cs generalizing w with
  | nil => exact accounts_refl _ fun _ => rfl
  | cons c cs ih =>
    cases hc : (f c w).result with
    | error e =>
      rw [eachUntilError_cons_error hc]
      exact h c w
    | ok b =>
      rw [eachUntilError_cons_ok hc]
      exact (h c w).trans (ih _) _

/-! ## The life cycle -/

namespace Operation

/-- Whether an operation assigns a motion joint. -/
def isAssignment : Operation → Bool
  | .assign _ _ => true
  | _ => false

/-- The playbacks that an operation is about. -/
def playbacks : Operation → List Playback
  | .resolve p => [p]
  | .evaluate _ p _ => [p]
  | .sample p _ => [p]
  | .place _ p => [p]
  | .placeAll _ ps => ps
  | .assign _ _ => []

/-- How often in a run an actor comes from no motion joint to one without being assigned it. -/
def findings (n : Nat) : List Operation → World → Nat
  | [], _ => 0
  | op :: ops, w => (if op.isAssignment then 0 else w.gains (op.run w).world n) + findings n ops (op.run w).world

/-- An operation that assigns nothing accounts for itself. -/
theorem run_accounts {op : Operation} (h : op.isAssignment = false) (w : World) : Accounts w (op.run w) := by
  have wrap {β : Type} {o : Outcome β} (ho : Accounts w o) (a : Answer) : Accounts w ⟨a, o.world, o.log ++ []⟩ :=
    ho.logs (fun _ => rfl) a
  cases op with
  | resolve p => exact wrap (p.resolve_accounts w) _
  | evaluate e p s => exact wrap (e.evaluate_accounts p s w) _
  | sample p s => exact wrap (p.sampler_accounts s w) _
  | place a p => exact wrap (Action.eachUntilError_accounts (fun e => e.evaluate_accounts p a.settings) _ w) _
  | placeAll a ps =>
    have hone (p : Playback) (w : World) : Accounts w (a.coordinates p w) :=
      Action.eachUntilError_accounts (fun e => e.evaluate_accounts p a.settings) _ w
    exact wrap (Action.eachUntilError_accounts hone ps w) _
  | assign n joint => cases h

/-- The log of a run tells of each joint that was found. -/
theorem countP_log_runAll (ops : List Operation) (w : World) (n : Nat) :
    (runAll ops w).log.countP (·.isChoiceFor n) = findings n ops w := by
  induction ops generalizing w with
  | nil => rfl
  | cons op ops ih =>
    rw [runAll_cons, List.countP_append, ih, findings]
    cases h : op.isAssignment with
    | false => simp [(run_accounts h w n).2]
    | true =>
      cases op with
      | assign m joint => simp [run]
      | _ => cases h

/-- An operation resolves no playback but those that it is about, and assigns only as an assignment. -/
theorem mem_events {op : Operation} {w : World} {e : Event} (h : e ∈ op.events w) :
    (∃ p ∈ op.playbacks, e = .resolved p) ∨ ∃ n joint, op = .assign n joint ∧ e = .assigned n joint := by
  cases op with
  | resolve p => exact Or.inl ⟨p, List.mem_singleton_self p, List.mem_singleton.1 h⟩
  | evaluate k p s =>
    refine Or.inl ⟨p, List.mem_singleton_self p, ?_⟩
    cases hk : k.isPlaceholder <;> simp_all [events]
  | sample p s => exact Or.inl ⟨p, List.mem_singleton_self p, List.mem_singleton.1 h⟩
  | place a p =>
    refine Or.inl ⟨p, List.mem_singleton_self p, ?_⟩
    cases ha : a.asks <;> simp_all [events]
  | placeAll a ps =>
    cases ha : a.asks with
    | false => simp [events, ha] at h
    | true =>
      simp only [events, ha, if_true, List.mem_map] at h
      obtain ⟨p, hp, rfl⟩ := h
      exact Or.inl ⟨p, a.mem_of_mem_visits hp, rfl⟩
  | assign n joint => exact Or.inr ⟨n, joint, rfl, List.mem_singleton.1 h⟩

/-- An operation that is about no instance of an actor and assigns it nothing leaves the actor as it is. -/
theorem getElem?_run_of_unrelated {op : Operation} {n : Nat} (hp : ∀ p ∈ op.playbacks, p.actor? ≠ some n)
    (ha : ∀ joint, op ≠ .assign n joint) (w : World) : (op.run w).world.slots[n]? = w.slots[n]? := by
  have hother : ∀ e ∈ op.events w, e.assigns? n = none ∧ e.asksFor n = false := by
    intro e he
    rcases mem_events he with ⟨p, hmem, rfl⟩ | ⟨m, joint, rfl, rfl⟩
    · exact ⟨rfl, by simp [Event.asksFor, hp p hmem]⟩
    · have hm : m ≠ n := fun h => ha joint (by rw [h])
      exact ⟨by simp [Event.assigns?, hm], rfl⟩
  rw [run_world, Event.getElem?_foldl_apply]
  cases w.slots[n]? with
  | none => rfl
  | some slot => simp [slot.jointAfter_of_other hother]

/-- After any run each actor has the motion joint that the events of the run say, and is otherwise as it was; the log tells of an
actor as often as a joint was found for it; and what is not about an actor leaves it alone. -/
theorem motionJoint_life_cycle (w : World) (ops : List Operation) (n : Nat) :
    (runAll ops w).world.slots[n]? =
        (w.slots[n]?).map (fun slot => { slot with motionJoint := slot.jointAfter n (trace ops w) }) ∧
      (runAll ops w).log.countP (·.isChoiceFor n) = findings n ops w ∧
      ∀ (op : Operation) (w' : World), (∀ p ∈ op.playbacks, p.actor? ≠ some n) → (∀ joint, op ≠ .assign n joint) →
        (op.run w').world.slots[n]? = w'.slots[n]? := by
  refine ⟨?_, countP_log_runAll ops w n, fun op w' hp ha => getElem?_run_of_unrelated hp ha w'⟩
  rw [runAll_world, Event.getElem?_foldl_apply]

end Operation

end Gait
