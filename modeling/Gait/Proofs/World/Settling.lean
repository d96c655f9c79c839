import Mathlib.Data.List.Forall2
import Gait.Operation

/-!
# Settling on motion joints

Resolving a playback reads the world through one thing only, the joint that each actor's motion is read off
(`Slot.joint?`), and does one thing only to it: it writes that joint down for the actor asked about (`World.settle`). So the
world with all joints written down (`World.settled`) is the same before and after, and it alone decides what is answered.
An action of which this is true is a question (`Action.IsQuestion`); in a run of questions that ends at the first failure
each is answered as if it were asked alone.
-/

namespace Gait

/-! ## The joint of an actor -/

/-- The joint that an actor's motion is read off: the one assigned or found before, else the one that a search finds. -/
def Slot.joint? (slot : Slot) : Option Nat := slot.motionJoint.or slot.actor.skeleton.mainRoot?

/-- The actor with that joint written down. -/
def Slot.settle (slot : Slot) : Slot := { slot with motionJoint := slot.joint? }

namespace Slot

@[simp] theorem settle_actor (slot : Slot) : slot.settle.actor = slot.actor := rfl

@[simp] theorem settle_motionJoint (slot : Slot) : slot.settle.motionJoint = slot.joint? := rfl

/-- Writing the joint down does not change which one it is. -/
@[simp] theorem joint?_settle (slot : Slot) : slot.settle.joint? = slot.joint? := by
  simp only [joint?, settle]
  cases slot.motionJoint <;> simp

@[simp] theorem settle_settle (slot : Slot) : slot.settle.settle = slot.settle := by
  rw [settle, joint?_settle]
  rfl

/-- Settling changes nothing if what is written down is the joint. -/
theorem settle_eq_self {slot : Slot} (h : slot.joint? = slot.motionJoint) : slot.settle = slot := by
  rw [settle, h]

theorem joint?_of_some {slot : Slot} {j : Nat} (h : slot.motionJoint = some j) : slot.joint? = some j := by
  rw [joint?, h, Option.some_or]

theorem joint?_of_none {slot : Slot} (h : slot.motionJoint = none) : slot.joint? = slot.actor.skeleton.mainRoot? := by
  rw [joint?, h, Option.none_or]

end Slot

/-! ## The world with joints written down -/

namespace World

/-- The world with the joint of one actor written down. -/
def settle (w : World) (n : Nat) : World := ⟨w.slots.modify n Slot.settle⟩

/-- The world with the joints of all actors written down. -/
def settled (w : World) : World := ⟨w.slots.map Slot.settle⟩

theorem getElem?_settle (w : World) (n i : Nat) :
    (w.settle n).slots[i]? = (w.slots[i]?).map fun slot => if n = i then slot.settle else slot := by
  rw [settle, List.getElem?_modify]
  cases w.slots[i]? <;> simp

theorem getElem?_settled (w : World) (i : Nat) : w.settled.slots[i]? = (w.slots[i]?).map Slot.settle := by
  rw [settled, List.getElem?_map]

/-- Worlds with the same actors in the same places are the same. -/
theorem ext_getElem? {w w' : World} (h : ∀ i : Nat, w.slots[i]? = w'.slots[i]?) : w = w' := by
  obtain ⟨slots⟩ := w
  obtain ⟨slots'⟩ := w'
  exact congrArg World.mk (List.ext_getElem? h)

/-- Settling one actor is a step towards the world where all are settled. -/
@[simp] theorem settled_settle (w : World) (n : Nat) : (w.settle n).settled = w.settled := by
  apply ext_getElem?
  intro i
  rw [getElem?_settled, getElem?_settle, getElem?_settled]
  cases w.slots[i]? with
  | none => rfl
  | some slot => by_cases h : n = i <;> simp [h]

/-- The order in which two actors are settled does not matter. -/
theorem settle_comm (w : World) (m n : Nat) : (w.settle m).settle n = (w.settle n).settle m := by
  apply ext_getElem?
  intro i
  simp only [getElem?_settle]
  cases w.slots[i]? with
  | none => rfl
  | some slot => by_cases hm : m = i <;> by_cases hn : n = i <;> simp [hm, hn]

/-- The order in which any actors are settled does not matter. -/
theorem foldl_settle_perm {ms ns : List Nat} (h : ms.Perm ns) (w : World) : ms.foldl settle w = ns.foldl settle w :=
  h.foldl_eq' (fun m _ n _ w => settle_comm w m n) w

theorem settled_foldl_settle (ns : List Nat) (w : World) : (ns.foldl settle w).settled = w.settled := by
  induction ns generalizing w with
  | nil => rfl
  | cons n ns ih => rw [List.foldl_cons, ih, settled_settle]

/-- Writing down the joint that a search finds for an actor without one settles that actor. -/
theorem setMotionJoint_joint? {w : World} {n : Nat} {slot : Slot} (hslot : w.slots[n]? = some slot) :
    w.setMotionJoint n slot.joint? = w.settle n := by
  apply ext_getElem?
  intro i
  rw [getElem?_setMotionJoint, getElem?_settle]
  by_cases h : n = i
  · subst h
    rw [hslot]
    simp [Slot.settle]
  · simp [h]

/-- Settling an actor whose joint is written down, or who has none, changes nothing. -/
theorem settle_eq_self {w : World} {n : Nat} (h : ∀ slot, w.slots[n]? = some slot → slot.joint? = slot.motionJoint) :
    w.settle n = w := by
  apply ext_getElem?
  intro i
  rw [getElem?_settle]
  by_cases hi : n = i
  · subst hi
    cases hs : w.slots[n]? with
    | none => rfl
    | some slot => simp [Slot.settle_eq_self (h slot hs)]
  · simp [hi]

theorem settle_eq_self_of_some {w : World} {n : Nat} {slot : Slot} (hslot : w.slots[n]? = some slot)
    (h : slot.joint? = slot.motionJoint) : w.settle n = w := by
  apply settle_eq_self
  intro slot' hslot'
  obtain rfl := Option.some.inj (hslot.symm.trans hslot')
  exact h

end World

/-! ## What resolving a playback does -/

namespace Playback

/-- The actor whose joint resolving a playback asks for: there must be a clip and an instance of an actor. -/
def target? (p : Playback) : Option Nat := if p.clip.isSome then p.actor? else none

theorem target?_eq_some {p : Playback} {clip : Clip Float32} {inst : ActorInstance} {n : Nat} (hclip : p.clip = some clip)
    (hinst : p.actorInstance = some inst) (hactor : inst.actor = some n) : p.target? = some n := by
  simp [target?, actor?, hclip, hinst, hactor]

/-- Resolving a playback settles its actor and changes nothing else. -/
theorem resolve_world (p : Playback) (w : World) :
    (p.resolve w).world = p.target?.toList.foldl World.settle w := by
  have hends := p.resolution w
  generalize p.resolve w = o at hends ⊢
  cases hends with
  | noClip hclip => simp [target?, hclip]
  | noInstance _ hinst => simp [target?, actor?, hinst]
  | @detached clip inst hclip hinst hslot =>
    cases hactor : inst.actor with
    | none => simp [target?, actor?, hinst, hactor]
    | some n =>
      have hnone : w.slots[n]? = none := by simpa [ActorInstance.slot?, hactor] using hslot
      rw [target?_eq_some hclip hinst hactor]
      exact (World.settle_eq_self (by simp [hnone])).symm
  | rootless hclip hinst hactor hslot hjoint hroot =>
    rw [target?_eq_some hclip hinst hactor]
    exact (World.settle_eq_self_of_some hslot (by rw [Slot.joint?_of_none hjoint, hroot, hjoint])).symm
  | assigned hclip hinst hactor hslot hjoint =>
    rw [target?_eq_some hclip hinst hactor]
    exact (World.settle_eq_self_of_some hslot (by rw [Slot.joint?_of_some hjoint, hjoint])).symm
  | chosen hclip hinst hactor hslot hjoint hroot =>
    rw [target?_eq_some hclip hinst hactor, ← hroot, ← Slot.joint?_of_none hjoint]
    exact World.setMotionJoint_joint? hslot

/-- What resolving a playback answers is decided by the settled world. -/
theorem resolve_result_settled (p : Playback) (w : World) : (p.resolve w).result = (p.resolve w.settled).result := by
  obtain ⟨_ | clip, _ | ⟨_ | n⟩, r⟩ := p
  case some.some.some =>
    cases hs : w.slots[n]? with
    | none => simp [resolve, parts, hs, World.getElem?_settled]
    | some slot =>
      cases hj : slot.motionJoint <;> cases hr : slot.actor.skeleton.mainRoot? <;>
        simp [resolve, parts, hs, World.getElem?_settled, Slot.joint?, hj, hr]
  all_goals rfl

/-- Worlds with the same settled world give the same answer. -/
theorem resolve_result_congr (p : Playback) {w w' : World} (h : w.settled = w'.settled) :
    (p.resolve w).result = (p.resolve w').result := by
  rw [resolve_result_settled p w, resolve_result_settled p w', h]

@[simp] theorem settled_resolve_world (p : Playback) (w : World) : (p.resolve w).world.settled = w.settled := by
  rw [resolve_world, World.settled_foldl_settle]

end Playback

/-! ## Questions -/

namespace Action

variable {β γ ε : Type}

/-- An action that only asks: it may write motion joints down, but it leaves the settled world as it is, and that world alone
decides its answer. -/
structure IsQuestion (a : Action β) : Prop where
  settled_world (w : World) : (a w).world.settled = w.settled
  result_congr {w w' : World} (h : w.settled = w'.settled) : (a w).result = (a w').result

variable {f : γ → Action (Except ε β)} {cs : List γ} {w : World}

/-- Questions asked up to the first failure are a question. -/
theorem isQuestion_eachUntilError (h : ∀ c, (f c).IsQuestion) (cs : List γ) : (eachUntilError f cs).IsQuestion where
  settled_world w := by
    induction cs generalizing w with
    | nil => rfl
    | cons c cs ih =>
      cases hc : (f c w).result with
      | error e => rw [eachUntilError_cons_error hc, (h c).settled_world]
      | ok b => rw [eachUntilError_cons_ok hc, ih, (h c).settled_world]
  result_congr {w w'} hw := by
    induction cs generalizing w w' with
    | nil => rfl
    | cons c cs ih =>
      have same := (h c).result_congr hw
      cases hc : (f c w).result with
      | error e => rw [eachUntilError_cons_error hc, eachUntilError_cons_error (same ▸ hc)]
      | ok b =>
        have hnext : (f c w).world.settled = (f c w').world.settled := by
          rw [(h c).settled_world, (h c).settled_world, hw]
        rw [eachUntilError_cons_ok hc, eachUntilError_cons_ok (same ▸ hc), ih hnext]

/-- Questions all of which are answered are answered in order, each as if it were asked alone. -/
theorem eachUntilError_ok_iff (h : ∀ c, (f c).IsQuestion) {bs : List β} :
    (eachUntilError f cs w).result = .ok bs ↔ List.Forall₂ (fun c b => (f c w).result = .ok b) cs bs := by
  induction cs generalizing w bs with
  | nil =>
    rw [eachUntilError_nil, List.forall₂_nil_left_iff, Except.ok.injEq]
    exact eq_comm
  | cons c cs ih =>
    have alone (c' : γ) : (f c' (f c w).world).result = (f c' w).result := (h c').result_congr ((h c).settled_world w)
    rw [List.forall₂_cons_left_iff]
    cases hc : (f c w).result with
    | error e => simp [eachUntilError_cons_error hc]
    | ok b =>
      rw [eachUntilError_cons_ok hc]
      constructor
      · intro hrun
        cases hrest : (eachUntilError f cs (f c w).world).result with
        | error e => rw [hrest] at hrun; cases hrun
        | ok bs' =>
          rw [hrest] at hrun
          exact ⟨b, bs', rfl, by simpa only [alone] using ih.1 hrest, (Except.ok.inj hrun).symm⟩
      · rintro ⟨b', bs', hb, hrest, rfl⟩
        obtain rfl : b = b' := Except.ok.inj hb
        have hrun : (eachUntilError f cs (f c w).world).result = .ok bs' := ih.2 (by simpa only [alone] using hrest)
        simp only [hrun]
        rfl

/-- Questions fail as the first of them does that would fail if it were asked alone. -/
theorem eachUntilError_error_iff (h : ∀ c, (f c).IsQuestion) {e : ε} :
    (eachUntilError f cs w).result = .error e ↔
      ∃ before c after, cs = before ++ c :: after ∧ (∀ c' ∈ before, ∃ b, (f c' w).result = .ok b) ∧
        (f c w).result = .error e := by
  induction cs generalizing w with
  | nil => simp
  | cons c cs ih =>
    have alone (c' : γ) : (f c' (f c w).world).result = (f c' w).result := (h c').result_congr ((h c).settled_world w)
    cases hc : (f c w).result with
    | error e' =>
      rw [eachUntilError_cons_error hc]
      constructor
      · intro he
        obtain rfl : e' = e := Except.error.inj he
        exact ⟨[], c, cs, rfl, by simp, hc⟩
      · rintro ⟨_ | ⟨c', before⟩, d, after, hsplit, hbefore, hd⟩
        · obtain ⟨rfl, rfl⟩ := List.cons.inj hsplit
          obtain rfl : e' = e := Except.error.inj (hc.symm.trans hd)
          rfl
        · obtain ⟨rfl, rfl⟩ := List.cons.inj hsplit
          obtain ⟨b, hb⟩ := hbefore c List.mem_cons_self
          cases hc.symm.trans hb
    | ok b =>
      rw [eachUntilError_cons_ok hc]
      have hrun : (eachUntilError f cs (f c w).world).result.map (b :: ·) = .error e ↔
          (eachUntilError f cs (f c w).world).result = .error e := by
        cases (eachUntilError f cs (f c w).world).result <;> simp [Except.map]
      rw [hrun, ih]
      simp only [alone]
      constructor
      · rintro ⟨before, d, after, rfl, hbefore, hd⟩
        exact ⟨c :: before, d, after, rfl, List.forall_mem_cons.2 ⟨⟨b, hc⟩, hbefore⟩, hd⟩
      · rintro ⟨_ | ⟨c', before⟩, d, after, hsplit, hbefore, hd⟩
        · obtain ⟨rfl, rfl⟩ := List.cons.inj hsplit
          cases hc.symm.trans hd
        · obtain ⟨rfl, rfl⟩ := List.cons.inj hsplit
          exact ⟨before, d, after, rfl, (List.forall_mem_cons.1 hbefore).2, hd⟩

end Action
end Gait
