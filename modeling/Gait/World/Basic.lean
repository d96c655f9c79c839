import Gait.Actor
import Gait.Log

/-!
# The world

The actors that playbacks are about, by number, each with the joint that carries its motion once that is known. What an
operation does is its result, the world it leaves and the lines it logs.
-/

namespace Gait

/-- An actor and its motion joint: the one assigned, or found when it was first needed. Any number may be assigned. -/
structure Slot where
  actor : Actor Float32
  motionJoint : Option Nat

/-- Actors by number. -/
structure World where
  slots : List Slot

namespace World

/-- The world without actors. -/
def empty : World := ⟨[]⟩

/-- The world with one more actor, whose number is the number of actors so far. -/
def addActor (w : World) (actor : Actor Float32) (motionJoint : Option Nat) : World :=
  ⟨w.slots ++ [⟨actor, motionJoint⟩]⟩

/-- The world with the motion joint of one actor changed. -/
def setMotionJoint (w : World) (n : Nat) (joint : Option Nat) : World :=
  ⟨w.slots.modify n fun slot => { slot with motionJoint := joint }⟩

/-- The motion joints of all actors. -/
def motionJoints (w : World) : List (Option Nat) := w.slots.map (·.motionJoint)

/-- Only the slot of the actor named is changed, and of it only the motion joint. -/
theorem getElem?_setMotionJoint (w : World) (n : Nat) (joint : Option Nat) (i : Nat) :
    (w.setMotionJoint n joint).slots[i]? =
      (w.slots[i]?).map fun slot => if n = i then { slot with motionJoint := joint } else slot := by
  rw [setMotionJoint, List.getElem?_modify]
  cases w.slots[i]? <;> simp

/-- The actor named has the joint afterwards, and every other is as before. -/
theorem getElem?_setMotionJoint_of_some {w : World} {n : Nat} {slot : Slot} (hslot : w.slots[n]? = some slot) (joint : Option Nat)
    (i : Nat) : (w.setMotionJoint n joint).slots[i]? = if i = n then some { slot with motionJoint := joint } else w.slots[i]? := by
  rw [getElem?_setMotionJoint]
  by_cases hi : n = i
  · subst hi
    simp [hslot]
  · simp [hi, Ne.symm hi]

@[simp] theorem length_setMotionJoint (w : World) (n : Nat) (joint : Option Nat) :
    (w.setMotionJoint n joint).slots.length = w.slots.length := by
  simp [setMotionJoint]

end World

/-! ## Actions -/

/-- What an operation does. -/
structure Outcome (β : Type) where
  result : β
  world : World
  log : List LogLine

/-- An operation on the world. -/
def Action (β : Type) : Type := World → Outcome β

namespace Action

/-- Actions one after the other: the second sees the world that the first leaves, and logs after it. -/
instance : Monad Action where
  pure b := fun w => ⟨b, w, []⟩
  bind a f := fun w =>
    let first := a w
    let second := f first.result first.world
    ⟨second.result, second.world, first.log ++ second.log⟩

variable {β γ ε : Type}

/-- The action that only writes lines. -/
def log (lines : List LogLine) : Action Unit := fun w => ⟨(), w, lines⟩

/-- One action for each element, in order, whose results are all kept. -/
def each (f : γ → Action β) : List γ → Action (List β)
  | [] => pure []
  | c :: cs => do
    let b ← f c
    let bs ← each f cs
    return b :: bs

/-- One action for each element, in order, up to the first that fails; the world and the log stay as they are at that point. -/
def eachUntilError (f : γ → Action (Except ε β)) : List γ → Action (Except ε (List β))
  | [] => pure (.ok [])
  | c :: cs => do
    match ← f c with
    | .error e => return .error e
    | .ok b =>
      let bs ← eachUntilError f cs
      return bs.map (b :: ·)

/-! ## What actions do to a world -/

@[simp] theorem pure_run (b : β) (w : World) : (pure b : Action β) w = ⟨b, w, []⟩ := rfl

@[simp] theorem bind_run (a : Action β) (f : β → Action γ) (w : World) :
    (a >>= f) w = ⟨(f (a w).result (a w).world).result, (f (a w).result (a w).world).world,
      (a w).log ++ (f (a w).result (a w).world).log⟩ :=
  rfl

@[simp] theorem log_run (lines : List LogLine) (w : World) : log lines w = ⟨(), w, lines⟩ := rfl

@[simp] theorem each_nil (f : γ → Action β) (w : World) : each f [] w = ⟨[], w, []⟩ := rfl

theorem each_cons (f : γ → Action β) (c : γ) (cs : List γ) (w : World) :
    each f (c :: cs) w = ⟨(f c w).result :: (each f cs (f c w).world).result, (each f cs (f c w).world).world,
      (f c w).log ++ (each f cs (f c w).world).log⟩ := by
  simp [each]

@[simp] theorem eachUntilError_nil (f : γ → Action (Except ε β)) (w : World) :
    eachUntilError f [] w = ⟨.ok [], w, []⟩ :=
  rfl

/-- A failure ends the run with what the failing action leaves. -/
theorem eachUntilError_cons_error {f : γ → Action (Except ε β)} {c : γ} {cs : List γ} {w : World} {e : ε}
    (h : (f c w).result = .error e) : eachUntilError f (c :: cs) w = ⟨.error e, (f c w).world, (f c w).log⟩ := by
  simp [eachUntilError, h]

/-- A success hands its world on to the rest of the run. -/
theorem eachUntilError_cons_ok {f : γ → Action (Except ε β)} {c : γ} {cs : List γ} {w : World} {b : β}
    (h : (f c w).result = .ok b) :
    eachUntilError f (c :: cs) w = ⟨(eachUntilError f cs (f c w).world).result.map (b :: ·),
      (eachUntilError f cs (f c w).world).world, (f c w).log ++ (eachUntilError f cs (f c w).world).log⟩ := by
  simp [eachUntilError, h]

end Action

end Gait
