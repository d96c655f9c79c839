import Gait.World.Playback

/-!
# Evaluating a playback

The value of an evaluator for a playback is that of its feature for the motion that the playback stands for. Where there is no
such motion the value is zero and a warning is logged, unless the settings ask for a failure. The placeholder has the value zero
without looking at the playback.
-/

namespace Gait

/-- The value of an evaluator for a playback. -/
def Evaluator.evaluate (e : Evaluator) (p : Playback) (s : Settings) : Action (Except AssertionFailure Float32) :=
  if e.isPlaceholder then pure (.ok 0)
  else do
    match ← p.resolve with
    | .error cause =>
      Action.log [.unresolved e cause]
      return if s.assertResolved then .error ⟨e, cause⟩ else .ok 0
    | .ok motion =>
      let value := motion.measure e s
      Action.log (motion.measureLog e s ++ [.value e value])
      return .ok value

namespace Evaluator

variable {e : Evaluator} {p : Playback} {w : World}

/-- The placeholder leaves the world alone. -/
theorem evaluate_of_placeholder (h : e.isPlaceholder = true) (s : Settings) : e.evaluate p s w = ⟨.ok 0, w, []⟩ := by
  simp [evaluate, h]

/-- A playback that leaves something open is warned about, and is zero or a failure. -/
theorem evaluate_of_error (h : e.isPlaceholder = false) (s : Settings) {cause : ContextError}
    (hr : (p.resolve w).result = .error cause) :
    e.evaluate p s w = ⟨if s.assertResolved then .error ⟨e, cause⟩ else .ok 0, (p.resolve w).world,
      (p.resolve w).log ++ [.unresolved e cause]⟩ := by
  simp [evaluate, h, hr]

/-- A playback that stands for a motion has the value of that motion. -/
theorem evaluate_of_ok (h : e.isPlaceholder = false) (s : Settings) {motion : Motion Float32}
    (hr : (p.resolve w).result = .ok motion) :
    e.evaluate p s w = ⟨.ok (motion.measure e s), (p.resolve w).world,
      (p.resolve w).log ++ (motion.measureLog e s ++ [.value e (motion.measure e s)])⟩ := by
  simp [evaluate, h, hr]

/-- All evaluators, the placeholder too, give a playback that stands for a motion the value of that motion. -/
theorem result_evaluate (e : Evaluator) (s : Settings) {motion : Motion Float32} (hr : (p.resolve w).result = .ok motion) :
    (e.evaluate p s w).result = .ok (motion.measure e s) := by
  cases he : e.isPlaceholder with
  | true =>
    have hunselected : e = .unselected := by simpa [isPlaceholder] using he
    rw [evaluate_of_placeholder he, hunselected, Motion.measure, measure]
    split <;> rfl
  | false => rw [evaluate_of_ok he s hr]

end Evaluator

/-! ## Evaluators in general -/

/-- Things that give a playback a value: the evaluators here, and any others. -/
class Measure (E : Type) where
  /-- The name that is shown to people. -/
  name : E → String
  /-- Whether this stands for no feature at all. -/
  isPlaceholder : E → Bool := fun _ => false
  /-- The value for a playback. -/
  evaluate : E → Playback → Settings → Action (Except AssertionFailure Float32)

/-- The value for a playback under the default settings. -/
def Measure.evaluateDefault {E : Type} [Measure E] (e : E) (p : Playback) : Action (Except AssertionFailure Float32) :=
  Measure.evaluate e p {}

instance Evaluator.instMeasure : Measure Evaluator where
  name := displayName
  isPlaceholder := isPlaceholder
  evaluate := evaluate

/-- The rate that the clip of a playback would be sampled at, as a feature of its own; minus one without a clip. -/
structure RateProbe where
  label : String

instance RateProbe.instMeasure : Measure RateProbe where
  name := label
  evaluate _ p s :=
    match p.clip with
    | none => return .ok (-1)
    | some clip => do
      Action.log (s.rateForLog clip.rate)
      return .ok (s.rateFor clip.rate)

end Gait
