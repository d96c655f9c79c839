import Gait.Clip.Basic
import Gait.Feature
import Gait.Sampling.Rate

/-!
# Motions

A motion is a clip with everything settled that a feature depends on: whose joint is looked at, and whether the clip is adapted
to that actor's build.
-/

namespace Gait

/-- One joint of an actor that a clip is played on. -/
structure Motion (α : Type) where
  clip : Clip α
  actor : Actor α
  joint : Nat
  retargeting : Bool

namespace Motion

variable {α : Type}

/-- The length of the motion in seconds. -/
def duration (m : Motion α) : α := m.clip.duration

/-- The frames a second of the motion. -/
def rate (m : Motion α) : α := m.clip.rate

/-- Where the joint is at a time. -/
def pose (m : Motion α) (time : α) : Transform α := m.clip.pose m.actor m.joint time m.retargeting

/-- How the motion is sampled. -/
def plan (m : Motion Float32) (s : Settings) : Plan Float32 := Plan.ofRate (s.rateFor m.rate) m.duration

/-- What planning the samples of a motion leaves in the log. -/
def planLog (m : Motion Float32) (s : Settings) : List LogLine :=
  s.rateForLog m.rate ++ Plan.ofRateLog (s.rateFor m.rate) m.duration

/-- The value of a feature of the motion. -/
def measure (m : Motion Float32) (e : Evaluator) (s : Settings) : Float32 := e.measure m.duration (m.plan s) m.pose

/-- What taking a feature leaves in the log: the lines of planning, if the feature needs samples and the motion has any. -/
def measureLog (m : Motion Float32) (e : Evaluator) (s : Settings) : List LogLine :=
  if e.isSampled && decide (0 < m.duration) then m.planLog s else []

end Motion

end Gait
