import Gait.Sampling.Plan
import Gait.Binary32.Arithmetic
import Gait.Log

/-!
# How many samples a motion needs

The samples of a motion are spread evenly from its start to its end at roughly the rate asked for: the number of intervals is
the product of rate and duration, rounded, and the step is the duration divided by that number. A motion shorter than half a
frame gets one sample at its start. The number of intervals is capped.
-/

namespace Gait

/-- The most intervals that a motion is cut into. -/
def maxIntervals : UInt32 := 1048576

/-- Whether samples can be taken at a rate, or of a duration: it is a finite number above zero. -/
def isUsable (x : Float32) : Bool := x.isFinite && decide (0 < x)

namespace Plan

/-- The number of intervals wanted: a whole number, or infinity where the product is too large. -/
def wanted (rate duration : Float32) : Float32 := Binary32.roundHalfAway (rate * duration)

/-- The number of intervals taken. -/
def intervals (rate duration : Float32) : UInt32 :=
  if maxIntervals.toFloat32 < wanted rate duration then maxIntervals else (wanted rate duration).toUInt32

/-- The plan for a rate and a duration. -/
def ofRate (rate duration : Float32) : Plan Float32 :=
  if isUsable rate && isUsable duration then
    let intervals := intervals rate duration
    if intervals = 0 then ⟨duration, 1⟩ else ⟨duration / intervals.toFloat32, intervals + 1⟩
  else empty

/-- What making the plan for a rate and a duration leaves in the log: a line if the intervals had to be capped. -/
def ofRateLog (rate duration : Float32) : List LogLine :=
  if isUsable rate && isUsable duration && decide (maxIntervals.toFloat32 < wanted rate duration) then
    [.capped duration rate (wanted rate duration) maxIntervals.toNat]
  else []

end Plan

/-- Whether a plan is the one that takes no samples. -/
def Plan.isEmpty (p : Plan Float32) : Bool := p.step == 0 && p.count == 0

/-! ## Settings -/

/-- What evaluators are told about sampling. -/
structure Settings where
  /-- The rate for clips that name one that nothing can be sampled at. -/
  fallbackRate : Float32 := 30
  /-- Whether a playback that leaves something open is a failure rather than a zero. -/
  assertResolved : Bool := false

namespace Settings

/-- The rate to sample a clip at that names the rate given. -/
def rateFor (s : Settings) (rate : Float32) : Float32 := if isUsable rate then rate else s.fallbackRate

/-- What choosing the rate leaves in the log: a line if the clip's own will not do. -/
def rateForLog (s : Settings) (rate : Float32) : List LogLine :=
  if isUsable rate then [] else [.invalidRate rate s.fallbackRate]

end Settings

end Gait
