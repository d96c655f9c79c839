import Gait.Blend

/-!
# Keyframe tracks

A track holds keys at times in ascending order and a value for each. `Track.sample` says what the track is worth at any time:
before the first key its value, after the last key that one's, and in between a blend of the two keys around the time.

The times are promised to be sorted. The values are not promised to cover the keys: a value that is looked for and missing makes
the sample missing, and nothing else does but a track without keys.
-/

namespace Gait

/-- How a track gets from one key to the next. -/
inductive Blending where
  /-- Along the straight way. -/
  | linear
  /-- It stays at the earlier key. -/
  | step
  /-- Along a cubic: a key has three values, the velocity it is reached with, its value and the velocity it is left with. -/
  | cubic
  deriving DecidableEq, Repr

/-- The keys of one property of one joint. -/
structure Track (V α : Type) where
  times : List α
  values : List V
  blending : Blending

namespace Track

variable {V α : Type} [Scalar α]

/-- The track that holds one value at all times. -/
def constant (v : V) : Track V α := ⟨[0], [v], .step⟩

/-- Whether the track has no keys. -/
def isEmpty (t : Track V α) : Bool := t.times.isEmpty

/-- The time of the last key, or zero without keys. -/
def endTime (t : Track V α) : α := t.times.getLast?.getD 0

/-- The place of the value of the key `i` among the values. -/
def valueSlot (t : Track V α) (i : Nat) : Nat :=
  match t.blending with
  | .cubic => 3 * i + 1
  | _ => i

/-- The value of the key `i`, if it is there. -/
def value? (t : Track V α) (i : Nat) : Option V := t.values[t.valueSlot i]?

/-- The key from which the track is going on at a time: the one before the first key that is later, or the first. -/
def bracket (t : Track V α) (time : α) : Nat := t.times.findIdx (fun key => !decide (key ≤ time)) - 1

/-- The share of the way from a key at `start` to one at `stop` that is gone at a time. Keys at most a millionth of a second
apart count as one, and none of the way is gone between them. -/
def progress (start stop time : α) : α :=
  let dt := stop - start
  if Scalar.ofDecimal 1 6 < dt then Scalar.clamp ((time - start) / dt) 0 1 else 0

variable [Blend V α]

/-- The blend between the keys `i` and `i + 1`, which are `dt` seconds apart, at the share `s` of the way. -/
def between (t : Track V α) (i : Nat) (s dt : α) : Option V :=
  match t.blending with
  | .step => t.value? i
  | .linear => do
    let a ← t.value? i
    let b ← t.value? (i + 1)
    return Blend.linear a b s
  | .cubic => do
    let a ← t.values[3 * i + 1]?
    let out ← t.values[3 * i + 2]?
    let into ← t.values[3 * (i + 1)]?
    let b ← t.values[3 * (i + 1) + 1]?
    return Blend.cubic a out into b s dt

/-- The value of the track at a time, if it has keys and the values that this time needs. -/
def sample (t : Track V α) (time : α) : Option V :=
  if t.isEmpty then none
  else
    let i := t.bracket time
    match t.times[i]?, t.times[i + 1]? with
    | some start, some stop => t.between i (progress start stop time) (stop - start)
    | _, _ => t.value? (t.times.length - 1)

end Track

end Gait
