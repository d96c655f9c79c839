import Gait.Clip.Basic
import Gait.Binary32.Arithmetic

/-!
# Baked clips

A baked clip is a table of poses of one joint, or of every joint alike, at evenly spaced times. It answers with the nearest
entry and blends nothing.
-/

namespace Gait

/-- A table of poses. -/
structure BakedClip where
  duration : Float32
  rate : Float32
  /-- The seconds from one entry to the next. -/
  grid : Float32
  poses : List (Transform Float32)
  /-- The table that stands in for `poses` when retargeting is on. -/
  retargeted : Option (List (Transform Float32))
  /-- The only joint that the table is about; without it, the table is about every joint. -/
  joint : Option Nat

namespace BakedClip

/-- The place of the entry nearest to a time in a table of `size` entries: a half goes to the later one, and before the first and
after the last entry those two answer. A time that is no number counts as one before the first. -/
def nearest (c : BakedClip) (size : Nat) (time : Float32) : Nat :=
  match Binary32.floorNat? (time / c.grid + 0.5) with
  | some n => min n (size - 1)
  | none => size - 1

/-- Where the table puts a joint of an actor at a time; another joint than the table's stays in the bind pose. -/
def pose (c : BakedClip) (actor : Actor Float32) (joint : Nat) (time : Float32) (retargeting : Bool) :
    Transform Float32 :=
  if c.joint.all (· == joint) then
    let table := if retargeting then c.retargeted.getD c.poses else c.poses
    table[c.nearest table.length time]?.getD Transform.identity
  else actor.bindTransform joint

/-- The clip as a piece of motion. -/
def toClip (c : BakedClip) : Clip Float32 := ⟨c.duration, c.rate, c.pose⟩

end BakedClip

end Gait
