/-!
# Binary32 numbers and dyadic rationals

A finite binary32 number is `m * 2 ^ e` with a sign. `ofDyadic` rounds such a product, of whatever size, to the nearest number,
a tie to the even one; `roundHalfAway` and `floorNat?` take a number to an integer, exactly, through the same reading.
-/

namespace Gait

namespace Binary32

open Float.Model (UnpackedFloat Format)
open Float.Model.UnpackedFloat (Sign)

/-- The parts of a number: a sign with a positive multiple of a power of two, or one of the values that have none. -/
def parts (x : Float32) : UnpackedFloat := x.toModel.unpack

/-- The binary32 number nearest to `m * 2 ^ e`, a tie going to the even one; past the largest number it is infinite. -/
def ofDyadic (m : Nat) (e : Int) : Float32 :=
  ⟨Float32.Model.pack (UnpackedFloat.round Format.binary32 .positive m e)⟩

/-- The number with the sign given. -/
def withSign : Sign → Float32 → Float32
  | .positive, x => x
  | .negative, x => -x

/-- The natural number nearest to `m * 2 ^ e`, a half going up. -/
def roundNat (m : Nat) : Int → Nat
  | .ofNat k => m <<< k
  | .negSucc k => (m + Nat.pow 2 k) >>> (k + 1)

/-- The number rounded to an integer, a half going away from zero. The sign is kept, also by a zero. -/
def roundHalfAway (x : Float32) : Float32 :=
  match parts x with
  | .finite s m e _ => withSign s (ofDyadic (roundNat m e) 0)
  | _ => x

/-- The largest natural number that is at most `x`, and zero where there is none; an infinite `x` gives `none`. -/
def floorNat? (x : Float32) : Option Nat :=
  match parts x with
  | .finite .positive m e _ => some (match e with
      | .ofNat k => m <<< k
      | .negSucc k => m >>> (k + 1))
  | .infinity .positive => none
  | _ => some 0

end Binary32

end Gait
