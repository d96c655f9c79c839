import Gait.Binary32.Dyadic

/-!
# The angle of a point, correctly rounded

`atan2 y x` is the angle of the point `(x, y)`. Where both coordinates are finite and not zero it is computed in fixed point
from their exact quotient, some seventy bits beyond the twenty-four of the result, and rounded once. An angle of such a point is
never a dyadic rational, so it lies strictly between two neighbouring fixed-point values, and no tie can arise.

The series is Euler's, `arctan t = t / (1 + t²) · (1 + 2/3 · u + 2/3 · 4/5 · u² + …)` with `u = t² / (1 + t²)`. All its terms are
positive, and for `t ≤ 1` each is at most half of the one before. To make it short the multiple of a sixty-fourth next below
is taken off first: `arctan t = arctan (k / 64) + arctan ((64 t - k) / (64 + k t))`.
-/

namespace Gait

namespace Binary32

open Float.Model (UnpackedFloat)

/-! ## The series -/

/-- The terms of Euler's series from the `k`-th on, which is `term`, as long as they are not zero; `num / den` is the ratio that
successive terms share. -/
def eulerSum (num den : Nat) : (fuel k term : Nat) → Nat
  | 0, _, _ => 0
  | fuel + 1, k, term =>
    if term = 0 then 0
    else term + eulerSum num den fuel (k + 1) (term * ((2 * k + 2) * num) / ((2 * k + 3) * den))

/-- The angle whose tangent is `a / b`, in units of `2 ^ (-bits)`, for `a ≤ b`. -/
def arctanUnits (bits a b : Nat) : Nat :=
  let den := a * a + b * b
  eulerSum (a * a) den (bits + 2) 0 (((a * b) <<< bits) / den)

/-- The bits kept beyond the leading one of an angle before it is rounded. -/
def angleBits : Nat := 96

/-- The angles whose tangents are the multiples of a sixty-fourth from zero to one, in units of `2 ^ (-angleBits)`. -/
def tabulated : Array Nat := ((List.range 65).map fun k => arctanUnits angleBits k 64).toArray

/-- The angle whose tangent is `a / b`, in units of `2 ^ (-angleBits)`, for `a ≤ b`. -/
def octantAngle (a b : Nat) : Nat :=
  let k := 64 * a / b
  tabulated.getD k 0 + arctanUnits angleBits (64 * a % b) (64 * b + k * a)

/-- An eighth of a full turn, in units of `2 ^ (-angleBits)`. -/
def eighthTurn : Nat := octantAngle 1 1

/-! ## The angle of a point -/

/-- The number nearest to what lies strictly between `m` and `m + 1` times `2 ^ e`. Of the digits of `m` the leading twenty-six
say all that the rounding needs to know, and a one behind them that something follows. -/
def ofInterval (m : Nat) (e : Int) : Float32 :=
  let dropped := m.log2 - 25
  ofDyadic (2 * (m >>> dropped) + 1) (e + dropped - 1)

/-- So many eighths of a full turn. -/
def eighths (n : Nat) : Float32 := ofInterval (n * eighthTurn) (-angleBits)

/-- The angle of the point `(b, a)` of the first quadrant, or of `(-b, a)` in the second if `obtuse`. A narrow angle is counted
in units as much smaller as it is. -/
def angleOf (obtuse : Bool) (a b : Nat) : Float32 :=
  if !obtuse && decide (64 * a < b) then
    let bits := angleBits + (b.log2 - a.log2)
    ofInterval (arctanUnits bits a b) (-bits)
  else
    let angle := if a ≤ b then octantAngle a b else 2 * eighthTurn - octantAngle b a
    let angle := if obtuse then 4 * eighthTurn - angle else angle
    ofInterval angle (-angleBits)

/-- The angle of the point `(x, y)`, between minus and plus half a turn; its sign is that of `y`. A point on an axis, at the
origin or at infinity has the angle of its direction, with a zero counted as the end of its sign's half-axis. -/
def atan2 (y x : Float32) : Float32 :=
  match parts y, parts x with
  | .notANumber, _ => y
  | _, .notANumber => x
  | .zero _, .zero .positive => y
  | .zero _, .finite .positive _ _ _ => y
  | .zero _, .infinity .positive => y
  | .zero s, _ => withSign s (eighths 4)
  | .infinity s, .infinity .positive => withSign s (eighths 1)
  | .infinity s, .infinity .negative => withSign s (eighths 3)
  | .infinity s, _ => withSign s (eighths 2)
  | .finite s _ _ _, .zero _ => withSign s (eighths 2)
  | .finite s _ _ _, .infinity .positive => withSign s 0
  | .finite s _ _ _, .infinity .negative => withSign s (eighths 4)
  | .finite s a ea _, .finite t b eb _ =>
    withSign s (angleOf (t == .negative) (a <<< (ea - eb).toNat) (b <<< (eb - ea).toNat))

end Binary32

end Gait
