import Gait.Binary32.Dyadic

/-!
# The shortest text of a binary32 number

A number is written with the fewest significant digits that read back as the same number, in plain positional notation: no
exponent, no trailing point, no trailing zero after a point.

For each count of digits the decimals with so many form a grid, and of its points only the two neighbours of the number have to
be looked at: if any reads back, so does one of them. Where both do, the nearer one is written, and of two equally near ones the
one further from zero.
-/

namespace Gait

namespace Binary32

/-! ## Decimals that read back -/

/-- A decimal: a natural number and the power of ten that it counts. -/
structure Decimal where
  digits : Nat
  exponent : Int
  deriving DecidableEq, Repr

/-- The number nearest to a decimal. -/
def ofDecimal (d : Decimal) : Float32 := Float32.ofScientific d.digits (decide (d.exponent < 0)) d.exponent.natAbs

/-- The number of decimal digits before the point of `m * 2 ^ e`, or minus the number of zeros behind it, for positive `m`. -/
def decimalOrder (m : Nat) (e : Int) : Int :=
  let num := m * Nat.pow 2 e.toNat
  let den := Nat.pow 2 (-e).toNat
  if den ≤ num then (toString (num / den)).length
  else 1 - (toString ((den - 1) / num)).length

/-- The decimal with `n` significant digits for `x = m * 2 ^ e`, a number with `order` digits before its point: of the two
neighbours of `x` on the grid the one that reads back as `x`, if both do the nearer, and on a tie the one above. The neighbour
above may be a power of ten, which needs one digit only. -/
def decimalOf? (x : Float32) (m : Nat) (e order : Int) (n : Nat) : Option Decimal :=
  let k := order - n
  let num := m * Nat.pow 2 e.toNat * Nat.pow 10 (-k).toNat
  let den := Nat.pow 2 (-e).toNat * Nat.pow 10 k.toNat
  let below : Decimal := ⟨num / den, k⟩
  let above : Decimal := if num / den + 1 = Nat.pow 10 n then ⟨1, order⟩ else ⟨num / den + 1, k⟩
  match ofDecimal below == x, ofDecimal above == x with
  | true, true => some (if 2 * (num % den) < den then below else above)
  | true, false => some below
  | false, true => some above
  | false, false => none

/-- The decimal that is equal to `m * 2 ^ e`. -/
def exactDecimal (m : Nat) : Int → Decimal
  | .ofNat k => ⟨m * Nat.pow 2 k, 0⟩
  | .negSucc k => ⟨m * Nat.pow 5 (k + 1), .negSucc k⟩

/-- The decimal with the fewest significant digits that reads back as `x = m * 2 ^ e`. Nine digits always do. -/
def shortestDecimal (x : Float32) (m : Nat) (e : Int) : Decimal :=
  let order := decimalOrder m e
  ((List.range 9).findSome? fun n => decimalOf? x m e order (n + 1)).getD (exactDecimal m e)

/-! ## Positional notation -/

/-- A decimal in positional notation. -/
def Decimal.positional (d : Decimal) : String :=
  match d.exponent with
  | .ofNat zeros => toString (d.digits * Nat.pow 10 zeros)
  | .negSucc k =>
    let places := k + 1
    let fraction := toString (d.digits % Nat.pow 10 places)
    toString (d.digits / Nat.pow 10 places) ++ "." ++ "".pushn '0' (places - fraction.length) ++ fraction

/-- The shortest text that reads back as the number. -/
def text (x : Float32) : String :=
  match parts x with
  | .notANumber => "NaN"
  | .infinity .positive => "inf"
  | .infinity .negative => "-inf"
  | .zero .positive => "0"
  | .zero .negative => "-0"
  | .finite s m e _ =>
    (match s with | .positive => "" | .negative => "-") ++ (shortestDecimal x.abs m e).positional

end Binary32

end Gait
