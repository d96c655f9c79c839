/-!
# Scalars

The numbers that motion is measured in. The formulas of the library are written over any type with this arithmetic. Binary32
numbers are the instance that programs run on (`Gait.Binary32.Arithmetic`); over an ordered field the same formulas are exact,
and there the four functions may be any.

Nothing here assumes that the order is total: a scalar may fail to compare with itself, as a binary32 NaN does, and each
definition says what becomes of such a scalar.
-/

namespace Gait

/-- Numbers with an order and the functions that distances and angles need. -/
class Scalar (α : Type) extends Add α, Sub α, Mul α, Div α, Neg α, LT α, LE α where
  /-- The scalar nearest to a natural number. -/
  ofNat : Nat → α
  /-- The scalar nearest to `m / 10 ^ e`. -/
  ofDecimal (m e : Nat) : α
  /-- The square root. -/
  sqrt : α → α
  /-- The sine of an angle in radians. -/
  sin : α → α
  /-- The angle between zero and half a turn that has the given cosine. -/
  arccos : α → α
  /-- `atan2 y x` is the angle of the point `(x, y)`, counted from the first axis towards the second. -/
  atan2 : α → α → α
  /-- Whether one scalar is below another is decided. -/
  lt_decidable (a b : α) : Decidable (a < b)
  /-- Whether one scalar is at most another is decided. -/
  le_decidable (a b : α) : Decidable (a ≤ b)

instance (priority := low) instDecidableLTScalar {α : Type} [Scalar α] : DecidableLT α := Scalar.lt_decidable

instance (priority := low) instDecidableLEScalar {α : Type} [Scalar α] : DecidableLE α := Scalar.le_decidable

/-- A numeral stands for the nearest scalar. -/
instance (priority := low) instOfNatScalar {α : Type} [Scalar α] (n : Nat) : OfNat α n := ⟨Scalar.ofNat n⟩

namespace Scalar

variable {α : Type} [Scalar α]

/-- The scalar brought into the range from `lo` to `hi`; one that compares with neither end stays as it is. -/
def clamp (x lo hi : α) : α := if x < lo then lo else if hi < x then hi else x

/-- The larger of two scalars; one that does not compare with itself gives way to the other. -/
def max (a b : α) : α := if b ≤ a ∨ ¬ b ≤ b then a else b

/-- The smaller of two scalars; one that does not compare with itself gives way to the other. -/
def min (a b : α) : α := if a ≤ b ∨ ¬ b ≤ b then a else b

/-- The sum from left to right, started from minus zero, which adding leaves every scalar as it is; so a sum of nothing is
minus zero. -/
def sum (xs : List α) : α := xs.foldl (· + ·) (-0)

end Scalar

end Gait
