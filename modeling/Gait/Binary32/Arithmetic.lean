import Gait.Scalar
import Gait.Binary32.Arctan
import Gait.Binary32.Trigonometry

/-!
# Binary32 numbers as scalars

Each operation is rounded on its own to the nearest binary32 number; nothing is fused and nothing is kept wider.
-/

namespace Gait

instance instScalarFloat32 : Scalar Float32 where
  ofNat := Float32.ofNat
  ofDecimal m e := Float32.ofScientific m true e
  sqrt := Float32.sqrt
  sin := Binary32.sine
  arccos := Binary32.arccos
  atan2 := Binary32.atan2
  lt_decidable := Float32.decLt
  le_decidable := Float32.decLe

end Gait
