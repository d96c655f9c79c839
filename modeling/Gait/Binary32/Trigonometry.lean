/-!
# Sine and arc cosine by polynomials

Both are computed in binary32 throughout, each operation rounded, so they are near the true functions and exactly reproducible.
-/

namespace Gait

namespace Binary32

/-- The polynomial in `x` whose coefficients follow `lead`, from the highest power down. -/
def horner (x lead : Float32) (rest : List Float32) : Float32 := rest.foldl (fun r c => r * x + c) lead

/-- Half a turn. -/
def pi : Float32 := 3.1415927

/-- A full turn. -/
def tau : Float32 := 6.2831855

/-- A quarter of a turn. -/
def quarterTurn : Float32 := 1.5707964

/-- The magnitude of `x` under the sign of `y`. -/
def copySign (x y : Float32) : Float32 :=
  Float32.ofBits ((x.toBits &&& 0x7fffffff) ||| (y.toBits &&& 0x80000000))

/-- The nearest integer, a half going to the even one: adding two to the twenty-third power leaves no room for a fraction. A
number as large as that, infinite or none stays as it is. -/
def nearestTurns (t : Float32) : Float32 :=
  if t.abs ≤ 8388608 then
    let big := copySign 8388608 t
    (t + big) - big
  else t

/-- The sine of an angle: full turns are taken off, the rest is folded into a quarter turn to either side, and there an odd
polynomial of degree eleven is taken. -/
def sine (v : Float32) : Float32 :=
  let x := v - tau * nearestTurns (v * 0.15915494)
  let x := if x.abs ≤ quarterTurn then x else copySign pi x - x
  let r := horner (x * x) (-2.3889859e-8) [2.7525562e-6, -0.00019840874, 0.008333331, -0.16666667, 1]
  r * x

/-- The angle between zero and half a turn whose cosine is `v`: a polynomial times `√(1 - |v|)`, taken from half a turn for a
negative `v`. -/
def arccos (v : Float32) : Float32 :=
  let x := v.abs
  let omx := 1 - x
  let omx := if omx < 0 then 0 else omx
  let r := horner x (-0.0012624911)
    [0.00667009, -0.017088126, 0.03089188, -0.050174303, 0.08897899, -0.2145988, 1.5707963]
  let r := r * omx.sqrt
  if 0 ≤ v then r else pi - r

end Binary32

end Gait
