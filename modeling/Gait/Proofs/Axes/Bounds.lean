import Mathlib
import Gait.Proofs.Binary32.Extremes
import Gait.Axes

/-!
# The box around points

Each coordinate of the two corners is the best of the coordinates that the points have on its axis, least for the one corner and
greatest for the other, whatever the lengths of the points (`best_foldl_widen`); and walking from axis to axis, as long as the
corner and the point have a coordinate there, looks up nothing that is not there (`boundsChecked?_eq_some`). So the box holds each
coordinate that is a number, is no larger than that, depends on the order of the points by signs of zeros only, and stays as it is
when its corners become points (`bounds_enclose`).
-/

namespace Gait

open Binary32

namespace Axes

variable {a : Axes} {R : Float32 → Float32 → Prop} {pick : Float32 → Float32 → Float32} {first corner point low high : Coordinates}
  {points rest : List Coordinates} {k n : ℕ} {c : Float32}

/-! ## The coordinates on an axis -/

/-- The coordinates that points have on an axis. -/
def column (points : List Coordinates) (k : ℕ) : List Float32 := points.filterMap (·[k]?)

theorem column_cons_of_some (h : point[k]? = some c) (points : List Coordinates) :
    column (point :: points) k = c :: column points k :=
  List.filterMap_cons_some h

theorem column_cons_of_none (h : point[k]? = none) (points : List Coordinates) : column (point :: points) k = column points k :=
  List.filterMap_cons_none h

/-- A corner taken through a point on the first `n` axes. -/
def widenTo (n : ℕ) (pick : Float32 → Float32 → Float32) (corner point : Coordinates) : Coordinates :=
  corner.mapIdx fun k c => if k < n then (point[k]?.map (pick c)).getD c else c

theorem getElem?_widenTo : (widenTo n pick corner point)[k]? =
    (corner[k]?).map fun c => if k < n then (point[k]?.map (pick c)).getD c else c :=
  List.getElem?_mapIdx

theorem getElem?_widen : (a.widen pick corner point)[k]? =
    (corner[k]?).map fun c => if k < a.dimensions then (point[k]?.map (pick c)).getD c else c :=
  getElem?_widenTo

/-- A corner goes through the points with each of its coordinates on its own. -/
theorem getElem?_foldl_widen : (points.foldl (a.widen pick) corner)[k]? =
    (corner[k]?).map fun c => if k < a.dimensions then (column points k).foldl pick c else c := by
  induction points generalizing corner with
  | nil =>
    simp [column]
  | cons point points ih =>
    rw [List.foldl_cons, ih, getElem?_widen, Option.map_map]
    congr 1
    funext c
    by_cases hk : k < a.dimensions
    · cases hp : point[k]? with
      | none => simp [hk, column_cons_of_none hp]
      | some v => simp [hk, column_cons_of_some hp]
    · simp [hk]

/-- What a corner comes to on an axis is the best of the coordinates there. -/
theorem best_foldl_widen [DecidableRel R] (h : IsPreference R) (hk : k < a.dimensions)
    (hc : (rest.foldl (a.widen (better R)) first)[k]? = some c) : Best R (column (first :: rest) k) c := by
  rw [getElem?_foldl_widen, Option.map_eq_some_iff] at hc
  obtain ⟨start, hstart, rfl⟩ := hc
  rw [if_pos hk, column_cons_of_some hstart]
  exact best_foldl_better h start (column rest k)

/-- A point that is nowhere better than a corner leaves it as it is. -/
theorem widen_eq_self [DecidableRel R]
    (h : ∀ k c v, k < a.dimensions → corner[k]? = some c → point[k]? = some v → R v v → R c v) :
    a.widen (better R) corner point = corner := by
  apply List.ext_getElem?
  intro k
  rw [getElem?_widen]
  cases hc : corner[k]? with
  | none => rfl
  | some c =>
    rw [Option.map_some]
    split_ifs with hk
    · cases hv : point[k]? with
      | none => rfl
      | some v =>
        rw [Option.map_some, Option.getD_some, better_eq_left (h k c v hk hc hv)]
    · rfl

/-! ## Looking coordinates up -/

/-- One coordinate of a corner and the point's made into one, which breaks off where either has no such coordinate. -/
def pickChecked? (pick : Float32 → Float32 → Float32) (point corner : Coordinates) (k : ℕ) : Option Coordinates := do
  let c ← corner[k]?
  let v ← point[k]?
  return corner.set k (pick c v)

/-- Both corners taken through a point on one axis. -/
def axisChecked? (point : Coordinates) (corners : Coordinates × Coordinates) (k : ℕ) : Option (Coordinates × Coordinates) := do
  let low ← pickChecked? Scalar.min point corners.1 k
  let high ← pickChecked? Scalar.max point corners.2 k
  return (low, high)

/-- Both corners taken through a point, from axis to axis as long as the point and the least corner have a coordinate there. -/
def widenChecked? (a : Axes) (corners : Coordinates × Coordinates) (point : Coordinates) : Option (Coordinates × Coordinates) :=
  (List.range (min (min a.dimensions point.length) corners.1.length)).foldlM (axisChecked? point) corners

/-- The bounds of points, by a search that breaks off where it looks up a coordinate that is not there. -/
def boundsChecked? (a : Axes) (points : List Coordinates) : Option (Option (Coordinates × Coordinates)) :=
  match points with
  | [] => some none
  | first :: rest => (rest.foldlM a.widenChecked? (first, first)).map some

theorem widenTo_zero : widenTo 0 pick corner point = corner := by
  apply List.ext_getElem?
  intro k
  simp [getElem?_widenTo]

/-- Axes on which the corner or the point has no coordinate do not count. -/
theorem widenTo_min (a : Axes) (hn : corner.length ≤ n) :
    widenTo (min (min a.dimensions point.length) n) pick corner point = a.widen pick corner point := by
  apply List.ext_getElem?
  intro k
  rw [getElem?_widenTo, getElem?_widen]
  rcases Nat.lt_or_ge k corner.length with hk | hk
  · congr 1
    funext c
    rcases Nat.lt_or_ge k point.length with hp | hp
    · have hiff : k < min (min a.dimensions point.length) n ↔ k < a.dimensions := by omega
      simp only [hiff]
    · simp [List.getElem?_eq_none hp]
  · rw [List.getElem?_eq_none hk]
    rfl

/-- The next axis is looked up and taken through the point. -/
theorem pickChecked?_widenTo (hcorner : n < corner.length) (hpoint : n < point.length) :
    pickChecked? pick point (widenTo n pick corner point) n = some (widenTo (n + 1) pick corner point) := by
  have hc : (widenTo n pick corner point)[n]? = some corner[n] := by
    rw [getElem?_widenTo, List.getElem?_eq_getElem hcorner]
    simp
  have hv : point[n]? = some point[n] := List.getElem?_eq_getElem hpoint
  simp only [pickChecked?, hc, hv, Option.bind_eq_bind, Option.bind_some, Option.pure_def, Option.some.injEq]
  apply List.ext_getElem?
  intro k
  rw [List.getElem?_set, getElem?_widenTo, getElem?_widenTo]
  by_cases hk : n = k
  · subst hk
    simp [widenTo, hcorner, hv]
  · have hiff : k < n + 1 ↔ k < n := by omega
    simp only [hk, if_false, hiff]

/-- The first axes are looked up and taken through the point, one after the other. -/
theorem foldlM_axisChecked? (hpoint : n ≤ point.length) (hlow : n ≤ low.length) (hhigh : n ≤ high.length) :
    (List.range n).foldlM (axisChecked? point) (low, high) =
      some (widenTo n Scalar.min low point, widenTo n Scalar.max high point) := by
  induction n with
  | zero => rw [widenTo_zero, widenTo_zero]; rfl
  | succ n ih =>
    rw [List.range_succ, List.foldlM_append, ih (by omega) (by omega) (by omega)]
    simp only [List.foldlM_cons, List.foldlM_nil, axisChecked?, pickChecked?_widenTo hlow hpoint,
      pickChecked?_widenTo hhigh hpoint, Option.bind_eq_bind, Option.bind_some, Option.pure_def]

/-- Taking the corners through a point looks up only coordinates that are there. -/
theorem widenChecked?_eq_some (a : Axes) (h : low.length = high.length) (point : Coordinates) :
    a.widenChecked? (low, high) point = some (a.widen Scalar.min low point, a.widen Scalar.max high point) := by
  have hpoint : min (min a.dimensions point.length) low.length ≤ point.length := by omega
  have hlow : min (min a.dimensions point.length) low.length ≤ low.length := by omega
  rw [widenChecked?, foldlM_axisChecked? hpoint hlow (h ▸ hlow), widenTo_min a le_rfl, widenTo_min a h.ge]

theorem length_widen : (a.widen pick corner point).length = corner.length := List.length_mapIdx

theorem length_foldl_widen : (points.foldl (a.widen pick) corner).length = corner.length := by
  induction points generalizing corner with
  | nil => rfl
  | cons point points ih => rw [List.foldl_cons, ih, length_widen]

/-- The bounds of any points are found without looking up a coordinate that is not there. -/
theorem boundsChecked?_eq_some (a : Axes) (points : List Coordinates) : a.boundsChecked? points = some (a.bounds points) := by
  cases points with
  | nil => rfl
  | cons first rest =>
    have hrest : ∀ low high : Coordinates, low.length = high.length →
        rest.foldlM a.widenChecked? (low, high) =
          some (rest.foldl (a.widen Scalar.min) low, rest.foldl (a.widen Scalar.max) high) := by
      induction rest with
      | nil => exact fun _ _ _ => rfl
      | cons point rest ih =>
        intro low high h
        rw [List.foldlM_cons, widenChecked?_eq_some a h, Option.bind_eq_bind, Option.bind_some,
          ih _ _ (by rw [length_widen, length_widen, h])]
        rfl
    rw [boundsChecked?, hrest first first rfl]
    rfl

/-! ## The box -/

/-- The two are the ends of the range of some numbers: if all of these are none, so are the ends; otherwise they are two of the
numbers, and every one that is a number is between them. -/
structure Encloses (values : List Float32) (low high : Float32) : Prop where
  isNaN_low : IsNaN low ↔ ∀ v ∈ values, IsNaN v
  isNaN_high : IsNaN high ↔ ∀ v ∈ values, IsNaN v
  between : ∀ v ∈ values, ¬IsNaN v → low ≤ v ∧ v ≤ high
  low_mem : low ∈ values
  high_mem : high ∈ values

variable {values : List Float32} {l u : Float32}

theorem encloses_of_best (hl : Best (· ≤ ·) values l) (hu : Best (· ≥ ·) values u) : Encloses values l u where
  isNaN_low := isOrder_le.isNaN_iff hl
  isNaN_high := isOrder_ge.isNaN_iff hu
  between v hv hnum := ⟨hl.2 v hv (le_self_iff.mpr hnum), hu.2 v hv (le_self_iff.mpr hnum)⟩
  low_mem := hl.1
  high_mem := hu.1

theorem bounds_eq_none_iff : a.bounds points = none ↔ points = [] := by
  cases points <;> simp [bounds]

/-- Bounds are the two corners that the first point becomes on the way through the others. -/
theorem bounds_eq_some_iff : a.bounds points = some (low, high) ↔ ∃ first rest, points = first :: rest ∧
    rest.foldl (a.widen (better (· ≤ ·))) first = low ∧ rest.foldl (a.widen (better (· ≥ ·))) first = high := by
  rw [← min_eq_better, ← max_eq_better]
  cases points <;> simp [bounds]

/-- The corners lie, on each axis, at the best of the coordinates that the points have there. -/
theorem best_of_bounds (h : a.bounds points = some (low, high)) (hk : k < a.dimensions) :
    (∀ l, low[k]? = some l → Best (· ≤ ·) (column points k) l) ∧ ∀ u, high[k]? = some u → Best (· ≥ ·) (column points k) u := by
  obtain ⟨first, rest, rfl, rfl, rfl⟩ := bounds_eq_some_iff.1 h
  exact ⟨fun l => best_foldl_widen isOrder_le.toIsPreference hk, fun u => best_foldl_widen isOrder_ge.toIsPreference hk⟩

theorem length_of_bounds (h : a.bounds points = some (low, high)) (hlength : ∀ p ∈ points, p.length = n) :
    low.length = n ∧ high.length = n := by
  obtain ⟨first, rest, rfl, rfl, rfl⟩ := bounds_eq_some_iff.1 h
  rw [length_foldl_widen, length_foldl_widen]
  exact ⟨hlength first List.mem_cons_self, hlength first List.mem_cons_self⟩

/-- The corners added to the points leave the bounds as they are. -/
theorem bounds_append_corners (h : a.bounds points = some (low, high)) :
    a.bounds (points ++ [low, high]) = some (low, high) := by
  have hbest := fun k (hk : k < a.dimensions) => best_of_bounds h hk
  -- each coordinate of a corner is one of the points' own, and so the other corner's is at most as good
  have hlow : ∀ k l v, k < a.dimensions → low[k]? = some l → low[k]? = some v ∨ high[k]? = some v → v ≤ v → l ≤ v := by
    intro k l v hk hl hv
    refine ((hbest k hk).1 l hl).2 v ?_
    exact hv.elim (fun hv => ((hbest k hk).1 v hv).1) fun hv => ((hbest k hk).2 v hv).1
  have hhigh : ∀ k u v, k < a.dimensions → high[k]? = some u → low[k]? = some v ∨ high[k]? = some v → v ≥ v → u ≥ v := by
    intro k u v hk hu hv
    refine ((hbest k hk).2 u hu).2 v ?_
    exact hv.elim (fun hv => ((hbest k hk).1 v hv).1) fun hv => ((hbest k hk).2 v hv).1
  obtain ⟨first, rest, rfl, hl, hu⟩ := bounds_eq_some_iff.1 h
  refine bounds_eq_some_iff.2 ⟨first, rest ++ [low, high], rfl, ?_, ?_⟩
  · rw [List.foldl_append, hl, List.foldl_cons, List.foldl_cons, List.foldl_nil,
      widen_eq_self fun k l v hk hl hv => hlow k l v hk hl (Or.inl hv),
      widen_eq_self fun k l v hk hl hv => hlow k l v hk hl (Or.inr hv)]
  · rw [List.foldl_append, hu, List.foldl_cons, List.foldl_cons, List.foldl_nil,
      widen_eq_self fun k u v hk hu hv => hhigh k u v hk hu (Or.inl hv),
      widen_eq_self fun k u v hk hu hv => hhigh k u v hk hu (Or.inr hv)]

/-- Points with a coordinate on each axis have the same bounds in any order, up to the signs of zeros. -/
theorem bounds_perm {points' : List Coordinates} (hperm : points'.Perm points) (hlength : ∀ p ∈ points, p.length = a.dimensions)
    (h : a.bounds points = some (low, high)) :
    ∃ low' high', a.bounds points' = some (low', high') ∧ List.Forall₂ Alike low' low ∧ List.Forall₂ Alike high' high := by
  have hlength' : ∀ p ∈ points', p.length = a.dimensions := fun p hp => hlength p (hperm.mem_iff.1 hp)
  have hsame : ∀ k z, z ∈ column points' k ↔ z ∈ column points k := fun k z => (hperm.filterMap _).mem_iff
  cases h' : a.bounds points' with
  | none =>
    rw [bounds_eq_none_iff.1 h', List.nil_perm] at hperm
    rw [hperm] at h
    cases h
  | some corners =>
    obtain ⟨low', high'⟩ := corners
    obtain ⟨hlow, hhigh⟩ := length_of_bounds h hlength
    obtain ⟨hlow', hhigh'⟩ := length_of_bounds h' hlength'
    refine ⟨low', high', rfl, ?_, ?_⟩
    · refine List.forall₂_iff_get.2 ⟨hlow'.trans hlow.symm, fun k hk hk' => ?_⟩
      exact isOrder_le.alike_of_best ((best_of_bounds h' (hlow' ▸ hk)).1 _ (List.getElem?_eq_getElem hk))
        ((best_of_bounds h (hlow ▸ hk')).1 _ (List.getElem?_eq_getElem hk')) (hsame k)
    · refine List.forall₂_iff_get.2 ⟨hhigh'.trans hhigh.symm, fun k hk hk' => ?_⟩
      exact isOrder_ge.alike_of_best ((best_of_bounds h' (hhigh' ▸ hk)).2 _ (List.getElem?_eq_getElem hk))
        ((best_of_bounds h (hhigh ▸ hk')).2 _ (List.getElem?_eq_getElem hk')) (hsame k)

/-- Points have bounds unless there are none of them, and these are found without looking up a coordinate that is not there. The
corners added to the points leave the bounds as they are. Points with a coordinate on each axis and no others have as bounds, on
each axis, the ends of the range of their coordinates there; and in any order they have the same bounds, up to the signs of
zeros. -/
theorem bounds_enclose (a : Axes) (points : List Coordinates) :
    (a.bounds points = none ↔ points = []) ∧
      a.boundsChecked? points = some (a.bounds points) ∧
      (∀ low high, a.bounds points = some (low, high) → a.bounds (points ++ [low, high]) = some (low, high)) ∧
      ((∀ p ∈ points, p.length = a.dimensions) → ∀ low high, a.bounds points = some (low, high) →
        low.length = a.dimensions ∧ high.length = a.dimensions ∧
          (∀ k l u, low[k]? = some l → high[k]? = some u → Encloses (column points k) l u) ∧
          ∀ points', points'.Perm points → ∃ low' high', a.bounds points' = some (low', high') ∧
            List.Forall₂ Alike low' low ∧ List.Forall₂ Alike high' high) := by
  refine ⟨bounds_eq_none_iff, boundsChecked?_eq_some a points, fun low high => bounds_append_corners, ?_⟩
  intro hlength low high h
  obtain ⟨hlow, hhigh⟩ := length_of_bounds h hlength
  refine ⟨hlow, hhigh, fun k l u hl hu => ?_, fun points' hperm => bounds_perm hperm hlength h⟩
  have hk : k < a.dimensions := hlow ▸ (List.getElem?_eq_some_iff.1 hl).1
  obtain ⟨hbest, hbest'⟩ := best_of_bounds h hk
  exact encloses_of_best (hbest l hl) (hbest' u hu)

/-- A coordinate of the first point that is none gives way to those of the others, and one that stands alone stays. -/
example : (Axes.mk (.plane .moveSpeed .turnSpeed) {}).bounds [[0 / 0, 0 / 0], [2, 0 / 0], [-3, 0 / 0]] =
    some ([-3, 0 / 0], [2, 0 / 0]) := by
  decide +kernel

end Axes

end Gait
