import Mathlib
import Gait.Proofs.Features.Idle

/-!
# The poses that the slope counts

The slope is a mean over steps, and not each step from a sampled pose to the next is one of them: a pose counts if it is away
over the ground from the last one that did, and the steps are those between the poses that count. The others are passed over and
leave no mark, whatever they are: a pose straight above or below the last one that counts, or one whose place on the ground is
none.
-/

namespace Gait

open Binary32

section Counted

variable {α : Type} [Scalar α]

/-- A pose is away from another over the ground. -/
def Away (p q : Transform α) : Prop := 0 < (q.position - p.position).groundLength

instance decidableAway : DecidableRel (@Away α _) := fun p q =>
  inferInstanceAs (Decidable (0 < (q.position - p.position).groundLength))

/-- The poses that count: the first, and then each that is away from the last one that does. -/
def counted (poses : List (Transform α)) : List (Transform α) := poses.destutter Away

/-- The last of the poses that count. -/
def lastCounted (first : Transform α) (rest : List (Transform α)) : Transform α := (counted (first :: rest)).getLastD first

/-- The angle of climb from a pose to another. -/
def climbAngle (step : Transform α × Transform α) : α :=
  Scalar.atan2 (step.2.position - step.1.position).z (step.2.position - step.1.position).groundLength

/-- The angles of climb between the poses that count. -/
def climbAngles (poses : List (Transform α)) : List α := (steps (counted poses)).map climbAngle

variable {first pose : Transform α} {rest before after poses : List (Transform α)}

/-! ## Which poses count -/

@[simp] theorem counted_nil : counted ([] : List (Transform α)) = [] := rfl

@[simp] theorem counted_singleton : counted [first] = [first] := rfl

theorem counted_cons_pos (h : Away first pose) : counted (first :: pose :: rest) = first :: counted (pose :: rest) :=
  List.destutter'_cons_pos _ h

theorem counted_cons_neg (h : ¬Away first pose) : counted (first :: pose :: rest) = counted (first :: rest) :=
  List.destutter'_cons_neg _ h

/-- The first pose counts. -/
theorem exists_counted_eq_cons (first : Transform α) (rest : List (Transform α)) :
    ∃ tail, counted (first :: rest) = first :: tail := by
  induction rest with
  | nil => exact ⟨[], rfl⟩
  | cons pose rest ih =>
    by_cases h : Away first pose
    · exact ⟨_, counted_cons_pos h⟩
    · rw [counted_cons_neg h]
      exact ih

theorem lastCounted_cons_pos (h : Away first pose) : lastCounted first (pose :: rest) = lastCounted pose rest := by
  obtain ⟨tail, htail⟩ := exists_counted_eq_cons pose rest
  rw [lastCounted, lastCounted, counted_cons_pos h, htail, List.getLastD_cons, List.getLastD_cons, List.getLastD_cons]

theorem lastCounted_cons_neg (h : ¬Away first pose) : lastCounted first (pose :: rest) = lastCounted first rest := by
  rw [lastCounted, lastCounted, counted_cons_neg h]

/-- What counts of some poses does not depend on those after them, and what counts of those depends on the last of these alone. -/
theorem counted_append (first : Transform α) (before after : List (Transform α)) :
    counted (first :: (before ++ after)) =
      counted (first :: before) ++ (counted (lastCounted first before :: after)).tail := by
  induction before generalizing first with
  | nil =>
    obtain ⟨tail, htail⟩ := exists_counted_eq_cons first after
    rw [List.nil_append, lastCounted, counted_singleton, List.getLastD_cons, List.getLastD_nil, htail]
    rfl
  | cons pose before ih =>
    by_cases h : Away first pose
    · rw [List.cons_append, counted_cons_pos h, counted_cons_pos h, lastCounted_cons_pos h, ih, List.cons_append]
    · rw [List.cons_append, counted_cons_neg h, counted_cons_neg h, lastCounted_cons_neg h, ih]

/-- One more pose counts if it is away from the last one that does. -/
theorem counted_concat (first : Transform α) (before : List (Transform α)) (pose : Transform α) :
    counted (first :: (before ++ [pose])) =
      if Away (lastCounted first before) pose then counted (first :: before) ++ [pose] else counted (first :: before) := by
  rw [counted_append]
  split_ifs with h
  · rw [counted_cons_pos h]
    rfl
  · rw [counted_cons_neg h, counted_singleton, List.tail_cons, List.append_nil]

/-- A pose that does not count can be left out. -/
theorem counted_of_not_away (h : ¬Away (lastCounted first before) pose) :
    counted (first :: (before ++ pose :: after)) = counted (first :: (before ++ after)) := by
  rw [counted_append, counted_append, counted_cons_neg h]

/-! ## The mean over their steps -/

theorem climbAngles_cons_pos (h : Away first pose) :
    climbAngles (first :: pose :: rest) = climbAngle (first, pose) :: climbAngles (pose :: rest) := by
  obtain ⟨tail, htail⟩ := exists_counted_eq_cons pose rest
  rw [climbAngles, climbAngles, counted_cons_pos h, htail, steps_cons_cons, List.map_cons]

theorem climbAngles_cons_neg (h : ¬Away first pose) : climbAngles (first :: pose :: rest) = climbAngles (first :: rest) := by
  rw [climbAngles, climbAngles, counted_cons_neg h]

theorem length_climbAngles (poses : List (Transform α)) : (climbAngles poses).length = (counted poses).length - 1 := by
  rw [climbAngles, List.length_map, steps, List.length_zip, List.length_tail]
  omega

/-- One more pose moves the climb to it if it is away, with the angle to it, and is passed over if not. -/
theorem Climb.add_of_away (h : Away first pose) (total : α) (count : ℕ) :
    Climb.add ⟨first.position, total, count⟩ pose.position =
      ⟨pose.position, total + climbAngle (first, pose), count + 1⟩ := if_pos h

theorem Climb.add_of_not_away (h : ¬Away first pose) (total : α) (count : ℕ) :
    Climb.add ⟨first.position, total, count⟩ pose.position = ⟨first.position, total, count⟩ := if_neg h

/-- The climb along some poses is at the last of them that counts, and has added up the angles between those that do. -/
theorem Climb.foldl_add (first : Transform α) (rest : List (Transform α)) (total : α) (count : ℕ) :
    (rest.map (·.position)).foldl Climb.add ⟨first.position, total, count⟩ =
      ⟨(lastCounted first rest).position, (climbAngles (first :: rest)).foldl (· + ·) total,
        count + (climbAngles (first :: rest)).length⟩ := by
  induction rest generalizing first total count with
  | nil => rfl
  | cons pose rest ih =>
    rw [List.map_cons, List.foldl_cons]
    by_cases h : Away first pose
    · rw [Climb.add_of_away h, ih, lastCounted_cons_pos h, climbAngles_cons_pos h, List.foldl_cons, List.length_cons,
        Nat.add_right_comm, Nat.add_assoc]
    · rw [Climb.add_of_not_away h, ih, lastCounted_cons_neg h, climbAngles_cons_neg h]

theorem groundSteps_eq (poses : List (Transform α)) : groundSteps poses = (counted poses).length - 1 := by
  cases poses with
  | nil => rfl
  | cons first rest =>
    rw [groundSteps, Climb.foldl_add, Nat.zero_add, length_climbAngles]

/-- The slope is the mean of the angles between the poses that count. -/
theorem meanSlope_of_lt (h : 1 < (counted poses).length) :
    meanSlope poses = (climbAngles poses).foldl (· + ·) 0 / Scalar.ofNat ((counted poses).length - 1) := by
  cases poses with
  | nil => cases h
  | cons first rest =>
    have hcount : (counted (first :: rest)).length - 1 ≠ 0 := by omega
    simp only [meanSlope, Climb.foldl_add, Nat.zero_add, length_climbAngles]
    rw [if_neg hcount]

theorem meanSlope_of_le (h : (counted poses).length ≤ 1) : meanSlope poses = 0 := by
  apply meanSlope_of_groundSteps
  rw [groundSteps_eq]
  omega

/-- Poses of which the same ones count have the same slope. -/
theorem meanSlope_congr {poses' : List (Transform α)} (h : counted poses = counted poses') :
    meanSlope poses = meanSlope poses' := by
  rcases Nat.lt_or_ge 1 (counted poses).length with hlt | hle
  · rw [meanSlope_of_lt hlt, meanSlope_of_lt (h ▸ hlt), climbAngles, climbAngles, h]
  · rw [meanSlope_of_le hle, meanSlope_of_le (h ▸ hle)]

theorem meanSlope_counted (poses : List (Transform α)) : meanSlope (counted poses) = meanSlope poses :=
  meanSlope_congr (List.destutter_idem poses Away)

end Counted

/-! ## Binary32 poses that do not count -/

section Numbers

variable {p q : Transform Float32}

/-- The difference of equal numbers is lost. -/
theorem Binary32.Alike.lost_sub {x y : Float32} (h : Alike x y) : Lost (y - x) := by
  cases hx : x.isFinite with
  | true =>
    have hy : y.isFinite = true := h.isFinite_eq.symm.trans hx
    have hheld : Held (toReal x) x := Or.inr ⟨hx, by rw [sub_self, abs_zero]; positivity⟩
    have hheld' : Held (toReal x) y := by
      rw [(alike_iff hx hy).1 h]
      exact Or.inr ⟨hy, by rw [sub_self, abs_zero]; positivity⟩
    exact hheld.sub hheld'
  | false =>
    obtain rfl : x = y := h.elim id (eq_of_beq_not_finite hx)
    exact lost_sub_self x

/-- A pose straight above or below another is not away from it. -/
theorem not_away_of_alike (hx : Alike p.position.x q.position.x) (hy : Alike p.position.y q.position.y) : ¬Away p q :=
  Vec3.not_pos_groundLength hx.lost_sub hy.lost_sub

/-- A pose whose place on the ground is none is not away from any. -/
theorem not_away_of_isNaN (h : IsNaN q.position.x ∨ IsNaN q.position.y) : ¬Away p q := by
  intro haway
  have hnan : IsNaN (q.position - p.position).groundLength := by
    rcases h with hx | hy
    · exact (hx.sub_left.mul_left.add_left).sqrt
    · exact (hy.sub_left.mul_left.add_right).sqrt
  exact not_isNaN_of_lt haway hnan

/-- The slope of some poses is the mean of the angles of climb between those that count, added up in order, and zero if there is
no step between such. The first pose counts, and each one that is away from the last one before it that does. A pose that is not
away from it can be left out, or put in, and the slope stays exactly what it is; straight above or below it no pose is away, and
none whose place on the ground is none. -/
theorem travelSlope_counts (poses : List (Transform Float32)) :
    (∀ (duration : Float32) (plan : Plan Float32) (pose : Float32 → Transform Float32), 0 < duration → plan.poses pose = poses →
      Evaluator.travelSlope.measure duration plan pose = meanSlope poses) ∧
    ((counted poses).length ≤ 1 → meanSlope poses = 0) ∧
    (1 < (counted poses).length → meanSlope poses =
      ((steps (counted poses)).map climbAngle).foldl (· + ·) 0 / Float32.ofNat ((counted poses).length - 1)) ∧
    meanSlope (counted poses) = meanSlope poses ∧
    (poses = [] → counted poses = []) ∧
    (∀ first, poses = [first] → counted poses = [first]) ∧
    (∀ first before pose, poses = first :: (before ++ [pose]) → counted poses =
      if Away (lastCounted first before) pose then counted (first :: before) ++ [pose] else counted (first :: before)) ∧
    (∀ first before pose after, poses = first :: (before ++ pose :: after) → ¬Away (lastCounted first before) pose →
      meanSlope poses = meanSlope (first :: (before ++ after))) ∧
    (∀ p q : Transform Float32, Alike p.position.x q.position.x ∧ Alike p.position.y q.position.y ∨
      IsNaN q.position.x ∨ IsNaN q.position.y → ¬Away p q) := by
  refine ⟨?_, meanSlope_of_le, meanSlope_of_lt, meanSlope_counted poses, ?_, ?_, ?_, ?_, ?_⟩
  · rintro duration plan pose hduration rfl
    exact if_pos hduration
  · rintro rfl
    exact counted_nil
  · rintro first rfl
    exact counted_singleton
  · rintro first before pose rfl
    exact counted_concat first before pose
  · rintro first before pose after rfl h
    exact meanSlope_congr (counted_of_not_away h)
  · rintro p q (⟨hx, hy⟩ | hnan)
    · exact not_away_of_alike hx hy
    · exact not_away_of_isNaN hnan

/-- A pose straight above the first one does not count, nor one that is nowhere over the ground. -/
example : counted [Transform.ofPosition (⟨0, 0, 0⟩ : Vec3 Float32), Transform.ofPosition ⟨0, 0, 1⟩,
      Transform.ofPosition ⟨0 / 0, 1, 1⟩, Transform.ofPosition ⟨1, 0, 1⟩] =
    [Transform.ofPosition ⟨0, 0, 0⟩, Transform.ofPosition ⟨1, 0, 1⟩] := by decide +kernel

end Numbers

end Gait
