import Gait.Proofs.Binary32.Zeros
import Gait.Proofs.Features.Dependence
import Gait.Proofs.Features.Distances

/-!
# Ways along an axis

The ways from sample to sample along an axis add up to the way from the first sample to the last, whatever lies between, if no sum
on the way is rounded. Where the coordinates are whole numbers that are not very large none is, so a velocity along an axis is one
division of a difference of two coordinates.
-/

namespace Gait

open Binary32

/-! ## Whole numbers -/

namespace Binary32

variable {k : ℕ} {x y : Float32}

/-- The number is whole and of a magnitude of at most `2 ^ k`. -/
def IsWhole (k : ℕ) (x : Float32) : Prop := ∃ n : ℤ, |n| ≤ 2 ^ k ∧ Exactly n x

theorem IsWhole.isFinite (h : IsWhole k x) : x.isFinite = true := by
  obtain ⟨n, -, hn⟩ := h
  exact hn.1

/-- The difference of whole numbers is a number. -/
theorem IsWhole.mark_sub (hx : IsWhole 22 x) (hy : IsWhole 22 y) : Mark (toReal x - toReal y) := by
  obtain ⟨m, hm, hmx⟩ := hx
  obtain ⟨n, hn, hny⟩ := hy
  have hle : |m - n| ≤ 2 ^ 24 := by
    have hsub := abs_sub m n
    omega
  exact mark_of_eq (m - n) 0 (by rw [hmx.2, hny.2]; simp) hle (by norm_num)

theorem IsWhole.exactly_sub (hx : IsWhole 22 x) (hy : IsWhole 22 y) : Exactly (toReal x - toReal y) (x - y) :=
  (rounded_sub hx.isFinite hy.isFinite).exact (hx.mark_sub hy).1 (hx.mark_sub hy).2

end Binary32

/-! ## Adding up differences -/

/-- What is read off each step is the difference of a value at its ends, and any two values differ by a number. Then the sum over
the steps from any point on is the value at the last point without that at the origin. -/
theorem exactly_foldl_steps {β : Type} {f : β × β → Float32} {c : β → ℝ} {origin last : β} :
    ∀ {rest : List β} {first : β} {start : Float32}, (∀ p ∈ first :: rest, Mark (c p - c origin)) →
      (∀ step ∈ steps (first :: rest), Exactly (c step.2 - c step.1) (f step)) → Exactly (c first - c origin) start →
      (first :: rest).getLast? = some last →
      Exactly (c last - c origin) (((steps (first :: rest)).map f).foldl (· + ·) start) := by
  intro rest
  induction rest with
  | nil =>
    intro first start _ _ hstart hlast
    obtain rfl : first = last := Option.some.inj hlast
    exact hstart
  | cons second rest ih =>
    intro first start hmark hsteps hstart hlast
    rw [steps_cons_cons] at hsteps ⊢
    have hterm := hsteps (first, second) List.mem_cons_self
    -- so far the sum is the way to the first point; with one more term it is the way to the second
    have hway : c first - c origin + (c second - c first) = c second - c origin := by ring
    have hnext : Exactly (c second - c origin) (start + f (first, second)) := by
      rw [← hway]
      exact hstart.add hterm (by rw [hway]; exact hmark second (by simp))
    rw [List.getLast?_cons_cons] at hlast
    exact ih (fun p hp => hmark p (List.mem_cons_of_mem _ hp)) (fun step hstep => hsteps step (List.mem_cons_of_mem _ hstep))
      hnext hlast

/-! ## The way along an axis -/

namespace Vec3

variable {k : ℕ} {a b : Vec3 Float32}

/-- All coordinates are whole numbers of a magnitude of at most `2 ^ k`. -/
def IsWhole (k : ℕ) (v : Vec3 Float32) : Prop := Binary32.IsWhole k v.x ∧ Binary32.IsWhole k v.y ∧ Binary32.IsWhole k v.z

/-- The products with the zeros of the axis do not change the way to the right. -/
theorem exactly_dot_right (ha : a.IsWhole 22) (hb : b.IsWhole 22) :
    Exactly (toReal b.x - toReal a.x) ((b - a).dot right) :=
  (((hb.1.exactly_sub ha.1).mul_of_one exactly_one).add_of_zero
    (Exactly.mul_of_zero (hb.2.1.exactly_sub ha.2.1).1 exactly_zero)).add_of_zero
    (Exactly.mul_of_zero (hb.2.2.exactly_sub ha.2.2).1 exactly_zero)

theorem exactly_dot_front (ha : a.IsWhole 22) (hb : b.IsWhole 22) :
    Exactly (toReal b.y - toReal a.y) ((b - a).dot front) :=
  (Exactly.zero_add (Exactly.mul_of_zero (hb.1.exactly_sub ha.1).1 exactly_zero)
    ((hb.2.1.exactly_sub ha.2.1).mul_of_one exactly_one)).add_of_zero
    (Exactly.mul_of_zero (hb.2.2.exactly_sub ha.2.2).1 exactly_zero)

end Vec3

section Axis

variable {axis : Vec3 Float32} {c : Vec3 Float32 → Float32} {poses : List (Transform Float32)} {first last : Transform Float32}
  {duration : Float32}

/-- The ways between whole positions along an axis add up to the difference of the last coordinate and the first. -/
theorem exactly_distanceAlong
    (hdot : ∀ {a b : Vec3 Float32}, a.IsWhole 22 → b.IsWhole 22 → Exactly (toReal (c b) - toReal (c a)) ((b - a).dot axis))
    (hc : ∀ {v : Vec3 Float32}, v.IsWhole 22 → IsWhole 22 (c v)) (hwhole : ∀ q ∈ poses, q.position.IsWhole 22)
    (hfirst : poses.head? = some first) (hlast : poses.getLast? = some last) :
    Exactly (toReal (c last.position) - toReal (c first.position)) (distanceAlong axis poses) := by
  obtain ⟨rest, rfl⟩ : ∃ rest, poses = first :: rest := List.head?_eq_some_iff.mp hfirst
  have hstart : Exactly (toReal (c first.position) - toReal (c first.position)) (-(Float32.ofNat 0)) := by
    rw [sub_self]
    exact exactly_zero.neg_of_zero
  refine exactly_foldl_steps (c := fun q : Transform Float32 => toReal (c q.position)) ?_ ?_ hstart hlast
  · intro q hq
    exact (hc (hwhole q hq)).mark_sub (hc (hwhole first List.mem_cons_self))
  · intro step hstep
    obtain ⟨h1, h2⟩ := mem_of_mem_steps hstep
    exact hdot (hwhole _ h1) (hwhole _ h2)

/-- So their sum divided by a duration is one difference divided by it. -/
theorem beq_distanceAlong_div (hpos : 0 < duration)
    (hdot : ∀ {a b : Vec3 Float32}, a.IsWhole 22 → b.IsWhole 22 → Exactly (toReal (c b) - toReal (c a)) ((b - a).dot axis))
    (hc : ∀ {v : Vec3 Float32}, v.IsWhole 22 → IsWhole 22 (c v)) (hwhole : ∀ q ∈ poses, q.position.IsWhole 22)
    (hfirst : poses.head? = some first) (hlast : poses.getLast? = some last) :
    Exactly (toReal (c last.position) - toReal (c first.position)) (c last.position - c first.position) ∧
      (distanceAlong axis poses / duration == (c last.position - c first.position) / duration) = true := by
  have hsum := exactly_distanceAlong hdot hc hwhole hfirst hlast
  have hdiff := (hc (hwhole last (List.mem_of_getLast? hlast))).exactly_sub (hc (hwhole first (List.mem_of_head? hfirst)))
  have halike : Alike (distanceAlong axis poses) (c last.position - c first.position) := by
    rw [alike_iff hsum.1 hdiff.1, hsum.2, hdiff.2]
  exact ⟨hdiff, (halike.div hpos).beq (not_isNaN_div_of_pos hsum.1 hpos)⟩

end Axis

/-! ## The evaluators -/

namespace Evaluator

variable {p : Playback} {w : World} {m : Motion Float32}

/-- If all sampled positions are whole and not very large, the velocity to the right is the difference of the last and the first
first coordinate, which is exact, divided once by the duration, and so is the velocity to the front with the second coordinate; no
pose between and no height has a part in it. Without samples both are zero. -/
theorem velocity_telescopes (s : Settings) (hm : (p.resolve w).result = .ok m) (hpos : 0 < m.duration)
    (hwhole : ∀ q ∈ (m.plan s).poses m.pose, q.position.IsWhole 22) :
    (∀ first last, ((m.plan s).poses m.pose).head? = some first → ((m.plan s).poses m.pose).getLast? = some last →
      (Exactly (toReal last.position.x - toReal first.position.x) (last.position.x - first.position.x) ∧
        ∃ v, (leftRightVelocity.evaluate p s w).result = .ok v ∧
          (v == (last.position.x - first.position.x) / m.duration) = true) ∧
      (Exactly (toReal last.position.y - toReal first.position.y) (last.position.y - first.position.y) ∧
        ∃ v, (frontBackVelocity.evaluate p s w).result = .ok v ∧
          (v == (last.position.y - first.position.y) / m.duration) = true)) ∧
    ((m.plan s).poses m.pose = [] → ∀ e ∈ [leftRightVelocity, frontBackVelocity],
      ∃ v, (e.evaluate p s w).result = .ok v ∧ (v == 0) = true) := by
  have hright : m.measure leftRightVelocity s = distanceAlong Vec3.right ((m.plan s).poses m.pose) / m.duration := if_pos hpos
  have hfront : m.measure frontBackVelocity s = distanceAlong Vec3.front ((m.plan s).poses m.pose) / m.duration := if_pos hpos
  refine ⟨fun first last hfirst hlast => ⟨?_, ?_⟩, fun hnone e he => ⟨_, e.result_evaluate s hm, beq_zero_iff.mpr ?_⟩⟩
  · obtain ⟨hexact, hbeq⟩ := beq_distanceAlong_div (c := (·.x)) hpos Vec3.exactly_dot_right (fun hv => hv.1) hwhole hfirst hlast
    exact ⟨hexact, _, leftRightVelocity.result_evaluate s hm, by rwa [hright]⟩
  · obtain ⟨hexact, hbeq⟩ := beq_distanceAlong_div (c := (·.y)) hpos Vec3.exactly_dot_front (fun hv => hv.2.1) hwhole hfirst hlast
    exact ⟨hexact, _, frontBackVelocity.result_evaluate s hm, by rwa [hfront]⟩
  · have hsum : Exactly 0 (Scalar.sum ([] : List Float32) / m.duration) := exactly_zero.neg_of_zero.div_of_pos hpos
    rw [List.mem_cons, List.mem_singleton] at he
    rcases he with rfl | rfl
    · rw [hright, hnone]
      exact hsum
    · rw [hfront, hnone]
      exact hsum

/-- A motion in leaps between places with whole coordinates. -/
def stagger (time : Float32) : Transform Float32 :=
  if time = 0 then .ofPosition ⟨1, 2, 3⟩ else if time = 0.5 then .ofPosition ⟨4000000, 0, 5⟩ else .ofPosition ⟨4, 9, 0⟩

theorem isWhole_ofNat {n : ℕ} (h : n ≤ 2 ^ 22) : IsWhole 22 (Float32.ofNat n) := by
  obtain ⟨hfin, hval⟩ := float32_ofNat (h.trans (by norm_num : 2 ^ 22 ≤ 2 ^ 24))
  refine ⟨n, ?_, hfin, by rw [hval, Int.cast_natCast]⟩
  rw [abs_of_nonneg (by omega)]
  exact_mod_cast h

theorem isWhole_stagger (time : Float32) : (stagger time).position.IsWhole 22 := by
  unfold stagger
  split_ifs <;>
    exact ⟨isWhole_ofNat (by norm_num), isWhole_ofNat (by norm_num), isWhole_ofNat (by norm_num)⟩

/-- In one second it gets three units to the right and seven to the front; at no rate it is not sampled. -/
theorem velocity_telescopes_stagger : (∃ v, (leftRightVelocity.evaluate (riding 2 stagger) {} (rider 0)).result = .ok v ∧
      (v == (4 - 1) / 1) = true) ∧
    (∃ v, (frontBackVelocity.evaluate (riding 2 stagger) {} (rider 0)).result = .ok v ∧ (v == (9 - 2) / 1) = true) ∧
    ∃ v, (leftRightVelocity.evaluate (riding 0 stagger) { fallbackRate := 0 } (rider 0)).result = .ok v ∧ (v == 0) = true := by
  have hwhole : ∀ (rate : Float32) (s : Settings), ∀ q ∈ ((ride rate stagger 0).plan s).poses (ride rate stagger 0).pose,
      q.position.IsWhole 22 := by
    intro rate s q hq
    obtain ⟨t, -, rfl⟩ := List.mem_map.mp hq
    exact isWhole_stagger t
  have hm : ∀ rate, ((riding rate stagger).resolve (rider 0)).result = .ok (ride rate stagger 0) := fun _ => rfl
  obtain ⟨hright, hfront⟩ := (velocity_telescopes {} (hm 2) (by decide +kernel) (hwhole 2 {})).1 (stagger 0) (stagger 1)
    (by decide +kernel) (by decide +kernel)
  have hnone := (velocity_telescopes { fallbackRate := 0 } (hm 0) (by decide +kernel) (hwhole 0 _)).2 (by decide +kernel)
  exact ⟨hright.2, hfront.2, hnone _ (by simp)⟩

end Evaluator

end Gait
