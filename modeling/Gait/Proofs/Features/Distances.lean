import Gait.Feature
import Gait.Proofs.Binary32.Angle
import Gait.Proofs.Features.Samples

/-!
# Distances between sampled positions

Sampled positions are of ordinary size or the bound one, so their differences are finite. The square of a distance is finite
unless the bound position is very far away, and then the distance is of ordinary size.
-/

namespace Gait

open Binary32

namespace Vec3

/-- Every component is finite. -/
def IsFinite (v : Vec3 Float32) : Prop := v.x.isFinite = true ∧ v.y.isFinite = true ∧ v.z.isFinite = true

instance (v : Vec3 Float32) : Decidable v.IsFinite := inferInstanceAs (Decidable (_ ∧ _ ∧ _))

/-- The position is of ordinary size, or the one given. -/
def Placed (bound v : Vec3 Float32) : Prop := v.Within 47 ∨ v = bound

/-- The square of the distance between two positions is a number. -/
def Spans (a b : Vec3 Float32) : Prop := ((b - a).dot (b - a)).isFinite = true

instance (a b : Vec3 Float32) : Decidable (Spans a b) := inferInstanceAs (Decidable (_ = true))

variable {bound a b v axis : Vec3 Float32}

theorem Placed.isFinite (h : Placed bound v) (hbound : bound.IsFinite) : v.IsFinite := by
  rcases h with h | rfl
  · exact ⟨h.1.1, h.2.1.1, h.2.2.1⟩
  · exact hbound

/-- The way between two sampled positions is finite. -/
theorem isFinite_sub (hbound : bound.IsFinite) (ha : Placed bound a) (hb : Placed bound b) : (b - a).IsFinite := by
  obtain ⟨ax, ay, az⟩ := ha.isFinite hbound
  obtain ⟨bx, bY, bz⟩ := hb.isFinite hbound
  rcases ha with ha | rfl
  · exact ⟨isFinite_sub_of_small bx ax (Or.inr (ha.1.mono (by norm_num))),
      isFinite_sub_of_small bY ay (Or.inr (ha.2.1.mono (by norm_num))),
      isFinite_sub_of_small bz az (Or.inr (ha.2.2.mono (by norm_num)))⟩
  · rcases hb with hb | rfl
    · exact ⟨isFinite_sub_of_small bx ax (Or.inl (hb.1.mono (by norm_num))),
        isFinite_sub_of_small bY ay (Or.inl (hb.2.1.mono (by norm_num))),
        isFinite_sub_of_small bz az (Or.inl (hb.2.2.mono (by norm_num)))⟩
    · exact ⟨(exactly_sub_self ax).1, (exactly_sub_self ay).1, (exactly_sub_self az).1⟩

/-- A way whose square is a number is of ordinary size. -/
theorem within_of_isFinite_dot (h : (v.dot v).isFinite = true) : v.Within 64 := by
  obtain ⟨hxy, hz⟩ := isFinite_of_add h
  obtain ⟨hx, hy⟩ := isFinite_of_add hxy
  exact ⟨small_of_isFinite_mul_self hx (isFinite_of_mul hx).1, small_of_isFinite_mul_self hy (isFinite_of_mul hy).1,
    small_of_isFinite_mul_self hz (isFinite_of_mul hz).1⟩

theorem toReal_dot_self_nonneg (h : (v.dot v).isFinite = true) : 0 ≤ toReal (v.dot v) := by
  obtain ⟨hxy, hz⟩ := isFinite_of_add h
  obtain ⟨hx, hy⟩ := isFinite_of_add hxy
  have hsquare : ∀ {c : Float32}, (c * c).isFinite = true → 0 ≤ toReal (c * c) := by
    intro c hc
    rw [(rounded_mul (isFinite_of_mul hc).1 (isFinite_of_mul hc).1).toReal_eq hc]
    exact nearest_nonneg (mul_self_nonneg _)
  have hxy0 : 0 ≤ toReal (v.x * v.x + v.y * v.y) := by
    rw [(rounded_add hx hy).toReal_eq hxy]
    exact nearest_nonneg (add_nonneg (hsquare hx) (hsquare hy))
  show 0 ≤ toReal (v.x * v.x + v.y * v.y + v.z * v.z)
  rw [(rounded_add hxy hz).toReal_eq h]
  exact nearest_nonneg (add_nonneg hxy0 (hsquare hz))

/-- A length is finite if its square is, and then it is of ordinary size. -/
theorem isFinite_length_iff : v.length.isFinite = true ↔ (v.dot v).isFinite = true :=
  ⟨isFinite_of_sqrt, fun h => (small_sqrt h (toReal_dot_self_nonneg h)).1⟩

theorem small_length (h : (v.dot v).isFinite = true) : Small 64 v.length := small_sqrt h (toReal_dot_self_nonneg h)

/-- The part of a way along an axis. -/
theorem small_dot_axis (hv : v.Within 64) (haxis : axis.Within 0) : Small 66 (v.dot axis) :=
  ((hv.1.mul haxis.1 (by norm_num)).add (hv.2.1.mul haxis.2.1 (by norm_num)) (by norm_num)).add
    ((hv.2.2.mul haxis.2.2 (by norm_num)).mono (by norm_num)) (by norm_num)

/-- Positions near the origin have a distance. -/
theorem spans_of_within (ha : a.Within 60) (hb : b.Within 60) : Spans a b := by
  have hx := hb.1.sub ha.1 (by norm_num)
  have hy := hb.2.1.sub ha.2.1 (by norm_num)
  have hz := hb.2.2.sub ha.2.2 (by norm_num)
  exact (((hx.mul hx (by norm_num)).add (hy.mul hy (by norm_num)) (by norm_num)).add
    ((hz.mul hz (by norm_num)).mono (by norm_num)) (by norm_num)).1

theorem Placed.within (h : Placed bound v) (hbound : bound.Within 60) : v.Within 60 := by
  rcases h with h | rfl
  · exact h.mono (by norm_num)
  · exact hbound

end Vec3

/-! ## Slopes -/

/-- The climb so far ends at a sampled position, and its angles are of ordinary size. -/
structure Climb.Bounded (bound : Vec3 Float32) (climb : Climb Float32) : Prop where
  anchor : Vec3.Placed bound climb.anchor
  total : Total 5 climb.count climb.total

namespace Climb

variable {bound : Vec3 Float32}

/-- One more sampled position leaves a climb bounded, and at most one more angle counts. -/
theorem Bounded.add {climb : Climb Float32} (h : climb.Bounded bound) (hbound : bound.IsFinite) {position : Vec3 Float32}
    (hp : Vec3.Placed bound position) (hcount : climb.count + 1 ≤ 2 ^ 24) :
    (climb.add position).Bounded bound ∧ (climb.add position).count ≤ climb.count + 1 := by
  unfold Climb.add
  by_cases hground : 0 < (position - climb.anchor).groundLength
  · simp only [if_pos hground]
    have hz := (Vec3.isFinite_sub hbound h.anchor hp).2.2
    have hangle := small_atan2 (not_isNaN_of_isFinite hz) (not_isNaN_of_lt hground)
    exact ⟨⟨hp, h.total.add hangle hcount (by norm_num)⟩, le_rfl⟩
  · simp only [if_neg hground]
    exact ⟨h, Nat.le_succ _⟩

/-- A climb over sampled positions is bounded. -/
theorem Bounded.foldl {positions : List (Vec3 Float32)} (hbound : bound.IsFinite) (hp : ∀ p ∈ positions, Vec3.Placed bound p) :
    ∀ {climb : Climb Float32}, climb.Bounded bound → climb.count + positions.length ≤ 2 ^ 24 →
      (positions.foldl Climb.add climb).Bounded bound ∧
        (positions.foldl Climb.add climb).count ≤ climb.count + positions.length := by
  induction positions with
  | nil => exact fun h _ => ⟨h, le_rfl⟩
  | cons p ps ih =>
    intro climb h hcount
    rw [List.length_cons] at hcount ⊢
    obtain ⟨hadd, hle⟩ := h.add hbound (hp p List.mem_cons_self) (by omega)
    obtain ⟨hall, hall'⟩ := ih (fun q hq => hp q (List.mem_cons_of_mem _ hq)) hadd (by omega)
    exact ⟨hall, by rw [List.foldl_cons]; omega⟩

end Climb

end Gait
