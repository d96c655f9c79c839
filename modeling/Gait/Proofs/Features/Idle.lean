import Gait.World.Evaluation
import Gait.Proofs.Binary32.SelfBlend
import Gait.Proofs.Features.Distances

/-!
# The slope of a joint that does not move

A step counts for the slope if it leads away from the last position that counted, as seen from above, however little. A joint
whose keys all hold one position stays there in step mode. Along straight ways the position between two keys is a blend of two
equal ones, so the joint stays, up to what the square of a step does not show, if the two horizontal components are very small or
powers of two; a component that is larger and no power of two can be missed by a unit of its last place, and then steps count.
-/

namespace Gait

open Binary32

/-! ## Steps that count -/

section GroundSteps

variable {α : Type} [Scalar α]

/-- The number of poses that lead away over the ground. -/
def groundSteps (poses : List (Transform α)) : Nat :=
  match poses with
  | [] => 0
  | first :: rest => ((rest.map (·.position)).foldl Climb.add ⟨first.position, 0, 0⟩).count

/-- Without a step that counts there is no slope. -/
theorem meanSlope_of_groundSteps {poses : List (Transform α)} (h : groundSteps poses = 0) : meanSlope poses = 0 := by
  cases poses with
  | nil => rfl
  | cons first rest =>
    simp only [groundSteps] at h
    simp only [meanSlope, h, if_pos]

/-- A climb along positions that are not away from its anchor stays as it is. -/
theorem Climb.foldl_eq_self {climb : Climb α} :
    ∀ {positions : List (Vec3 α)}, (∀ p ∈ positions, ¬ 0 < (p - climb.anchor).groundLength) →
      positions.foldl Climb.add climb = climb := by
  intro positions
  induction positions with
  | nil => exact fun _ => rfl
  | cons p ps ih =>
    intro h
    have hstay : climb.add p = climb := by
      unfold Climb.add
      exact if_neg (h p List.mem_cons_self)
    rw [List.foldl_cons, hstay]
    exact ih fun q hq => h q (List.mem_cons_of_mem _ hq)

/-- Where no pose is away from another no step counts. -/
theorem groundSteps_eq_zero {poses : List (Transform α)}
    (h : ∀ p ∈ poses, ∀ q ∈ poses, ¬ 0 < (q.position - p.position).groundLength) : groundSteps poses = 0 := by
  cases poses with
  | nil => rfl
  | cons first rest =>
    unfold groundSteps
    simp only
    rw [Climb.foldl_eq_self]
    intro p hp
    obtain ⟨pose, hpose, rfl⟩ := List.mem_map.mp hp
    exact h first List.mem_cons_self pose (List.mem_cons_of_mem _ hpose)

end GroundSteps

/-! ## Steps that are lost -/

namespace Binary32

variable {x y d : Float32}

/-- The number is none, or its square is lost. -/
def Lost (d : Float32) : Prop := IsNaN d ∨ Near (1 / 2 ^ 75) d 0

theorem lost_sub_self (x : Float32) : Lost (x - x) := by
  cases hx : x.isFinite with
  | true =>
    right
    obtain ⟨hfin, hval⟩ := exactly_sub_self hx
    exact ⟨hfin, by rw [hval, sub_zero, abs_zero]; positivity⟩
  | false => exact Or.inl (isNaN_sub_self hx)

/-- The difference of two numbers that are held at one is lost. -/
theorem Held.sub {c : ℝ} (hx : Held c x) (hy : Held c y) : Lost (y - x) := by
  rcases hx with hx | hx
  · exact Or.inl hx.sub_right
  rcases hy with hy | hy
  · exact Or.inl hy.sub_left
  right
  have hle : |toReal y - toReal x| ≤ 1 / 2 ^ 75 := by
    refine (abs_sub_le _ c _).trans ?_
    rw [abs_sub_comm c]
    refine (add_le_add hy.2 hx.2).trans ?_
    norm_num
  have hmark := mark_inv_two_pow (j := 75) (by norm_num)
  obtain ⟨hfin, h1, h2⟩ := (rounded_sub hy.1 hx.1).between hmark.neg hmark (abs_le.mp hle).1 (abs_le.mp hle).2
  exact ⟨hfin, by rw [sub_zero]; exact abs_le.mpr ⟨h1, h2⟩⟩

/-- Half of the least number rounds to zero. -/
theorem nearest_half_least : nearest (1 / 2 ^ 150) = 0 := by
  have hexp : ulpExp (1 / 2 ^ 150) = -149 :=
    ulpExp_eq le_rfl (Or.inr ⟨rfl, by positivity⟩) (by rw [abs_of_pos (by positivity)]; norm_num)
  have h := nearest_eq_iff_of_ulpExp (k := 0) hexp
  rw [Int.cast_zero, zero_mul] at h
  rw [h]
  exact Or.inr ⟨by norm_num, Even.zero⟩

/-- The square of a lost number is none or zero. -/
theorem Lost.mul_self (h : Lost d) : IsNaN (d * d) ∨ Between 0 0 (d * d) := by
  rcases h with h | ⟨hfin, hle⟩
  · exact Or.inl h.mul_left
  · right
    rw [sub_zero] at hle
    have hsq : toReal d * toReal d ≤ 1 / 2 ^ 150 := by
      rw [← abs_mul_abs_self]
      refine (mul_le_mul hle hle (abs_nonneg _) (by positivity)).trans ?_
      norm_num
    have h1 := nearest_nonneg (mul_self_nonneg (toReal d))
    have h2 := (nearest_mono hsq).trans_eq nearest_half_least
    obtain ⟨hfin', hval⟩ := (rounded_mul hfin hfin).finite (by
      rw [le_antisymm h2 h1, abs_zero]
      norm_num [largest])
    exact ⟨hfin', by rw [hval]; exact h1, by rw [hval]; exact h2⟩

end Binary32

/-- A way whose horizontal components are lost does not count. -/
theorem Vec3.not_pos_groundLength {v : Vec3 Float32} (hx : Lost v.x) (hy : Lost v.y) : ¬ 0 < v.groundLength := by
  intro hpos
  have hlt : 0 < (v.x * v.x + v.y * v.y).sqrt := hpos
  have hnan := not_isNaN_of_lt hlt
  rcases hx.mul_self with hx | hx
  · exact hnan hx.add_left.sqrt
  rcases hy.mul_self with hy | hy
  · exact hnan hy.add_right.sqrt
  have hroot : Between 0 0 (v.x * v.x + v.y * v.y).sqrt :=
    (hx.add hy mark_zero mark_zero (by norm_num) (by norm_num)).sqrt le_rfl mark_zero mark_zero le_rfl (by norm_num)
      (by norm_num)
  rw [pos_iff hroot.1] at hlt
  linarith [hroot.2.2]

/-! ## Samples between equal keys -/

namespace Track

/-- The share of the way between two keys is a share, or none where the times are too far apart. -/
theorem progress_cases (start stop time : Float32) :
    IsNaN (progress start stop time) ∨ Between 0 1 (progress start stop time) := by
  unfold progress
  simp only
  split_ifs
  · exact (Scalar.clamp_cases _).imp_left And.right
  · exact Or.inr between_zero

/-- The keys all hold one value, and the way between them is straight or none. -/
structure Holds {V α : Type} (t : Track V α) (v : V) : Prop where
  blending : t.blending ≠ .cubic
  values : ∀ i < t.times.length, t.values[i]? = some v

section Holding

variable {V : Type} [Blend V Float32] {t : Track V Float32} {v : V}

omit [Blend V Float32] in
theorem Holds.valueSlot (h : t.Holds v) (i : ℕ) : t.valueSlot i = i := by
  unfold Track.valueSlot
  cases hb : t.blending with
  | cubic => exact absurd hb h.blending
  | _ => rfl

/-- A track that holds a value gives a sample unless it has no keys. -/
theorem Holds.sample_isSome (h : t.Holds v) (hkeys : t.isEmpty = false) (time : Float32) : ∃ u, t.sample time = some u := by
  rw [← Option.isSome_iff_exists, Option.isSome_iff_ne_none]
  intro hnone
  rw [sample_eq_none_iff, hkeys] at hnone
  obtain ⟨j, hj, hmissing⟩ := hnone.resolve_left (by decide)
  have hlength : 0 < t.times.length := by
    rw [isEmpty, List.isEmpty_eq_false_iff] at hkeys
    exact List.length_pos_iff.mpr hkeys
  have hlt : j < t.times.length := by
    unfold slots at hj
    split_ifs at hj with hnext
    · unfold slotsBetween at hj
      cases hb : t.blending with
      | step =>
        simp only [hb, List.mem_singleton] at hj
        omega
      | linear =>
        simp only [hb, List.mem_cons, List.not_mem_nil, or_false] at hj
        omega
      | cubic => exact absurd hb h.blending
    · rw [List.mem_singleton, h.valueSlot] at hj
      omega
  have hsome := h.values j hlt
  rw [List.getElem?_eq_none hmissing] at hsome
  cases hsome

/-- What a track that holds a value gives is that value, or on a straight way the value blended with itself. -/
theorem Holds.sample_cases (h : t.Holds v) {time : Float32} {u : V} (hu : t.sample time = some u) :
    u = v ∨ (t.blending = .linear ∧ ∃ s, (IsNaN s ∨ Between 0 1 s) ∧ u = Blend.linear v v s) := by
  have hvalue : ∀ {i : ℕ}, i < t.times.length → t.value? i = some v := by
    intro i hi
    rw [value?, h.valueSlot]
    exact h.values i hi
  rcases Track.sample_cases hu with ⟨i, hi, hv⟩ | ⟨start, stop, hstart, hstop, hb⟩
  · rw [hvalue hi] at hv
    exact Or.inl (Option.some.inj hv).symm
  · have hi := hvalue (List.getElem?_eq_some_iff.mp hstart).1
    have hj := hvalue (List.getElem?_eq_some_iff.mp hstop).1
    unfold between at hb
    cases hblending : t.blending with
    | step =>
      simp only [hblending, hi, Option.some.injEq] at hb
      exact Or.inl hb.symm
    | linear =>
      simp only [hblending, hi, hj, Option.bind_eq_bind, Option.bind_some, Option.pure_def, Option.some.injEq] at hb
      exact Or.inr ⟨rfl, _, progress_cases start stop time, hb.symm⟩
    | cubic => exact absurd hblending h.blending

end Holding

/-- A position that is held does not move, or each horizontal component is held where it is. -/
theorem Holds.stays {t : Track (Vec3 Float32) Float32} {v : Vec3 Float32} (h : t.Holds v) (hv : v.IsFinite)
    (hsteady : t.blending = .step ∨ (Steady (toReal v.x) ∧ Steady (toReal v.y))) (bound : Vec3 Float32) :
    (∃ w, ∀ time, (t.sample time).getD bound = w) ∨
      ∀ time, Held (toReal v.x) ((t.sample time).getD bound).x ∧ Held (toReal v.y) ((t.sample time).getD bound).y := by
  cases hkeys : t.isEmpty with
  | true =>
    refine Or.inl ⟨bound, fun time => ?_⟩
    rw [(sample_eq_none_iff t time).mpr (Or.inl hkeys), Option.getD_none]
  | false =>
    by_cases hstep : t.blending = .step
    · refine Or.inl ⟨v, fun time => ?_⟩
      obtain ⟨u, hu⟩ := h.sample_isSome hkeys time
      rw [hu, Option.getD_some]
      rcases h.sample_cases hu with rfl | ⟨hlinear, -⟩
      · rfl
      · rw [hstep] at hlinear
        cases hlinear
    · obtain ⟨hx, hy⟩ := hsteady.resolve_left hstep
      refine Or.inr fun time => ?_
      obtain ⟨u, hu⟩ := h.sample_isSome hkeys time
      rw [hu, Option.getD_some]
      rcases h.sample_cases hu with rfl | ⟨-, s, hs, rfl⟩
      · exact ⟨Or.inr ((near_self hv.1).mono (by positivity)), Or.inr ((near_self hv.2.1).mono (by positivity))⟩
      · exact ⟨held_selfBlend hv.1 hx hs, held_selfBlend hv.2.1 hy hs⟩

end Track

/-! ## Steps that show -/

/-- What is not less than a number of the grid in magnitude is so after rounding. -/
theorem Binary32.le_abs_nearest {x y : ℝ} (hx : Grid x) (h : x ≤ |y|) : x ≤ |nearest y| := by
  rcases abs_choice y with hy | hy
  · rw [hy] at h
    exact (hx.le_nearest h).trans (le_abs_self _)
  · rw [hy] at h
    have hneg := hx.le_nearest h
    rw [nearest_neg] at hneg
    exact hneg.trans (neg_le_abs _)

/-- A way with a horizontal component whose square shows counts. -/
theorem Vec3.pos_groundLength {v : Vec3 Float32} (hx : Small 62 v.x) (hy : Small 62 v.y)
    (h : 1 / 2 ^ 74 ≤ |toReal v.x| ∨ 1 / 2 ^ 74 ≤ |toReal v.y|) : 0 < v.groundLength := by
  have hsquare : ∀ {c : Float32}, Small 62 c → Small 124 (c * c) ∧ 0 ≤ toReal (c * c) ∧
      (1 / 2 ^ 74 ≤ |toReal c| → 0 < toReal (c * c)) := by
    intro c hc
    have hcc := hc.mul hc (by norm_num)
    have hval := (rounded_mul hc.1 hc.1).toReal_eq hcc.1
    refine ⟨hcc, by rw [hval]; exact nearest_nonneg (mul_self_nonneg _), fun hle => ?_⟩
    have hsq : 1 / 2 ^ 148 ≤ toReal c * toReal c := by
      rw [← abs_mul_abs_self]
      refine le_trans ?_ (mul_le_mul hle hle (by positivity) (abs_nonneg _))
      norm_num
    rw [hval]
    exact lt_of_lt_of_le (by positivity) ((mark_inv_two_pow (j := 148) (by norm_num)).1.le_nearest hsq)
  obtain ⟨sx, nx, px⟩ := hsquare hx
  obtain ⟨sy, ny, py⟩ := hsquare hy
  have hpos : 0 < toReal (v.x * v.x + v.y * v.y) := by
    rcases h with h | h
    · exact (px h).trans_le (le_toReal_add sx sy (by norm_num) ny)
    · exact (py h).trans_le (le_toReal_add_right sx sy (by norm_num) nx)
  obtain ⟨hfin, hroot, -⟩ := sqrt_le_two_mul ((sx.add sy (by norm_num)).mono (by norm_num)) hpos
  exact (pos_iff hfin).mpr hroot

/-! ## A joint whose keys are equal -/

namespace KeyframedClip

/-- A clip whose two keys hold one position, with a straight way between them. -/
def idle (v : Vec3 Float32) (rate duration : Float32) : KeyframedClip Float32 :=
  ⟨"idle", duration, rate, [⟨"hip", ⟨[0, 1], [v, v], .linear⟩, Track.constant Quat.identity, none⟩]⟩

/-- An actor with the one joint. -/
def idler : Actor Float32 := Actor.ofSkeleton "idler" ⟨#[⟨"hip", none⟩]⟩

/-- The clip played on the actor. -/
def idling (v : Vec3 Float32) (rate duration : Float32) : Motion Float32 := ⟨(idle v rate duration).toClip, idler, 0, false⟩

/-- Until the second key the joint is where the position blended with itself is. -/
theorem position_idling (v : Vec3 Float32) (rate duration : Float32) {time : Float32}
    (hbracket : [0, 1].findIdx (fun key : Float32 => !decide (key ≤ time)) - 1 = 0) (hshare : Track.progress 0 1 time = time) :
    ((idling v rate duration).pose time).position = Vec3.lerp v v time := by
  have hsample : (⟨[0, 1], [v, v], .linear⟩ : Track (Vec3 Float32) Float32).sample time = some (Vec3.lerp v v time) := by
    simp only [Track.sample, Track.isEmpty, Track.bracket, hbracket]
    show some (Vec3.lerp v v (Track.progress 0 1 time)) = _
    rw [hshare]
  show ((⟨[0, 1], [v, v], .linear⟩ : Track (Vec3 Float32) Float32).sample time).getD _ = _
  rw [hsample, Option.getD_some]

/-- A blend of a component with itself that misses it by what shows. -/
theorem small_step_idling {x s : Float32} (hx : Small 60 x) (hs : Between 0 1 s) :
    Small 62 ((x * (1 - s) + x * s) - (x * (1 - 0) + x * 0)) ∧
      (1 / 2 ^ 74 ≤ |selfBlend (toReal x) (toReal s) - toReal x| →
        1 / 2 ^ 74 ≤ |toReal ((x * (1 - s) + x * s) - (x * (1 - 0) + x * 0))|) := by
  have hnow := small_lerp hx hx hs (by norm_num)
  have hstart := small_lerp hx hx between_zero (by norm_num)
  have hstep := hnow.sub hstart (by norm_num)
  have hval0 : toReal (x * (1 - 0) + x * 0) = toReal x := by
    rw [(rounded_selfBlend hx.1 between_zero).toReal_eq hstart.1, toReal_zero, sub_zero, mark_one.1.nearest_eq, mul_one, mul_zero,
      nearest_zero, add_zero, (grid_toReal x).nearest_eq, (grid_toReal x).nearest_eq]
  have hval : toReal (x * (1 - s) + x * s) = selfBlend (toReal x) (toReal s) :=
    (rounded_selfBlend hx.1 hs).toReal_eq hnow.1
  refine ⟨hstep, fun h => ?_⟩
  rw [(rounded_sub hnow.1 hstart.1).toReal_eq hstep.1, hval, hval0]
  exact Binary32.le_abs_nearest (mark_inv_two_pow (j := 74) (by norm_num)).1 h

/-- Sampled at its start and at its end, the clip has a step that counts if the end shows. -/
theorem groundSteps_idling {v : Vec3 Float32} (hv : v.Within 60) {rate s : Float32}
    (hrate : ({} : Settings).rateFor rate = rate) (htimes : (Plan.ofRate rate s).times = [0, s]) (hs : Between 0 1 s)
    (hbracket : [0, 1].findIdx (fun key : Float32 => !decide (key ≤ s)) - 1 = 0) (hshare : Track.progress 0 1 s = s)
    (hshow : 1 / 2 ^ 74 ≤ |selfBlend (toReal v.x) (toReal s) - toReal v.x| ∨
      1 / 2 ^ 74 ≤ |selfBlend (toReal v.y) (toReal s) - toReal v.y|) :
    0 < groundSteps (((idling v rate s).plan {}).poses (idling v rate s).pose) := by
  have hplan : (idling v rate s).plan {} = Plan.ofRate rate s := by
    show Plan.ofRate (({} : Settings).rateFor rate) s = _
    rw [hrate]
  have hposes : ((idling v rate s).plan {}).poses (idling v rate s).pose =
      [(idling v rate s).pose 0, (idling v rate s).pose s] := by
    rw [hplan, Plan.poses, htimes]
    rfl
  have hstart : ((idling v rate s).pose 0).position = Vec3.lerp v v 0 :=
    position_idling v rate s (by decide +kernel) (by decide +kernel)
  have hend : ((idling v rate s).pose s).position = Vec3.lerp v v s := position_idling v rate s hbracket hshare
  obtain ⟨hx, hxshow⟩ := small_step_idling hv.1 hs
  obtain ⟨hy, hyshow⟩ := small_step_idling hv.2.1 hs
  have hground : 0 < (Vec3.lerp v v s - Vec3.lerp v v 0).groundLength :=
    Vec3.pos_groundLength hx hy (hshow.imp hxshow hyshow)
  rw [hposes, groundSteps]
  simp only [List.map_cons, List.map_nil, List.foldl_cons, List.foldl_nil, hstart, hend, Climb.add, if_pos hground]
  norm_num

/-- A component is neither small nor a power of two. -/
def Unsteady (x : ℝ) : Prop := 1 / 2 ^ 51 < |x| ∧ ∀ k : ℤ, |x| ≠ 2 ^ k

/-- A joint whose keys hold a position with such a component has a step that counts in some clip. -/
theorem exists_groundSteps_idling {v : Vec3 Float32} (hv : v.Within 60)
    (hunsteady : Unsteady (toReal v.x) ∨ Unsteady (toReal v.y)) : ∃ rate duration : Float32,
      isUsable rate = true ∧ isUsable duration = true ∧
        0 < groundSteps (((idling v rate duration).plan {}).poses (idling v rate duration).pose) := by
  have hlow : parts (Float32.ofBits 0x33000001) = .finite .positive 8388609 (-48) (by norm_num) := by rfl
  have hhigh : parts (Float32.ofBits 0x33C00001) = .finite .positive 12582913 (-47) (by norm_num) := by rfl
  have hlow' : toReal (Float32.ofBits 0x33000001) = lowShare := by
    rw [toReal_of_parts hlow]
    norm_num [unit, lowShare]
  have hhigh' : toReal (Float32.ofBits 0x33C00001) = highShare := by
    rw [toReal_of_parts hhigh]
    norm_num [unit, highShare]
  have hlows : Between 0 1 (Float32.ofBits 0x33000001) :=
    ⟨isFinite_of_parts hlow, by rw [hlow', lowShare]; positivity, by rw [hlow']; norm_num [lowShare]⟩
  have hhighs : Between 0 1 (Float32.ofBits 0x33C00001) :=
    ⟨isFinite_of_parts hhigh, by rw [hhigh', highShare]; positivity, by rw [hhigh']; norm_num [highShare]⟩
  have hmiss : (1 / 2 ^ 74 ≤ |selfBlend (toReal v.x) lowShare - toReal v.x| ∨
        1 / 2 ^ 74 ≤ |selfBlend (toReal v.y) lowShare - toReal v.y|) ∨
      (1 / 2 ^ 74 ≤ |selfBlend (toReal v.x) highShare - toReal v.x| ∨
        1 / 2 ^ 74 ≤ |selfBlend (toReal v.y) highShare - toReal v.y|) := by
    rcases hunsteady with h | h
    · exact (le_abs_selfBlend_sub (grid_toReal v.x) h.1 h.2).imp Or.inl Or.inl
    · exact (le_abs_selfBlend_sub (grid_toReal v.y) h.1 h.2).imp Or.inr Or.inr
  rcases hmiss with h | h
  · rw [← hlow'] at h
    exact ⟨33554432, _, by decide +kernel, by decide +kernel,
      groundSteps_idling hv (by decide +kernel) (by decide +kernel) hlows (by decide +kernel) (by decide +kernel) h⟩
  · rw [← hhigh'] at h
    exact ⟨8388608, _, by decide +kernel, by decide +kernel,
      groundSteps_idling hv (by decide +kernel) (by decide +kernel) hhighs (by decide +kernel) (by decide +kernel) h⟩

end KeyframedClip

namespace Evaluator

open KeyframedClip

/-- If the keys of the joint all hold one position whose horizontal components are steady, or hold it in step mode, no sampled
step counts and the slope is zero. A position with a component that is neither small nor a power of two is held by the keys of a
clip in which a sampled step counts. -/
theorem travelSlope_of_holds {v : Vec3 Float32} (hv : v.IsFinite) :
    (∀ (c : KeyframedClip Float32) (p : Playback) (s : Settings) (w : World) (m : Motion Float32) (t : JointTrack Float32),
      p.clip = some c.toClip → p.retargeting = false → (p.resolve w).result = .ok m →
      (m.actor.skeleton.joint? m.joint).bind (fun j => c.track? j.name) = some t → t.positions.Holds v →
      (t.positions.blending = .step ∨ (Steady (toReal v.x) ∧ Steady (toReal v.y))) →
      groundSteps ((m.plan s).poses m.pose) = 0 ∧ (travelSlope.evaluate p s w).result = .ok 0) ∧
    (v.Within 60 → Unsteady (toReal v.x) ∨ Unsteady (toReal v.y) → ∃ rate duration : Float32,
      isUsable rate = true ∧ isUsable duration = true ∧
        0 < groundSteps (((idling v rate duration).plan {}).poses (idling v rate duration).pose)) := by
  refine ⟨fun c p s w m t hclip hplain hm ht hholds hsteady => ?_, exists_groundSteps_idling⟩
  obtain ⟨hclip', hplain'⟩ := Playback.of_resolve_ok hm
  have hmclip : m.clip = c.toClip := Option.some.inj (hclip'.symm.trans hclip)
  have hposition : ∀ time, (m.pose time).position = (t.positions.sample time).getD (m.actor.bindTransform m.joint).position := by
    intro time
    have hpose : m.pose time = c.pose m.actor m.joint time false := by
      rw [Motion.pose, hmclip, hplain', hplain]
      rfl
    rw [hpose]
    simp only [KeyframedClip.pose, ht, JointTrack.pose_false]
  have hstill : ∀ a b, ¬ 0 < ((m.pose b).position - (m.pose a).position).groundLength := by
    intro a b
    rw [hposition, hposition]
    rcases hholds.stays hv hsteady (m.actor.bindTransform m.joint).position with ⟨u, hu⟩ | hheld
    · rw [hu, hu]
      exact Vec3.not_pos_groundLength (lost_sub_self _) (lost_sub_self _)
    · exact Vec3.not_pos_groundLength ((hheld a).1.sub (hheld b).1) ((hheld a).2.sub (hheld b).2)
  have hnone : groundSteps ((m.plan s).poses m.pose) = 0 := by
    apply groundSteps_eq_zero
    intro p hp q hq
    obtain ⟨a, -, rfl⟩ := List.mem_map.mp hp
    obtain ⟨b, -, rfl⟩ := List.mem_map.mp hq
    exact hstill a b
  refine ⟨hnone, ?_⟩
  rw [result_evaluate travelSlope s hm, Motion.measure, measure]
  split_ifs
  · rw [meanSlope_of_groundSteps hnone]
  · rfl

/-! ### Two positions that are held -/

/-- The actor alone. -/
def lounge : World := ⟨[⟨idler, some 0⟩]⟩

/-- The clip played on the actor there. -/
def lounging (v : Vec3 Float32) (rate duration : Float32) : Playback :=
  ⟨some (idle v rate duration).toClip, some ⟨some 0⟩, false⟩

theorem resolve_lounging (v : Vec3 Float32) (rate duration : Float32) :
    ((lounging v rate duration).resolve lounge).result = .ok (idling v rate duration) := rfl

theorem holds_idle (v : Vec3 Float32) : (⟨[0, 1], [v, v], .linear⟩ : Track (Vec3 Float32) Float32).Holds v := by
  refine ⟨nofun, fun i hi => ?_⟩
  have hi' : i < 2 := hi
  rcases (by omega : i = 0 ∨ i = 1) with rfl | rfl <;> rfl

/-- Three is no power of two. -/
theorem unsteady_three : Unsteady (toReal 3) := by
  have h : toReal 3 = (3 : ℕ) := (float32_ofNat (by norm_num)).2
  rw [h, Nat.cast_ofNat, Unsteady, abs_of_pos (by norm_num)]
  refine ⟨by norm_num, fun k hk => ?_⟩
  -- powers of two are at most two or at least four
  rcases le_or_gt k 1 with hle | hlt
  · have := zpow_le_zpow_right₀ (one_le_two (α := ℝ)) hle
    rw [← hk] at this
    norm_num at this
  · have := zpow_le_zpow_right₀ (one_le_two (α := ℝ)) (Int.add_one_le_of_lt hlt)
    rw [← hk] at this
    norm_num at this

/-- One unit to the right and two to the front a joint does not move; three units to the right it can. -/
theorem travelSlope_of_holds_lounging :
    (travelSlope.evaluate (lounging ⟨1, 2, 0⟩ 30 1) {} lounge).result = .ok 0 ∧
      ∃ rate duration : Float32, isUsable rate = true ∧ isUsable duration = true ∧
        0 < groundSteps (((idling ⟨3, 0, 0⟩ rate duration).plan {}).poses (idling ⟨3, 0, 0⟩ rate duration).pose) := by
  have htwo : (2 : Float32).isFinite = true ∧ toReal 2 = (2 : ℕ) := float32_ofNat (by norm_num)
  have hthree : (3 : Float32).isFinite = true ∧ toReal 3 = (3 : ℕ) := float32_ofNat (by norm_num)
  have hone : Steady (toReal 1) := Or.inr ⟨0, by rw [toReal_one, abs_one, zpow_zero]⟩
  have htwo' : Steady (toReal 2) := Or.inr ⟨1, by rw [htwo.2]; norm_num⟩
  have hsmall : Small 60 3 := ⟨hthree.1, by rw [hthree.2]; norm_num⟩
  exact ⟨((travelSlope_of_holds (v := ⟨1, 2, 0⟩) ⟨isFinite_one, htwo.1, isFinite_zero⟩).1 (idle ⟨1, 2, 0⟩ 30 1) _ {} lounge _ _
      rfl rfl (resolve_lounging _ _ _) rfl (holds_idle _) (Or.inr ⟨hone, htwo'⟩)).2,
    (travelSlope_of_holds (v := ⟨3, 0, 0⟩) ⟨hthree.1, isFinite_zero, isFinite_zero⟩).2 ⟨hsmall, small_zero 60, small_zero 60⟩
      (Or.inl unsteady_three)⟩

/-- Seven tenths to the right a joint moves when it is sampled seven times a second. -/
theorem not_travelSlope_of_holds :
    ¬ ∀ (v : Vec3 Float32) (c : KeyframedClip Float32) (p : Playback) (s : Settings) (w : World) (m : Motion Float32)
      (t : JointTrack Float32), v.IsFinite → isUsable c.duration = true → p.clip = some c.toClip → p.retargeting = false →
      (p.resolve w).result = .ok m → (m.actor.skeleton.joint? m.joint).bind (fun j => c.track? j.name) = some t →
      t.positions.times.Pairwise (· ≤ ·) → (∀ time ∈ t.positions.times, time.isFinite = true) → t.positions.Holds v →
      (travelSlope.evaluate p s w).result = .ok 0 := by
  intro h
  have hslope := h ⟨0.7, 0, 2.3⟩ (idle ⟨0.7, 0, 2.3⟩ 7 1) (lounging ⟨0.7, 0, 2.3⟩ 7 1) {} lounge _ _ (by decide +kernel)
    (by decide +kernel) rfl rfl (resolve_lounging _ _ _) rfl (by decide +kernel) (by decide +kernel) (holds_idle _)
  rw [result_evaluate travelSlope {} (resolve_lounging _ _ _), Except.ok.injEq] at hslope
  revert hslope
  decide +kernel

end Evaluator

end Gait
