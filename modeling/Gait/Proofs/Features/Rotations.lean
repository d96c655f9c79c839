import Gait.Blend
import Gait.Proofs.Binary32.Special
import Gait.Proofs.Binary32.Trigonometry

/-!
# Blended rotations

Between rotations of length one the arc stays of ordinary size: along the chord because near rotations share a component that is
not small, otherwise because the angle between them is not small. A quaternion brought to length one is of ordinary size exactly
if it had a length; if it had none, no component of the result is finite.
-/

namespace Gait

open Binary32

namespace Quat

/-- Every component is finite and of a magnitude of at most `2 ^ k`. -/
def Within (k : ℕ) (q : Quat Float32) : Prop := Small k q.x ∧ Small k q.y ∧ Small k q.z ∧ Small k q.w

/-- No component is finite. -/
def Broken (q : Quat Float32) : Prop :=
  q.x.isFinite = false ∧ q.y.isFinite = false ∧ q.z.isFinite = false ∧ q.w.isFinite = false

/-- The components are finite, and their squares add up to one or nearly so. -/
structure IsUnit (q : Quat Float32) : Prop where
  finite : q.x.isFinite = true ∧ q.y.isFinite = true ∧ q.z.isFinite = true ∧ q.w.isFinite = true
  length : |toReal q.x ^ 2 + toReal q.y ^ 2 + toReal q.z ^ 2 + toReal q.w ^ 2 - 1| ≤ 1 / 2 ^ 20

theorem Within.mono {j k : ℕ} {q : Quat Float32} (h : q.Within j) (hjk : j ≤ k) : q.Within k :=
  ⟨h.1.mono hjk, h.2.1.mono hjk, h.2.2.1.mono hjk, h.2.2.2.mono hjk⟩

theorem IsUnit.within {q : Quat Float32} (h : q.IsUnit) : q.Within 1 := by
  have hsum := (abs_le.mp h.length).2
  have hcomponent : ∀ c rest : ℝ, 0 ≤ rest → c ^ 2 + rest ≤ 1 + 1 / 2 ^ 20 → |c| ≤ 2 ^ 1 := by
    intro c rest hrest hle
    refine abs_le_of_sq_le_sq (by nlinarith) (by norm_num)
  have hx := sq_nonneg (toReal q.x)
  have hy := sq_nonneg (toReal q.y)
  have hz := sq_nonneg (toReal q.z)
  have hw := sq_nonneg (toReal q.w)
  refine ⟨⟨h.finite.1, ?_⟩, ⟨h.finite.2.1, ?_⟩, ⟨h.finite.2.2.1, ?_⟩, ⟨h.finite.2.2.2, ?_⟩⟩
  · exact hcomponent _ (toReal q.y ^ 2 + toReal q.z ^ 2 + toReal q.w ^ 2) (by positivity) (by linarith)
  · exact hcomponent _ (toReal q.x ^ 2 + toReal q.z ^ 2 + toReal q.w ^ 2) (by positivity) (by linarith)
  · exact hcomponent _ (toReal q.x ^ 2 + toReal q.y ^ 2 + toReal q.w ^ 2) (by positivity) (by linarith)
  · exact hcomponent _ (toReal q.x ^ 2 + toReal q.y ^ 2 + toReal q.z ^ 2) (by positivity) (by linarith)

/-! ## Products by components -/

section Dot

variable {a b q : Quat Float32} {k : ℕ}

theorem small_dot (ha : a.Within k) (hb : b.Within k) (hk : k ≤ 60) : Small (k + k + 2) (a.dot b) := by
  have hx := ha.1.mul hb.1 (by omega)
  have hy := ha.2.1.mul hb.2.1 (by omega)
  have hz := ha.2.2.1.mul hb.2.2.1 (by omega)
  have hw := ha.2.2.2.mul hb.2.2.2 (by omega)
  exact (hx.add hz (by omega)).add (hy.add hw (by omega)) (by omega)

/-- The product with itself is not below the square of any component. -/
theorem squares_le_dot (hq : q.Within k) (hk : k ≤ 60) : toReal (q.x * q.x) ≤ toReal (q.dot q) ∧
    toReal (q.y * q.y) ≤ toReal (q.dot q) ∧ toReal (q.z * q.z) ≤ toReal (q.dot q) ∧ toReal (q.w * q.w) ≤ toReal (q.dot q) := by
  obtain ⟨hx, hy, hz, hw⟩ := hq
  have sx := hx.mul hx (by omega)
  have sy := hy.mul hy (by omega)
  have sz := hz.mul hz (by omega)
  have sw := hw.mul hw (by omega)
  have nx := toReal_mul_self_nonneg hx hk
  have ny := toReal_mul_self_nonneg hy hk
  have nz := toReal_mul_self_nonneg hz hk
  have nw := toReal_mul_self_nonneg hw hk
  -- each square in its pair, and each pair in the whole
  have x1 := le_toReal_add sx sz (by omega) nz
  have z1 := le_toReal_add_right sx sz (by omega) nx
  have y1 := le_toReal_add sy sw (by omega) nw
  have w1 := le_toReal_add_right sy sw (by omega) ny
  have hleft : toReal (q.x * q.x + q.z * q.z) ≤ toReal (q.dot q) :=
    le_toReal_add (sx.add sz (by omega)) (sy.add sw (by omega)) (by omega) (by linarith)
  have hrest : toReal (q.y * q.y + q.w * q.w) ≤ toReal (q.dot q) :=
    le_toReal_add_right (sx.add sz (by omega)) (sy.add sw (by omega)) (by omega) (by linarith)
  exact ⟨by linarith, by linarith, by linarith, by linarith⟩

/-- A product that is not small has a component that contributes, under either sign. -/
theorem exists_product_gt {σ : ℝ} (hσ : σ = 1 ∨ σ = -1) (ha : a.Within 1) (hb : b.Within 1)
    (h : 1 / 2 < σ * toReal (a.dot b)) : 1 / 8 < σ * (toReal a.x * toReal b.x) ∨ 1 / 8 < σ * (toReal a.y * toReal b.y) ∨
      1 / 8 < σ * (toReal a.z * toReal b.z) ∨ 1 / 8 < σ * (toReal a.w * toReal b.w) := by
  by_contra hno
  push Not at hno
  obtain ⟨hx, hy, hz, hw⟩ := hno
  have hproduct : ∀ {u v : Float32}, Small 1 u → Small 1 v → σ * (toReal u * toReal v) ≤ 1 / 8 →
      (u * v).isFinite = true ∧ -2 ^ 2 ≤ σ * toReal (u * v) ∧ σ * toReal (u * v) ≤ 1 / 2 ^ 3 := by
    intro u v hu hv hle
    have habs : |toReal u * toReal v| ≤ 2 ^ 2 := by
      rw [abs_mul]
      nlinarith [hu.2, hv.2, abs_nonneg (toReal u), abs_nonneg (toReal v)]
    refine (rounded_mul hu.1 hv.1).between_of_sign hσ (mark_two_pow (by norm_num)).neg (mark_inv_two_pow (by norm_num)) ?_ ?_
    · rcases hσ with rfl | rfl <;> linarith [(abs_le.mp habs).1, (abs_le.mp habs).2]
    · linarith
  have px := hproduct ha.1 hb.1 hx
  have py := hproduct ha.2.1 hb.2.1 hy
  have pz := hproduct ha.2.2.1 hb.2.2.1 hz
  have pw := hproduct ha.2.2.2 hb.2.2.2 hw
  have hxz := (rounded_add px.1 pz.1).between_of_sign hσ (mark_two_pow (k := 3) (by norm_num)).neg
    (mark_inv_two_pow (j := 2) (by norm_num)) (by linarith) (by linarith)
  have hyw := (rounded_add py.1 pw.1).between_of_sign hσ (mark_two_pow (k := 3) (by norm_num)).neg
    (mark_inv_two_pow (j := 2) (by norm_num)) (by linarith) (by linarith)
  have hall := (rounded_add hxz.1 hyw.1).between_of_sign hσ (mark_two_pow (k := 4) (by norm_num)).neg
    (mark_inv_two_pow (j := 1) (by norm_num)) (by linarith) (by linarith)
  have hle : σ * toReal (a.dot b) ≤ 1 / 2 ^ 1 := hall.2.2
  linarith

end Dot

/-! ## Bringing to length one -/

section Normalize

variable {q : Quat Float32} {k : ℕ}

/-- What has a length is brought to one of ordinary size. -/
theorem within_normalize (hq : q.Within k) (hk : k ≤ 60) (h : 0 < q.dot q) : q.normalize.Within 2 := by
  have hdot := small_dot hq hq hk
  have hpos : 0 < toReal (q.dot q) := (pos_iff hdot.1).mp h
  obtain ⟨hx, hy, hz, hw⟩ := squares_le_dot hq hk
  have hd := hdot.mono (by omega : k + k + 2 ≤ 127)
  exact ⟨small_div_sqrt hq.1 hk hd hpos hx, small_div_sqrt hq.2.1 hk hd hpos hy, small_div_sqrt hq.2.2.1 hk hd hpos hz,
    small_div_sqrt hq.2.2.2 hk hd hpos hw⟩

/-- What has no length is divided by zero. -/
theorem broken_normalize (hq : q.Within k) (hk : k ≤ 60) (h : ¬ 0 < q.dot q) : q.normalize.Broken := by
  have hdot := small_dot hq hq hk
  rw [pos_iff hdot.1, not_lt] at h
  have hzero : toReal (q.dot q) = 0 :=
    le_antisymm h ((toReal_mul_self_nonneg hq.1 hk).trans (squares_le_dot hq hk).1)
  obtain ⟨s, hs⟩ : ∃ s, parts (q.dot q) = .zero s := by
    rcases isFinite_iff.mp hdot.1 with ⟨s, hs⟩ | ⟨s, m, e, hm, hs⟩
    · exact ⟨s, hs⟩
    · rw [toReal, hs] at hzero
      exact absurd hzero (value_ne_zero s m e hm)
  have hsqrt := parts_sqrt_zero hs
  exact ⟨isFinite_div_zero _ hsqrt, isFinite_div_zero _ hsqrt, isFinite_div_zero _ hsqrt, isFinite_div_zero _ hsqrt⟩

end Normalize

/-! ## Along the chord -/

section Chord

variable {a b : Quat Float32} {s : Float32}

/-- Of a share and what is left of it, one is at least a half. -/
theorem half_le_share (hs : Between 0 1 s) : Between (1 / 2) 1 s ∨ Between (1 / 2) 1 (1 - s) := by
  rcases le_total (1 / 2) (toReal s) with hle | hle
  · exact Or.inl ⟨hs.1, hle, hs.2.2⟩
  · have hmark : Mark (1 / 2) := mark_of_eq 1 1 (by norm_num) (by norm_num) (by norm_num)
    refine Or.inr ((rounded_sub isFinite_one hs.1).between hmark mark_one ?_ ?_)
    · rw [toReal_one]
      linarith
    · rw [toReal_one]
      linarith [hs.2.1]

/-- A share of a component that is not small, under the component's sign. -/
theorem share_of_component {σ c : ℝ} {z r : Float32} (hσ : σ = 1 ∨ σ = -1) (hz : Small 1 z) (hσz : 1 / 16 ≤ σ * toReal z)
    (hr : Between c 1 r) (hc : 0 ≤ c) (hmark : Mark (c / 16)) :
    (z * r).isFinite = true ∧ c / 16 ≤ σ * toReal (z * r) ∧ σ * toReal (z * r) ≤ 2 := by
  obtain ⟨hz1, hz2⟩ := abs_le.mp hz.2
  have hz3 : σ * toReal z ≤ 2 := by rcases hσ with rfl | rfl <;> linarith
  have hr0 := hc.trans hr.2.1
  refine (rounded_mul hz.1 hr.1).between_of_sign hσ hmark (mark_of_eq 2 0 (by norm_num) (by norm_num) (by norm_num)) ?_ ?_
  · rw [← mul_assoc]
    nlinarith [mul_le_mul hσz hr.2.1 hc (by linarith : 0 ≤ σ * toReal z)]
  · rw [← mul_assoc]
    nlinarith [mul_le_mul hz3 hr.2.2 hr0 (by norm_num : (0 : ℝ) ≤ 2)]

/-- Two components that contribute under one sign are blended to one that is not small. -/
theorem le_abs_blend {x y : Float32} (hx : Small 1 x) (hy : Small 1 y) (hs : Between 0 1 s)
    (h : 1 / 8 < toReal x * toReal y) : 1 / 32 ≤ |toReal (x * (1 - s) + y * s)| := by
  obtain ⟨hx1, hx2⟩ := abs_le.mp hx.2
  obtain ⟨hy1, hy2⟩ := abs_le.mp hy.2
  -- both are away from zero, on the same side
  obtain ⟨σ, hσ, hσx, hσy⟩ : ∃ σ : ℝ, (σ = 1 ∨ σ = -1) ∧ 1 / 16 ≤ σ * toReal x ∧ 1 / 16 ≤ σ * toReal y := by
    rcases le_total 0 (toReal x) with h0 | h0
    · exact ⟨1, Or.inl rfl, by nlinarith, by nlinarith⟩
    · exact ⟨-1, Or.inr rfl, by nlinarith, by nlinarith⟩
  have h32 : Mark (1 / 2 / 16) := mark_of_eq 1 5 (by norm_num) (by norm_num) (by norm_num)
  have h0 : Mark (0 / 16) := mark_of_eq 0 0 (by norm_num) (by norm_num) (by norm_num)
  have h4 : Mark 4 := mark_of_eq 4 0 (by norm_num) (by norm_num) (by norm_num)
  have hsum : 1 / 32 ≤ σ * toReal (x * (1 - s) + y * s) := by
    rcases half_le_share hs with hhalf | hhalf
    · have p1 := share_of_component hσ hx hσx hs.one_sub le_rfl h0
      have p2 := share_of_component hσ hy hσy hhalf (by norm_num) h32
      have hall := (rounded_add p1.1 p2.1).between_of_sign hσ h32 h4 (by linarith) (by linarith)
      linarith [hall.2.1]
    · have p1 := share_of_component hσ hx hσx hhalf (by norm_num) h32
      have p2 := share_of_component hσ hy hσy hs le_rfl h0
      have hall := (rounded_add p1.1 p2.1).between_of_sign hσ h32 h4 (by linarith) (by linarith)
      linarith [hall.2.1]
  rcases hσ with rfl | rfl
  · rw [one_mul] at hsum
    exact hsum.trans (le_abs_self _)
  · rw [neg_one_mul] at hsum
    exact hsum.trans (neg_le_abs _)

theorem small_blend {x y : Float32} (hx : Small 1 x) (hy : Small 1 y) (hs : Between 0 1 s) :
    Small 2 (x * (1 - s) + y * s) := by
  have h1 : Small 0 (1 - s) := (hs.one_sub).small (by norm_num) (by norm_num)
  have h2 : Small 0 s := hs.small (by norm_num) (by norm_num)
  exact (hx.mul h1 (by norm_num)).add (hy.mul h2 (by norm_num)) (by norm_num)

/-- The chord between rotations with a component in common does not come near the origin. -/
theorem chord_pos (ha : a.Within 1) (hb : b.Within 1) (hs : Between 0 1 s)
    (h : 1 / 8 < toReal a.x * toReal b.x ∨ 1 / 8 < toReal a.y * toReal b.y ∨ 1 / 8 < toReal a.z * toReal b.z ∨
      1 / 8 < toReal a.w * toReal b.w) :
    (a * (1 - s) + b * s).Within 2 ∧ 0 < (a * (1 - s) + b * s).dot (a * (1 - s) + b * s) := by
  obtain ⟨q, hq⟩ : ∃ q, q = a * (1 - s) + b * s := ⟨_, rfl⟩
  have hwithin : q.Within 2 := by
    rw [hq]
    exact ⟨small_blend ha.1 hb.1 hs, small_blend ha.2.1 hb.2.1 hs, small_blend ha.2.2.1 hb.2.2.1 hs,
      small_blend ha.2.2.2 hb.2.2.2 hs⟩
  obtain ⟨dx, dy, dz, dw⟩ := squares_le_dot hwithin (by norm_num)
  -- the square of the component in common is in the sum
  have hsquare : ∀ {c : Float32}, Small 2 c → 1 / 32 ≤ |toReal c| → toReal (c * c) ≤ toReal (q.dot q) →
      0 < toReal (q.dot q) := by
    intro c hc habs hle
    have hc2 : 1 / 2 ^ 10 ≤ toReal c * toReal c := by
      rw [← abs_mul_abs_self]
      nlinarith
    have hc16 : toReal c * toReal c ≤ 2 ^ 4 := by
      rw [← abs_mul_abs_self]
      nlinarith [hc.2, abs_nonneg (toReal c)]
    have hmul := (rounded_mul hc.1 hc.1).between (mark_inv_two_pow (j := 10) (by norm_num)) (mark_two_pow (by norm_num)) hc2 hc16
    have hpos : (0 : ℝ) < 1 / 2 ^ 10 := by positivity
    linarith [hmul.2.1]
  have hdot : 0 < toReal (q.dot q) := by
    rcases h with h | h | h | h
    · exact hsquare hwithin.1 (by rw [hq]; exact le_abs_blend ha.1 hb.1 hs h) dx
    · exact hsquare hwithin.2.1 (by rw [hq]; exact le_abs_blend ha.2.1 hb.2.1 hs h) dy
    · exact hsquare hwithin.2.2.1 (by rw [hq]; exact le_abs_blend ha.2.2.1 hb.2.2.1 hs h) dz
    · exact hsquare hwithin.2.2.2 (by rw [hq]; exact le_abs_blend ha.2.2.2 hb.2.2.2 hs h) dw
  rw [← hq]
  exact ⟨hwithin, (pos_iff (small_dot hwithin hwithin (by norm_num)).1).mpr hdot⟩

end Chord

/-! ## Along the arc -/

section Arc

variable {a b : Quat Float32} {s c : Float32}

theorem toReal_nearCosine : (nearCosine : Float32).isFinite = true ∧ toReal nearCosine = 8388607 / 2 ^ 23 := by
  obtain ⟨hfin, hval⟩ := toReal_of_scaled (x := nearCosine) (k := 8388607) 23 (by decide +kernel)
  exact ⟨hfin, by rw [hval, Int.cast_ofNat]⟩

/-- Between rotations that are not near, the arc is of ordinary size. -/
theorem within_arc (ha : a.Within 1) (hb : b.Within 1) (hs : Between 0 1 s) (hc : Between 0 (8388607 / 2 ^ 23) c) :
    ((a * sine (arccos c * (1 - s)) + b * sine (arccos c * s)) / sine (arccos c)).Within 16 := by
  have hangle := between_arccos hc
  have hangle0 : Between 0 quarter (arccos c) := hangle.mono (by positivity) le_rfl
  have hzero : Mark (0 / 2) := mark_of_eq 0 0 (by norm_num) (by norm_num) (by norm_num)
  have hpart : ∀ {r : Float32}, Between 0 1 r → Small 1 (sine (arccos c * r)) := by
    intro r hr
    have hshare : Between 0 quarter (arccos c * r) :=
      hangle0.mul hr le_rfl le_rfl mark_zero mark_quarter (by norm_num) (by rw [mul_one])
    exact (between_sine le_rfl hzero hshare).small (by norm_num) (by norm_num)
  have hwhole : Between (1 / 2 ^ 12 / 2) 2 (sine (arccos c)) :=
    between_sine (by positivity) (mark_of_eq 1 13 (by norm_num) (by norm_num) (by norm_num)) hangle
  have hleft := hpart (hs.one_sub)
  have hright := hpart hs
  have hcomponent : ∀ {x y : Float32}, Small 1 x → Small 1 y →
      Small 16 ((x * sine (arccos c * (1 - s)) + y * sine (arccos c * s)) / sine (arccos c)) := by
    intro x y hx hy
    have hsum := (hx.mul hleft (by norm_num)).add (hy.mul hright (by norm_num)) (by norm_num)
    refine hsum.div (j := 13) hwhole.1 (le_trans ?_ hwhole.2.1) (by norm_num)
    norm_num
  exact ⟨hcomponent ha.1 hb.1, hcomponent ha.2.1 hb.2.1, hcomponent ha.2.2.1 hb.2.2.1, hcomponent ha.2.2.2 hb.2.2.2⟩

/-- The two ways of getting from one rotation to another that is not opposed to it. -/
theorem within_chord_or_arc (ha : a.Within 1) (hb : b.Within 1) (hs : Between 0 1 s) (hfin : c.isFinite = true)
    (h0 : 0 ≤ toReal c) (hnear : 1 / 2 < toReal c → 1 / 8 < toReal a.x * toReal b.x ∨
      1 / 8 < toReal a.y * toReal b.y ∨ 1 / 8 < toReal a.z * toReal b.z ∨ 1 / 8 < toReal a.w * toReal b.w) :
    (if nearCosine < c then (a * (1 - s) + b * s).normalize
      else (a * sine (arccos c * (1 - s)) + b * sine (arccos c * s)) / sine (arccos c)).Within 16 := by
  obtain ⟨hn1, hn2⟩ := toReal_nearCosine
  have hlt : nearCosine < c ↔ 8388607 / 2 ^ 23 < toReal c := by rw [lt_iff hn1 hfin, hn2]
  split_ifs with h
  · rw [hlt] at h
    obtain ⟨hwithin, hdot⟩ := chord_pos ha hb hs (hnear (lt_trans (by norm_num) h))
    exact (within_normalize hwithin (by norm_num) hdot).mono (by norm_num)
  · rw [hlt, not_lt] at h
    exact within_arc ha hb hs ⟨hfin, h0, h⟩

/-- The way between rotations of length one is of ordinary size throughout. -/
theorem within_slerp (ha : a.Within 1) (hb : b.Within 1) (hs : Between 0 1 s) : (slerp a b s).Within 16 := by
  have hdot := small_dot ha hb (by norm_num)
  have hlt : a.dot b < 0 ↔ toReal (a.dot b) < 0 := by rw [lt_iff hdot.1 isFinite_zero, toReal_zero]
  by_cases hopposed : a.dot b < 0
  · have hneg := hlt.mp hopposed
    have hx := hb.1.opposite
    have hy := hb.2.1.opposite
    have hz := hb.2.2.1.opposite
    have hw := hb.2.2.2.opposite
    have hflip : (b * (-1 : Float32)).Within 1 := ⟨hx.1, hy.1, hz.1, hw.1⟩
    have htail := within_chord_or_arc (c := -(a.dot b)) ha hflip hs (by rw [neg_isFinite]; exact hdot.1)
      (by rw [toReal_neg]; linarith) (by
        intro h
        rw [toReal_neg] at h
        have hprod := exists_product_gt (Or.inr rfl) ha hb (by linarith)
        show 1 / 8 < toReal a.x * toReal (b.x * -1) ∨ 1 / 8 < toReal a.y * toReal (b.y * -1) ∨
          1 / 8 < toReal a.z * toReal (b.z * -1) ∨ 1 / 8 < toReal a.w * toReal (b.w * -1)
        rw [hx.2, hy.2, hz.2, hw.2]
        simpa only [mul_neg, neg_one_mul] using hprod)
    unfold slerp
    simp only [if_pos hopposed]
    exact htail
  · have hnonneg := not_lt.mp (mt hlt.mpr hopposed)
    have htail := within_chord_or_arc (c := a.dot b) ha hb hs hdot.1 hnonneg (by
      intro h
      simpa only [one_mul] using exists_product_gt (Or.inl rfl) ha hb (by linarith))
    unfold slerp
    simp only [if_neg hopposed]
    exact htail

end Arc

end Quat

end Gait
