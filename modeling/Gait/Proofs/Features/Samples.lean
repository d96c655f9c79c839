import Gait.Clip.Keyframed
import Gait.Proofs.Binary32.Extended
import Gait.Proofs.Features.Rotations

/-!
# Samples of a keyframed clip

Where a clip with ordinary keys puts a joint at a time. The position is of ordinary size, or the one that the joint is bound at.
The rotation is of ordinary size, unless the cubic that it follows has no length at that time.
-/

namespace Gait

open Binary32

namespace Vec3

/-- Every component is finite and of a magnitude of at most `2 ^ k`. -/
def Within (k : ℕ) (v : Vec3 Float32) : Prop := Small k v.x ∧ Small k v.y ∧ Small k v.z

theorem Within.mono {j k : ℕ} {v : Vec3 Float32} (h : v.Within j) (hjk : j ≤ k) : v.Within k :=
  ⟨h.1.mono hjk, h.2.1.mono hjk, h.2.2.mono hjk⟩

end Vec3

/-! ## Blends -/

section Blends

variable {t start stop time a b out into dt : Float32}

/-- A number brought between zero and one is there, unless it is none. -/
theorem Scalar.clamp_cases (x : Float32) :
    IsNaN x ∧ IsNaN (Scalar.clamp x 0 1) ∨ Between 0 1 (Scalar.clamp x 0 1) := by
  show IsNaN x ∧ IsNaN (if x < 0 then 0 else if 1 < x then 1 else x) ∨ Between 0 1 (if x < 0 then 0 else if 1 < x then 1 else x)
  by_cases h0 : x < 0
  · rw [if_pos h0]
    exact Or.inr between_zero
  by_cases h1 : 1 < x
  · rw [if_neg h0, if_pos h1]
    exact Or.inr between_one
  rw [if_neg h0, if_neg h1]
  cases hx : x.isFinite with
  | true =>
    rw [lt_iff hx isFinite_zero, toReal_zero, not_lt] at h0
    rw [lt_iff isFinite_one hx, toReal_one, not_lt] at h1
    exact Or.inr ⟨hx, h0, h1⟩
  | false =>
    -- an infinite number is beyond one of the ends
    left
    have hfin : (parts x).isFinite = false := hx
    cases hp : parts x with
    | notANumber => exact ⟨hp, hp⟩
    | infinity s =>
      cases s with
      | positive => exact absurd (lt_of_parts_infinity isFinite_one hp) h1
      | negative => exact absurd (lt_of_parts_neg_infinity isFinite_zero hp) h0
    | _ => rw [hp] at hfin; cases hfin

/-- Keys that count as two are apart. -/
theorem Track.pos_of_micro_lt (hdt : dt.isFinite = true) (h : Scalar.ofDecimal 1 6 < dt) : 0 < dt := by
  have hmicro : (Scalar.ofDecimal 1 6 : Float32).isFinite = true := by decide +kernel
  have hpos : (0 : Float32) < Scalar.ofDecimal 1 6 := by decide +kernel
  rw [lt_iff isFinite_zero hmicro] at hpos
  rw [lt_iff hmicro hdt] at h
  rw [lt_iff isFinite_zero hdt]
  exact hpos.trans h

/-- Between keys that are finitely far apart every time has gone a share of the way. -/
theorem between_progress_of_isFinite (htime : ¬IsNaN time) (hdt : (stop - start).isFinite = true) :
    Between 0 1 (Track.progress start stop time) := by
  unfold Track.progress
  simp only
  split_ifs with hapart
  · have hgone : ¬IsNaN ((time - start) / (stop - start)) :=
      not_isNaN_div (not_isNaN_sub htime (isFinite_of_sub hdt).2) hdt (Track.pos_of_micro_lt hdt hapart)
    exact (Scalar.clamp_cases _).resolve_left fun h => hgone h.1
  · exact between_zero

/-- The share of the way that is gone lies between none and all of it. -/
theorem between_progress (hstart : Small 20 start) (hstop : Small 20 stop) (htime : Small 40 time) :
    Between 0 1 (Track.progress start stop time) :=
  between_progress_of_isFinite (not_isNaN_of_isFinite htime.1) (hstop.sub hstart (by norm_num)).1

/-- The weights of a cubic are of ordinary size. -/
theorem small_hermite (ht : Between 0 1 t) : Small 4 (Hermite.at t).start ∧ Small 3 (Hermite.at t).leaving ∧
    Small 3 (Hermite.at t).stop ∧ Small 1 (Hermite.at t).reaching := by
  have h1 : Small 0 t := ht.small (by norm_num) (by norm_num)
  have h2 : Small 0 (t * t) := h1.mul h1 (by norm_num)
  have h3 : Small 0 (t * t * t) := h2.mul h1 (by norm_num)
  have hone : Small 0 (Float32.ofNat 1) := small_ofNat (by norm_num) (by norm_num)
  have htwo : Small 1 (Float32.ofNat 2) := small_ofNat (by norm_num) (by norm_num)
  have hthree : Small 2 (Float32.ofNat 3) := small_ofNat (by norm_num) (by norm_num)
  have hstop : Small 3 (-Float32.ofNat 2 * (t * t * t) + Float32.ofNat 3 * (t * t)) :=
    ((htwo.neg.mul h3 (by norm_num)).mono (by norm_num)).add (hthree.mul h2 (by norm_num)) (by norm_num)
  have hreaching : Small 1 (t * t * t - t * t) := h3.sub h2 (by norm_num)
  have hleaving : Small 3 (t * t * t - t * t - t * t + t) :=
    (hreaching.sub (h2.mono (by norm_num)) (by norm_num)).add (h1.mono (by norm_num)) (by norm_num)
  exact ⟨(hone.mono (by norm_num)).sub hstop (by norm_num), hleaving, hstop, hreaching⟩

/-- One component of a cubic. -/
theorem small_cubic (ha : Small 20 a) (hout : Small 20 out) (hinto : Small 20 into) (hb : Small 20 b) (hdt : Small 21 dt)
    (ht : Between 0 1 t) : Small 47 (a * (Hermite.at t).start + out * (dt * (Hermite.at t).leaving) +
      b * (Hermite.at t).stop + into * (dt * (Hermite.at t).reaching)) := by
  obtain ⟨hstart, hleaving, hstop, hreaching⟩ := small_hermite ht
  have h1 : Small 44 (a * (Hermite.at t).start) := (ha.mul hstart (by norm_num)).mono (by norm_num)
  have h2 : Small 44 (out * (dt * (Hermite.at t).leaving)) := hout.mul (hdt.mul hleaving (by norm_num)) (by norm_num)
  have h3 : Small 45 (b * (Hermite.at t).stop) := (hb.mul hstop (by norm_num)).mono (by norm_num)
  have h4 : Small 46 (into * (dt * (Hermite.at t).reaching)) :=
    (hinto.mul (hdt.mul hreaching (by norm_num)) (by norm_num)).mono (by norm_num)
  exact ((h1.add h2 (by norm_num)).add h3 (by norm_num)).add h4 (by norm_num)

theorem small_lerp {k : ℕ} (ha : Small k a) (hb : Small k b) (ht : Between 0 1 t) (hk : k + 1 ≤ 127) :
    Small (k + 1) (a * (1 - t) + b * t) := by
  have hrest : Small 0 (1 - t) := ht.one_sub.small (by norm_num) (by norm_num)
  have hshare : Small 0 t := ht.small (by norm_num) (by norm_num)
  exact (ha.mul hrest (by omega)).add (hb.mul hshare (by omega)) hk

/-- A straight way between two places goes no further than twice as far out. -/
theorem Vec3.Within.lerp {k : ℕ} {v w : Vec3 Float32} (hv : v.Within k) (hw : w.Within k) (ht : Between 0 1 t)
    (hk : k + 1 ≤ 127) : (v.lerp w t).Within (k + 1) := by
  obtain ⟨vx, vy, vz⟩ := hv
  obtain ⟨wx, wy, wz⟩ := hw
  exact ⟨small_lerp vx wx ht hk, small_lerp vy wy ht hk, small_lerp vz wz ht hk⟩

/-- A cubic through two ordinary places is of ordinary size. -/
theorem Vec3.Within.cubic {v out into w : Vec3 Float32} (hv : v.Within 20) (hout : out.Within 20) (hinto : into.Within 20)
    (hw : w.Within 20) (hdt : Small 21 dt) (ht : Between 0 1 t) : (Blend.cubic v out into w t dt).Within 47 := by
  obtain ⟨vx, vy, vz⟩ := hv
  obtain ⟨ox, oy, oz⟩ := hout
  obtain ⟨ix, iy, iz⟩ := hinto
  obtain ⟨wx, wy, wz⟩ := hw
  exact ⟨small_cubic vx ox ix wx hdt ht, small_cubic vy oy iy wy hdt ht, small_cubic vz oz iz wz hdt ht⟩

end Blends

/-- The cubic through two rotations, not yet brought to length one. -/
def Quat.cubicPoint {α : Type} [Scalar α] (a out into b : Quat α) (t dt : α) : Quat α :=
  let h := Hermite.at t
  a * h.start + out * (dt * h.leaving) + b * h.stop + into * (dt * h.reaching)

/-- A cubic through two rotations is of ordinary size as long as it is not brought to length one. -/
theorem Quat.Within.cubicPoint {p out into q : Quat Float32} {t dt : Float32} (hp : p.Within 20) (hout : out.Within 20)
    (hinto : into.Within 20) (hq : q.Within 20) (hdt : Small 21 dt) (ht : Between 0 1 t) :
    (Quat.cubicPoint p out into q t dt).Within 47 := by
  obtain ⟨px, py, pz, pw⟩ := hp
  obtain ⟨ox, oy, oz, ow⟩ := hout
  obtain ⟨ix, iy, iz, iw⟩ := hinto
  obtain ⟨qx, qy, qz, qw⟩ := hq
  exact ⟨small_cubic px ox ix qx hdt ht, small_cubic py oy iy qy hdt ht, small_cubic pz oz iz qz hdt ht,
    small_cubic pw ow iw qw hdt ht⟩

/-! ## Tracks -/

namespace Track

/-- A track gives the value of a key or a blend of two neighbours. -/
theorem sample_cases {V : Type} [Blend V Float32] {t : Track V Float32} {time : Float32} {v : V}
    (h : t.sample time = some v) :
    (∃ i, i < t.times.length ∧ t.value? i = some v) ∨
      ∃ start stop, t.times[t.bracket time]? = some start ∧ t.times[t.bracket time + 1]? = some stop ∧
        t.between (t.bracket time) (progress start stop time) (stop - start) = some v := by
  unfold sample at h
  by_cases hempty : t.isEmpty = true
  · rw [if_pos hempty] at h
    cases h
  · rw [if_neg hempty] at h
    have hlength : 0 < t.times.length := by
      rw [isEmpty, List.isEmpty_iff] at hempty
      exact List.length_pos_iff.mpr hempty
    cases h1 : t.times[t.bracket time]? with
    | none =>
      simp only [h1] at h
      exact Or.inl ⟨_, Nat.sub_one_lt hlength.ne', h⟩
    | some start =>
      cases h2 : t.times[t.bracket time + 1]? with
      | none =>
        simp only [h1, h2] at h
        exact Or.inl ⟨_, Nat.sub_one_lt hlength.ne', h⟩
      | some stop =>
        simp only [h1, h2] at h
        exact Or.inr ⟨start, stop, rfl, rfl, h⟩

/-! ## Tracks without a sample -/

section Missing

variable {V α : Type} [Scalar α] [Blend V α]

/-- The places of the values that the way from the key `i` to the next one is made of. -/
def slotsBetween (t : Track V α) (i : Nat) : List Nat :=
  match t.blending with
  | .step => [i]
  | .linear => [i, i + 1]
  | .cubic => [3 * i + 1, 3 * i + 2, 3 * (i + 1), 3 * (i + 1) + 1]

/-- The places of the values that a sample at a time is made of. -/
def slots (t : Track V α) (time : α) : List Nat :=
  if t.bracket time + 1 < t.times.length then t.slotsBetween (t.bracket time) else [t.valueSlot (t.times.length - 1)]

omit [Scalar α] in
/-- The way between two keys is missing exactly if a value is that it is made of. -/
theorem between_eq_none_iff (t : Track V α) (i : Nat) (s dt : α) :
    t.between i s dt = none ↔ ∃ j ∈ t.slotsBetween i, t.values.length ≤ j := by
  have hmissing : ∀ j, t.values.length ≤ j ↔ t.values[j]? = none := fun j => List.getElem?_eq_none_iff.symm
  simp only [hmissing, between, slotsBetween]
  cases hblending : t.blending with
  | step => simp [value?, valueSlot, hblending]
  | linear =>
    simp only [value?, valueSlot, hblending, List.mem_cons, List.not_mem_nil, or_false, exists_eq_or_imp, exists_eq_left]
    generalize t.values[i]? = a
    generalize t.values[i + 1]? = b
    cases a <;> cases b <;> simp
  | cubic =>
    simp only [List.mem_cons, List.not_mem_nil, or_false, exists_eq_or_imp, exists_eq_left]
    generalize t.values[3 * i + 1]? = a
    generalize t.values[3 * i + 2]? = out
    generalize t.values[3 * (i + 1)]? = into
    generalize t.values[3 * (i + 1) + 1]? = b
    cases a <;> cases out <;> cases into <;> cases b <;> simp

/-- A track gives no sample exactly if it has no keys, or a value is missing that the sample is made of. -/
theorem sample_eq_none_iff (t : Track V α) (time : α) :
    t.sample time = none ↔ t.isEmpty = true ∨ ∃ j ∈ t.slots time, t.values.length ≤ j := by
  unfold sample slots
  by_cases hempty : t.isEmpty = true
  · simp [hempty]
  · rw [if_neg hempty, or_iff_right hempty]
    by_cases hnext : t.bracket time + 1 < t.times.length
    · have h1 : t.times[t.bracket time]? = some t.times[t.bracket time] := List.getElem?_eq_getElem (by omega)
      have h2 : t.times[t.bracket time + 1]? = some t.times[t.bracket time + 1] := List.getElem?_eq_getElem hnext
      simp only [h1, h2, if_pos hnext, between_eq_none_iff]
    · have h2 : t.times[t.bracket time + 1]? = none := List.getElem?_eq_none (by omega)
      have hlast : t.value? (t.times.length - 1) = none ↔ t.values.length ≤ t.valueSlot (t.times.length - 1) :=
        List.getElem?_eq_none_iff
      simp only [h2, if_neg hnext, List.mem_singleton, exists_eq_left]
      cases t.times[t.bracket time]? with
      | none => exact hlast
      | some start => exact hlast

end Missing

/-! ## Tracks of positions -/

/-- The keys of a track of positions are at ordinary times and places; the times need not be sorted. -/
structure OrdinaryPositions (t : Track (Vec3 Float32) Float32) : Prop where
  times : ∀ x ∈ t.times, Small 20 x
  values : ∀ v ∈ t.values, v.Within 20

/-- What a track of positions gives is of ordinary size. -/
theorem OrdinaryPositions.within_sample {t : Track (Vec3 Float32) Float32} (h : t.OrdinaryPositions) {time : Float32}
    (htime : Small 40 time) {v : Vec3 Float32} (hs : t.sample time = some v) : v.Within 47 := by
  have hvalue : ∀ {i : ℕ} {u : Vec3 Float32}, t.values[i]? = some u → u.Within 20 := fun hu => h.values _ (List.mem_of_getElem? hu)
  rcases sample_cases hs with ⟨i, -, hi⟩ | ⟨start, stop, hstart, hstop, hb⟩
  · exact (hvalue hi).mono (by norm_num)
  · have h1 := h.times _ (List.mem_of_getElem? hstart)
    have h2 := h.times _ (List.mem_of_getElem? hstop)
    have hshare := between_progress h1 h2 htime
    unfold between at hb
    cases hblending : t.blending with
    | step =>
      simp only [hblending] at hb
      exact (hvalue hb).mono (by norm_num)
    | linear =>
      simp only [hblending, Option.bind_eq_bind, Option.bind_eq_some_iff, Option.pure_def, Option.some.injEq] at hb
      obtain ⟨a, ha, b, hb, rfl⟩ := hb
      have hlerp : (Vec3.lerp a b _).Within 21 := (hvalue ha).lerp (hvalue hb) hshare (by norm_num)
      exact hlerp.mono (by norm_num)
    | cubic =>
      simp only [hblending, Option.bind_eq_bind, Option.bind_eq_some_iff, Option.pure_def, Option.some.injEq] at hb
      obtain ⟨a, ha, out, hout, into, hinto, b, hb, rfl⟩ := hb
      have hdt := h2.sub h1 (by norm_num)
      exact (hvalue ha).cubic (hvalue hout) (hvalue hinto) (hvalue hb) hdt hshare

/-! ## Tracks of rotations -/

/-- The keys of a track of rotations are at ordinary times and of length one, and their tangents are of ordinary size. -/
structure OrdinaryRotations (t : Track (Quat Float32) Float32) : Prop where
  times : ∀ x ∈ t.times, Small 20 x
  keys : ∀ i q, i < t.times.length → t.value? i = some q → q.IsUnit
  tangents : t.blending = .cubic → ∀ q ∈ t.values, q.Within 20

/-- The point on the cubic that a track of rotations follows at a time, not yet brought to length one, if it follows one. -/
def cubicPoint? {α : Type} [Scalar α] (t : Track (Quat α) α) (time : α) : Option (Quat α) :=
  match t.blending with
  | .cubic => do
    let i := t.bracket time
    let start ← t.times[i]?
    let stop ← t.times[i + 1]?
    let a ← t.values[3 * i + 1]?
    let out ← t.values[3 * i + 2]?
    let into ← t.values[3 * (i + 1)]?
    let b ← t.values[3 * (i + 1) + 1]?
    return Quat.cubicPoint a out into b (progress start stop time) (stop - start)
  | _ => none

/-- At the time the track follows a cubic that has no length there, so that no rotation is in its direction. -/
def Vanishes (t : Track (Quat Float32) Float32) (time : Float32) : Prop :=
  ∃ q, t.cubicPoint? time = some q ∧ ¬ 0 < q.dot q

instance (t : Track (Quat Float32) Float32) (time : Float32) : Decidable (t.Vanishes time) :=
  decidable_of_iff ((t.cubicPoint? time).any (fun q => !decide (0 < q.dot q)) = true)
    (by simp only [Vanishes, Option.any_eq_true, Bool.not_eq_true', decide_eq_false_iff_not])

/-- Where a track follows a cubic, it gives the cubic's point brought to length one. -/
theorem sample_of_cubicPoint {α : Type} [Scalar α] {t : Track (Quat α) α} {time : α} {q : Quat α}
    (h : t.cubicPoint? time = some q) : t.sample time = some q.normalize := by
  unfold cubicPoint? at h
  cases hblending : t.blending with
  | cubic =>
    simp only [hblending, Option.bind_eq_bind, Option.bind_eq_some_iff, Option.pure_def, Option.some.injEq] at h
    obtain ⟨start, hstart, stop, hstop, a, ha, out, hout, into, hinto, b, hb, rfl⟩ := h
    have hempty : t.isEmpty = false := by
      rw [isEmpty, List.isEmpty_eq_false_iff]
      exact List.ne_nil_of_mem (List.mem_of_getElem? hstart)
    simp only [sample, hempty, hstart, hstop, between, hblending, ha, hout, hinto, hb]
    rfl
  | _ =>
    rw [hblending] at h
    cases h

theorem OrdinaryRotations.within_cubicPoint {t : Track (Quat Float32) Float32} (h : t.OrdinaryRotations) {time : Float32}
    (htime : Small 40 time) {q : Quat Float32} (hq : t.cubicPoint? time = some q) : q.Within 47 := by
  unfold cubicPoint? at hq
  cases hblending : t.blending with
  | cubic =>
    simp only [hblending, Option.bind_eq_bind, Option.bind_eq_some_iff, Option.pure_def, Option.some.injEq] at hq
    obtain ⟨start, hstart, stop, hstop, a, ha, out, hout, into, hinto, b, hb, rfl⟩ := hq
    have hvalue : ∀ {i : ℕ} {u : Quat Float32}, t.values[i]? = some u → u.Within 20 :=
      fun hu => h.tangents hblending _ (List.mem_of_getElem? hu)
    have h1 := h.times _ (List.mem_of_getElem? hstart)
    have h2 := h.times _ (List.mem_of_getElem? hstop)
    have hshare := between_progress h1 h2 htime
    have hdt := h2.sub h1 (by norm_num)
    exact (hvalue ha).cubicPoint (hvalue hout) (hvalue hinto) (hvalue hb) hdt hshare
  | _ =>
    rw [hblending] at hq
    cases hq

/-- Where a track follows no cubic, what it gives is of ordinary size. -/
theorem OrdinaryRotations.within_sample {t : Track (Quat Float32) Float32} (h : t.OrdinaryRotations) {time : Float32}
    (htime : Small 40 time) (hnone : t.cubicPoint? time = none) {q : Quat Float32} (hs : t.sample time = some q) :
    q.Within 16 := by
  have hkey : ∀ {i : ℕ} {u : Quat Float32}, i < t.times.length → t.value? i = some u → u.Within 1 :=
    fun hi hu => (h.keys _ _ hi hu).within
  rcases sample_cases hs with ⟨i, hi, hu⟩ | ⟨start, stop, hstart, hstop, hb⟩
  · exact (hkey hi hu).mono (by norm_num)
  · have hi := (List.getElem?_eq_some_iff.mp hstart).1
    have hj := (List.getElem?_eq_some_iff.mp hstop).1
    unfold between at hb
    cases hblending : t.blending with
    | step =>
      simp only [hblending] at hb
      exact (hkey hi hb).mono (by norm_num)
    | linear =>
      simp only [hblending, Option.bind_eq_bind, Option.bind_eq_some_iff, Option.pure_def, Option.some.injEq] at hb
      obtain ⟨a, ha, b, hb, rfl⟩ := hb
      have hshare := between_progress (h.times _ (List.mem_of_getElem? hstart)) (h.times _ (List.mem_of_getElem? hstop)) htime
      exact Quat.within_slerp (hkey hi ha) (hkey hj hb) hshare
    | cubic =>
      simp only [hblending, Option.bind_eq_bind, Option.bind_eq_some_iff, Option.pure_def, Option.some.injEq] at hb
      obtain ⟨a, ha, out, hout, into, hinto, b, hb, -⟩ := hb
      simp [cubicPoint?, hblending, hstart, hstop, ha, hout, hinto, hb] at hnone

/-- What a track of rotations gives is broken where its cubic vanishes, and of ordinary size elsewhere. -/
theorem OrdinaryRotations.sample {t : Track (Quat Float32) Float32} (h : t.OrdinaryRotations) {time : Float32}
    (htime : Small 40 time) {bound : Quat Float32} (hbound : bound.Within 1) :
    (t.Vanishes time ∧ ((t.sample time).getD bound).Broken) ∨
      (¬ t.Vanishes time ∧ ((t.sample time).getD bound).Within 16) := by
  cases hq : t.cubicPoint? time with
  | some q =>
    have hwithin := h.within_cubicPoint htime hq
    rw [sample_of_cubicPoint hq, Option.getD_some]
    by_cases hdot : 0 < q.dot q
    · refine Or.inr ⟨?_, (Quat.within_normalize hwithin (by norm_num) hdot).mono (by norm_num)⟩
      rintro ⟨q', hq', hno⟩
      rw [hq] at hq'
      cases hq'
      exact hno hdot
    · exact Or.inl ⟨⟨q, hq, hdot⟩, Quat.broken_normalize hwithin (by norm_num) hdot⟩
  | none =>
    refine Or.inr ⟨?_, ?_⟩
    · rintro ⟨q, hq', -⟩
      rw [hq] at hq'
      cases hq'
    · cases hs : t.sample time with
      | none => exact hbound.mono (by norm_num)
      | some q => exact h.within_sample htime hq hs

end Track

/-! ## Clips -/

/-- The joint is bound at a finite position and with a rotation of length one. -/
structure Transform.Ordinary (t : Transform Float32) : Prop where
  position : t.position.x.isFinite = true ∧ t.position.y.isFinite = true ∧ t.position.z.isFinite = true
  rotation : t.rotation.IsUnit

/-- The actor is bound in an ordinary pose. -/
def Actor.Ordinary (actor : Actor Float32) : Prop := ∀ t ∈ actor.bindPose, t.Ordinary

/-- A quaternion on the real axis is of length one if its real part is. -/
theorem Quat.isUnit_real {w : Float32} (hw : w.isFinite = true) (h : toReal w ^ 2 = 1) : (⟨0, 0, 0, w⟩ : Quat Float32).IsUnit := by
  refine ⟨⟨isFinite_zero, isFinite_zero, isFinite_zero, hw⟩, ?_⟩
  show |toReal 0 ^ 2 + toReal 0 ^ 2 + toReal 0 ^ 2 + toReal w ^ 2 - 1| ≤ 1 / 2 ^ 20
  rw [toReal_zero, h]
  norm_num

theorem Transform.ordinary_identity : (identity : Transform Float32).Ordinary :=
  ⟨⟨isFinite_zero, isFinite_zero, isFinite_zero⟩, Quat.isUnit_real isFinite_one (by rw [toReal_one, one_pow])⟩

theorem Actor.Ordinary.bindTransform {actor : Actor Float32} (h : actor.Ordinary) (joint : ℕ) :
    (actor.bindTransform joint).Ordinary := by
  unfold Actor.bindTransform
  cases hj : actor.bindPose[joint]? with
  | none => exact Transform.ordinary_identity
  | some t => exact h t (Array.mem_of_getElem? hj)

/-- The keys of the clip are ordinary, and it is neither very short nor very long. -/
structure KeyframedClip.Ordinary (c : KeyframedClip Float32) : Prop where
  duration : Between (1 / 2 ^ 10) (2 ^ 20) c.duration
  positions : ∀ t ∈ c.tracks, t.positions.OrdinaryPositions
  rotations : ∀ t ∈ c.tracks, t.rotations.OrdinaryRotations

/-- The rotation that the clip gives a joint of an actor vanishes at a time. -/
def KeyframedClip.Vanishes (c : KeyframedClip Float32) (actor : Actor Float32) (joint : ℕ) (time : Float32) : Prop :=
  ∃ t, (actor.skeleton.joint? joint).bind (fun j => c.track? j.name) = some t ∧ t.rotations.Vanishes time

instance (c : KeyframedClip Float32) (actor : Actor Float32) (joint : ℕ) (time : Float32) :
    Decidable (c.Vanishes actor joint time) :=
  decidable_of_iff (((actor.skeleton.joint? joint).bind (fun j => c.track? j.name)).any
      (fun t => decide (t.rotations.Vanishes time)) = true)
    (by simp only [KeyframedClip.Vanishes, Option.any_eq_true, decide_eq_true_eq])

/-- Without retargeting a track's own bind pose does not matter. -/
theorem JointTrack.pose_false {α : Type} [Scalar α] (t : JointTrack α) (bound : Transform α) (time : α) :
    t.pose bound time false =
      ⟨(t.positions.sample time).getD bound.position, (t.rotations.sample time).getD bound.rotation⟩ := by
  unfold JointTrack.pose
  cases t.bind <;> rfl

section Pose

variable {c : KeyframedClip Float32} {actor : Actor Float32} {time : Float32}

/-- A joint is at an ordinary position, or where it is bound. -/
theorem KeyframedClip.Ordinary.position (hc : c.Ordinary) (joint : ℕ) (htime : Small 40 time) :
    (c.pose actor joint time false).position.Within 47 ∨
      (c.pose actor joint time false).position = (actor.bindTransform joint).position := by
  unfold KeyframedClip.pose
  cases ht : (actor.skeleton.joint? joint).bind (fun j => c.track? j.name) with
  | none => exact Or.inr rfl
  | some t =>
    obtain ⟨j, -, hfind⟩ := Option.bind_eq_some_iff.mp ht
    have hmem : t ∈ c.tracks := List.mem_of_find?_eq_some hfind
    simp only [JointTrack.pose_false]
    cases hs : t.positions.sample time with
    | none => exact Or.inr rfl
    | some v => exact Or.inl ((hc.positions t hmem).within_sample htime hs)

/-- A joint has a broken rotation where the clip's vanishes, and an ordinary one elsewhere. -/
theorem KeyframedClip.Ordinary.rotation (hc : c.Ordinary) (ha : actor.Ordinary) (joint : ℕ) (htime : Small 40 time) :
    (c.Vanishes actor joint time ∧ (c.pose actor joint time false).rotation.Broken) ∨
      (¬ c.Vanishes actor joint time ∧ (c.pose actor joint time false).rotation.Within 16) := by
  have hbound : (actor.bindTransform joint).rotation.Within 1 := (ha.bindTransform joint).rotation.within
  unfold KeyframedClip.pose KeyframedClip.Vanishes
  cases ht : (actor.skeleton.joint? joint).bind (fun j => c.track? j.name) with
  | none =>
    refine Or.inr ⟨?_, hbound.mono (by norm_num)⟩
    rintro ⟨t, ht', -⟩
    cases ht'
  | some t =>
    obtain ⟨j, -, hfind⟩ := Option.bind_eq_some_iff.mp ht
    have hmem : t ∈ c.tracks := List.mem_of_find?_eq_some hfind
    simp only [JointTrack.pose_false, Option.some.injEq, exists_eq_left']
    exact (hc.rotations t hmem).sample htime hbound

end Pose

end Gait
