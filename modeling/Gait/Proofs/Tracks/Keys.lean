import Gait.Proofs.Features.Distances
import Gait.Proofs.Tracks.Brackets

/-!
# The values at the keys

A track of positions goes through its keys and stays at its ends. The last key has its own value; at any other key the sample is
a blend with the next key at no share of the way, so the key's value is multiplied by one and added to products with zero. That
gives the value again, up to the sign of a zero. Before the first key the share is brought up to none, and a key at most a
millionth of a second before the next one has no share but that.
-/

namespace Gait

open Binary32

/-! ## Blends at no share of the way -/

section Blends

variable {a b out into s dt x time start stop : Float32}

/-- What is at most zero is brought to zero, up to its sign. -/
theorem clamp_of_le_zero (h : x ≤ 0) : Exactly 0 (Scalar.clamp x 0 1) := by
  have hbetween := (Scalar.clamp_cases x).resolve_left fun hnan => (not_isNaN_of_le h).1 hnan.1
  by_cases hneg : x < 0
  · have hclamp : Scalar.clamp x 0 1 = 0 := if_pos hneg
    rw [hclamp]
    exact exactly_zero
  · have hone : ¬1 < x := by
      intro hlt
      have hle : (1 : Float32) ≤ 0 := IsTrans.trans _ _ _ (Binary32.le_of_lt hlt) h
      rw [le_iff isFinite_one isFinite_zero, toReal_one, toReal_zero] at hle
      exact absurd hle (by norm_num)
    have hclamp : Scalar.clamp x 0 1 = x := (if_neg hneg).trans (if_neg hone)
    rw [hclamp] at hbetween ⊢
    rw [le_iff hbetween.1 isFinite_zero, toReal_zero] at h
    exact ⟨hbetween.1, le_antisymm h hbetween.2.1⟩

/-- A time at or before a key has gone none of the way from it to the next one. -/
theorem Track.progress_of_le (h : time ≤ start) (hdt : (stop - start).isFinite = true) :
    Exactly 0 (Track.progress start stop time) := by
  unfold Track.progress
  simp only
  split_ifs with hapart
  · exact clamp_of_le_zero (div_le_zero (sub_le_zero h (isFinite_of_sub hdt).2) hdt (Track.pos_of_micro_lt hdt hapart))
  · exact exactly_zero

/-- The weights of a cubic where it starts. -/
theorem hermite_of_zero (hs : Exactly 0 s) : Exactly 1 (Hermite.at s).start ∧ Exactly 0 (Hermite.at s).leaving ∧
    Exactly 0 (Hermite.at s).stop ∧ Exactly 0 (Hermite.at s).reaching := by
  have h2 : Exactly 0 (s * s) := Exactly.mul_of_zero hs.1 hs
  have h3 : Exactly 0 (s * s * s) := Exactly.mul_of_zero h2.1 hs
  have htwo : (-Float32.ofNat 2).isFinite = true := by decide +kernel
  have hthree : (Float32.ofNat 3).isFinite = true := by decide +kernel
  have hstop : Exactly 0 (-Float32.ofNat 2 * (s * s * s) + Float32.ofNat 3 * (s * s)) :=
    (Exactly.mul_of_zero htwo h3).add_of_zero (Exactly.mul_of_zero hthree h2)
  have hreaching : Exactly 0 (s * s * s - s * s) := h3.sub_of_zero h2
  exact ⟨exactly_one.sub_of_zero hstop, (hreaching.sub_of_zero h2).add_of_zero hs, hstop, hreaching⟩

/-- One component of the straight way. -/
theorem exactly_lerp (ha : a.isFinite = true) (hb : b.isFinite = true) (hs : Exactly 0 s) :
    Exactly (toReal a) (a * (1 - s) + b * s) :=
  (Exactly.mul_of_one ⟨ha, rfl⟩ (exactly_one.sub_of_zero hs)).add_of_zero (Exactly.mul_of_zero hb hs)

/-- One component of a cubic. -/
theorem exactly_cubic (ha : a.isFinite = true) (hout : out.isFinite = true) (hinto : into.isFinite = true)
    (hb : b.isFinite = true) (hdt : dt.isFinite = true) (hs : Exactly 0 s) :
    Exactly (toReal a) (a * (Hermite.at s).start + out * (dt * (Hermite.at s).leaving) + b * (Hermite.at s).stop +
      into * (dt * (Hermite.at s).reaching)) := by
  obtain ⟨hstart, hleaving, hstop, hreaching⟩ := hermite_of_zero hs
  have h1 : Exactly (toReal a) (a * (Hermite.at s).start) := Exactly.mul_of_one ⟨ha, rfl⟩ hstart
  have h2 := h1.add_of_zero (Exactly.mul_of_zero hout (Exactly.mul_of_zero hdt hleaving))
  have h3 := h2.add_of_zero (Exactly.mul_of_zero hb hstop)
  exact h3.add_of_zero (Exactly.mul_of_zero hinto (Exactly.mul_of_zero hdt hreaching))

end Blends

namespace Vec3

variable {a b out into u v : Vec3 Float32} {s dt : Float32}

/-- The components compare as equal: they are the same, up to the sign of a zero. -/
def Equals (u v : Vec3 Float32) : Prop := (u.x == v.x) = true ∧ (u.y == v.y) = true ∧ (u.z == v.z) = true

/-- Vectors of the same finite values are equal. -/
theorem equals_of_exactly (hv : v.IsFinite) (hx : Exactly (toReal v.x) u.x) (hy : Exactly (toReal v.y) u.y)
    (hz : Exactly (toReal v.z) u.z) : u.Equals v :=
  ⟨(beq_iff hx.1 hv.1).mpr hx.2, (beq_iff hy.1 hv.2.1).mpr hy.2, (beq_iff hz.1 hv.2.2).mpr hz.2⟩

theorem equals_self (hv : v.IsFinite) : v.Equals v := equals_of_exactly hv ⟨hv.1, rfl⟩ ⟨hv.2.1, rfl⟩ ⟨hv.2.2, rfl⟩

theorem equals_linear (ha : a.IsFinite) (hb : b.IsFinite) (hs : Exactly 0 s) : (Blend.linear a b s).Equals a :=
  equals_of_exactly ha (exactly_lerp ha.1 hb.1 hs) (exactly_lerp ha.2.1 hb.2.1 hs) (exactly_lerp ha.2.2 hb.2.2 hs)

theorem equals_cubic (ha : a.IsFinite) (hout : out.IsFinite) (hinto : into.IsFinite) (hb : b.IsFinite)
    (hdt : dt.isFinite = true) (hs : Exactly 0 s) : (Blend.cubic a out into b s dt).Equals a :=
  equals_of_exactly ha (exactly_cubic ha.1 hout.1 hinto.1 hb.1 hdt hs)
    (exactly_cubic ha.2.1 hout.2.1 hinto.2.1 hb.2.1 hdt hs) (exactly_cubic ha.2.2 hout.2.2 hinto.2.2 hb.2.2 hdt hs)

end Vec3

/-! ## Tracks of positions -/

namespace Track

variable {t : Track (Vec3 Float32) Float32} {time key s dt : Float32} {v : Vec3 Float32} {i j : ℕ}

/-- A track of positions with finite keys at ascending times, none too far from the next one, and finite values for all keys. -/
structure Regular (t : Track (Vec3 Float32) Float32) : Prop where
  finite : ∀ key ∈ t.times, key.isFinite = true
  ascending : t.times.Pairwise (· < ·)
  near : t.times.IsChain fun start stop => (stop - start).isFinite = true
  covered : t.Covered
  values : ∀ v ∈ t.values.take t.slotCount, v.IsFinite

/-- A time that is not before a key, but not after it either, reaches this key last; the first key may be after it. -/
theorem lastReached_of_le {times : List Float32} (hascending : times.Pairwise (· < ·)) (hkey : times[i]? = some key)
    (hle : time ≤ key) (hreached : i ≠ 0 → key ≤ time) : lastReached times time = i := by
  rw [lastReached_eq_iff]
  refine ⟨fun hne => ⟨key, hkey, hreached hne⟩, ?_⟩
  rintro k hk ⟨later, hlater, hbefore⟩
  obtain ⟨hi, rfl⟩ := List.getElem?_eq_some_iff.1 hkey
  obtain ⟨hk', rfl⟩ := List.getElem?_eq_some_iff.1 hlater
  exact Binary32.not_le_of_lt (List.pairwise_iff_getElem.1 hascending i k hi hk' hk) (IsTrans.trans _ _ _ hbefore hle)

/-- A time that is not before the last key reaches it last. -/
theorem lastReached_of_last_le {times : List Float32} (hlast : times.getLast? = some key) (hle : key ≤ time) :
    lastReached times time = times.length - 1 := by
  rw [List.getLast?_eq_getElem?] at hlast
  rw [lastReached_eq_iff]
  refine ⟨fun _ => ⟨key, hlast, hle⟩, ?_⟩
  intro k hk hreached
  have hlt := hreached.lt_length
  omega

theorem Regular.sorted (h : t.Regular) : t.times.Pairwise (· ≤ ·) := h.ascending.imp Binary32.le_of_lt

theorem Regular.isFinite_sub (h : t.Regular) {start stop : Float32} (hstart : t.times[i]? = some start)
    (hstop : t.times[i + 1]? = some stop) : (stop - start).isFinite = true := by
  obtain ⟨hi, rfl⟩ := List.getElem?_eq_some_iff.1 hstart
  obtain ⟨hnext, rfl⟩ := List.getElem?_eq_some_iff.1 hstop
  exact List.isChain_iff_getElem.1 h.near i hnext

/-- The values of a key are finite. -/
theorem Regular.isFinite_value (h : t.Regular) (hi : i < t.times.length) (hj : j ∈ t.keySlots i) (hv : t.values[j]? = some v) :
    v.IsFinite := by
  refine h.values v (List.mem_iff_getElem?.2 ⟨j, ?_⟩)
  rw [List.getElem?_take_of_lt (lt_slotCount hi hj), hv]

/-- The way from a key to the next one starts at the key's value. -/
theorem Regular.equals_of_blends (h : t.Regular) (hi : i + 1 < t.times.length) (hs : Exactly 0 s) (hdt : dt.isFinite = true)
    {u : Vec3 Float32} (hu : t.Blends i s dt u) (hv : t.value? i = some v) : u.Equals v := by
  have hlt : i < t.times.length := Nat.lt_of_succ_lt hi
  have hfinite : v.IsFinite := h.isFinite_value hlt (t.valueSlot_mem_keySlots i) hv
  unfold Blends at hu
  cases hblending : t.blending with
  | step =>
    simp only [hblending, hv, Option.some.injEq] at hu
    exact hu ▸ Vec3.equals_self hfinite
  | linear =>
    simp only [hblending] at hu
    obtain ⟨a, b, ha, hb, rfl⟩ := hu
    obtain rfl : v = a := Option.some.inj (hv.symm.trans ha)
    exact Vec3.equals_linear hfinite (h.isFinite_value hi (t.valueSlot_mem_keySlots _) hb) hs
  | cubic =>
    simp only [hblending] at hu
    obtain ⟨a, out, into, b, ha, hout, hinto, hb, rfl⟩ := hu
    obtain rfl : v = a := Option.some.inj (hv.symm.trans ha)
    exact Vec3.equals_cubic hfinite (h.isFinite_value hlt (by simp [keySlots, hblending]) hout)
      (h.isFinite_value hi (by simp [keySlots, hblending]) hinto)
      (h.isFinite_value hi (t.valueSlot_mem_keySlots _) hb) hdt hs

/-- The track has a sample at the time, and it is equal to the value of the key. -/
def Hits (t : Track (Vec3 Float32) Float32) (time : Float32) (i : ℕ) : Prop :=
  ∃ v u, t.value? i = some v ∧ t.sample time = some u ∧ u.Equals v

/-- The key that a time reaches last, without being after it, is hit. -/
theorem Regular.hits_of_le (h : t.Regular) (hkey : t.times[i]? = some key) (hle : time ≤ key)
    (hlast : lastReached t.times time = i) : t.Hits time i := by
  have hbracket : t.bracket time = i := (bracket_eq_lastReached t h.sorted time).trans hlast
  have hi : i < t.times.length := (List.getElem?_eq_some_iff.1 hkey).1
  obtain ⟨v, hv⟩ := h.covered.value? hi
  rcases Nat.lt_or_eq_of_le (Nat.succ_le_of_lt hi) with hnext | hend
  · obtain ⟨stop, hstop⟩ := exists_key hnext
    have hdt := h.isFinite_sub hkey hstop
    obtain ⟨u, hu, hbetween⟩ := h.covered.between hnext (progress key stop time) (stop - key)
    refine ⟨v, u, hv, ?_, h.equals_of_blends hnext (progress_of_le hle hdt) hdt hu hv⟩
    subst hbracket
    rw [sample_eq_between hkey hstop, hbetween]
  · have hkeys : t.times ≠ [] := List.ne_nil_of_length_pos (Nat.zero_lt_of_lt hi)
    refine ⟨v, v, hv, ?_, Vec3.equals_self (h.isFinite_value hi (t.valueSlot_mem_keySlots i) hv)⟩
    subst hbracket
    rw [sample_eq_value? hkeys hend, hv]

/-- A track of positions goes through all its keys. It stays at the first key before it, and at the last key after it. -/
theorem hits_keys_and_holds_ends (t : Track (Vec3 Float32) Float32) (h : t.Regular) :
    (∀ i key, t.times[i]? = some key → t.Hits key i) ∧
      (∀ first time, t.times.head? = some first → time ≤ first → t.Hits time 0) ∧
      (∀ last time, t.times.getLast? = some last → last ≤ time →
        ∃ v, t.value? (t.times.length - 1) = some v ∧ t.sample time = some v) := by
  refine ⟨?_, ?_, ?_⟩
  · intro i key hkey
    have hrefl : key ≤ key := by
      have hfinite := h.finite key (List.mem_of_getElem? hkey)
      rw [le_iff hfinite hfinite]
    exact h.hits_of_le hkey hrefl (lastReached_of_le h.ascending hkey hrefl fun _ => hrefl)
  · intro first time hfirst hle
    rw [List.head?_eq_getElem?] at hfirst
    exact h.hits_of_le hfirst hle (lastReached_of_le h.ascending hfirst hle fun hne => absurd rfl hne)
  · intro last time hlast hle
    have hkeys : t.times ≠ [] := List.ne_nil_of_mem (List.mem_of_getLast? hlast)
    have hpos : 0 < t.times.length := List.length_pos_iff.2 hkeys
    have hbracket : t.bracket time = t.times.length - 1 :=
      (bracket_eq_lastReached t h.sorted time).trans (lastReached_of_last_le hlast hle)
    obtain ⟨v, hv⟩ := h.covered.value? (Nat.sub_one_lt hpos.ne')
    refine ⟨v, hv, ?_⟩
    rw [sample_eq_value? hkeys (by omega), hbracket, hv]

/-- A cubic to the right and back, which leaves and reaches its keys at full speed. -/
def swing : Track (Vec3 Float32) Float32 :=
  ⟨[0, 1, 2], [Vec3.front, Vec3.zero, Vec3.front, Vec3.front, Vec3.right, Vec3.front, Vec3.front, Vec3.zero, Vec3.front], .cubic⟩

/-- A cubic is hit in the middle and held at its ends, also at infinite times. -/
theorem hits_keys_and_holds_ends_swing : swing.Regular ∧ swing.Hits 1 1 ∧ swing.Hits (-1 / 0) 0 ∧
    swing.sample (1 / 0) = some Vec3.zero := by
  have h : swing.Regular :=
    { finite := by decide +kernel
      ascending := by decide +kernel
      near := by decide +kernel
      covered := le_refl _
      values := by decide +kernel }
  obtain ⟨hkeys, hfirst, hlast⟩ := hits_keys_and_holds_ends swing h
  obtain ⟨v, hv, hsample⟩ := hlast 2 (1 / 0) rfl (by decide +kernel)
  obtain rfl : Vec3.zero = v := Option.some.inj hv
  exact ⟨h, hkeys 1 1 rfl, hfirst 0 (-1 / 0) rfl (by decide +kernel), hsample⟩

end Track

end Gait
