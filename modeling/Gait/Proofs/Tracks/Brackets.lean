import Mathlib
import Gait.Proofs.Features.Samples

/-!
# The keys around a time

A track looks for the key that it goes on from among keys that are promised to be sorted, and in equal times there may be several
of them. What it finds is the last key that is not later than the time, or the first key if all are later, and that is what both
looking at one key after the other and halving find (`bracket_eq_lastReached`, `countReached_sub_one`). A sample is made of this
key and the next one alone (`sample_congr`); `sample_brackets` says what it is then, for all times but those that are none.
-/

namespace Gait

open Binary32

namespace Track

variable {V α : Type}

/-! ## The last key that is reached -/

section Reached

variable {times : List α} {time key : α} {base size i k n : ℕ}

theorem exists_key (hi : i < times.length) : ∃ key, times[i]? = some key := ⟨_, List.getElem?_eq_getElem hi⟩

variable [Scalar α]

/-- There is a key with this number, and it is at or before the time. -/
def Reached (times : List α) (time : α) (i : ℕ) : Prop := ∃ key ∈ times[i]?, key ≤ time

instance : DecidablePred (Reached times time) := fun i => inferInstanceAs (Decidable (∃ key ∈ times[i]?, key ≤ time))

/-- The number of the last key at or before a time, or zero if there is none. -/
def lastReached (times : List α) (time : α) : ℕ := Nat.findGreatest (Reached times time) times.length

theorem reached_iff (h : times[i]? = some key) : Reached times time i ↔ key ≤ time := by
  simp [Reached, h]

theorem Reached.lt_length (h : Reached times time i) : i < times.length := by
  obtain ⟨key, hkey, -⟩ := h
  exact (List.getElem?_eq_some_iff.1 hkey).1

theorem lastReached_eq_iff :
    lastReached times time = i ↔ (i ≠ 0 → Reached times time i) ∧ ∀ k, i < k → ¬Reached times time k := by
  rw [lastReached, Nat.findGreatest_eq_iff]
  constructor
  · rintro ⟨-, hreached, hlater⟩
    exact ⟨hreached, fun k hk h => hlater hk h.lt_length.le h⟩
  · rintro ⟨hreached, hlater⟩
    refine ⟨?_, hreached, fun k hk _ => hlater k hk⟩
    rcases Nat.eq_zero_or_pos i with rfl | hpos
    · exact Nat.zero_le _
    · exact (hreached hpos.ne').lt_length.le

/-- Where the first `n` keys are reached and no others, the last of them is the last. -/
theorem lastReached_of_reached_iff (h : ∀ k, Reached times time k ↔ k < n) : lastReached times time = n - 1 := by
  rw [lastReached_eq_iff]
  constructor
  · intro hne
    rw [h]
    omega
  · intro k hk
    rw [h]
    omega

/-- The reached keys of a sorted track are those before the first that is not. -/
theorem reached_iff_lt_findIdx [IsTrans α (· ≤ ·)] (hsorted : times.Pairwise (· ≤ ·)) :
    Reached times time i ↔ i < times.findIdx fun key => !decide (key ≤ time) := by
  constructor
  · rintro ⟨key, hkey, hle⟩
    obtain ⟨hi, rfl⟩ := List.getElem?_eq_some_iff.1 hkey
    by_contra hge
    have hfirst : times.findIdx (fun key => !decide (key ≤ time)) ≤ i := Nat.le_of_not_lt hge
    have hlater := List.findIdx_getElem (w := Nat.lt_of_le_of_lt hfirst hi)
    rw [Bool.not_eq_true', decide_eq_false_iff_not] at hlater
    rcases Nat.lt_or_eq_of_le hfirst with hlt | heq
    · exact hlater (IsTrans.trans _ _ _ (List.pairwise_iff_getElem.1 hsorted _ _ _ hi hlt) hle)
    · simp only [heq] at hlater
      exact hlater hle
  · intro hlt
    have hi : i < times.length := hlt.trans_le List.findIdx_le_length
    have hle := List.not_of_lt_findIdx hlt
    rw [Bool.not_eq_false', decide_eq_true_eq] at hle
    exact ⟨_, List.getElem?_eq_getElem hi, hle⟩

/-- How many keys are reached, found by halving: it is at least `base` and at most `size` more, and while that leaves more than
one key open, the key in the middle rules out a half of them. -/
def countReached (times : List α) (time : α) (base size : ℕ) : ℕ :=
  if size ≤ 1 then
    if 0 < size ∧ Reached times time base then base + 1 else base
  else
    countReached times time (if Reached times time (base + size / 2) then base + size / 2 else base) (size - size / 2)
termination_by size

/-- What is open holds the answer from the first to the last halving. -/
theorem countReached_eq (h : ∀ k, Reached times time k ↔ k < n) (hlow : base ≤ n) (hhigh : n ≤ base + size) :
    countReached times time base size = n := by
  fun_induction countReached times time base size with
  | case1 base size hsize hreached =>
    rw [h] at hreached
    omega
  | case2 base size hsize hreached =>
    rw [h] at hreached
    omega
  | case3 base size hsize ih =>
    apply ih
    · split_ifs with hreached
      · rw [h] at hreached
        omega
      · exact hlow
    · split_ifs with hreached
      · omega
      · rw [h] at hreached
        omega

/-- The key from which a sorted track goes on is the last that is reached, and halving finds it too. -/
theorem bracket_eq_lastReached [IsTrans α (· ≤ ·)] (t : Track V α) (hsorted : t.times.Pairwise (· ≤ ·)) (time : α) :
    t.bracket time = lastReached t.times time :=
  (lastReached_of_reached_iff fun _ => reached_iff_lt_findIdx hsorted).symm

theorem countReached_sub_one [IsTrans α (· ≤ ·)] (hsorted : times.Pairwise (· ≤ ·)) (time : α) :
    countReached times time 0 times.length - 1 = lastReached times time := by
  have hiff : ∀ k, Reached times time k ↔ k < times.findIdx fun key => !decide (key ≤ time) :=
    fun k => reached_iff_lt_findIdx hsorted
  have hhigh : times.findIdx (fun key => !decide (key ≤ time)) ≤ 0 + times.length := by
    rw [Nat.zero_add]
    exact List.findIdx_le_length
  rw [countReached_eq hiff (Nat.zero_le _) hhigh, lastReached_of_reached_iff hiff]

end Reached

/-! ## The values of the keys -/

section Values

variable {t t' : Track V α} {i j : ℕ}

/-- The places of the values of a key: of a cubic the velocity it is reached with, its value and the velocity it is left with. -/
def keySlots (t : Track V α) (i : ℕ) : List ℕ :=
  match t.blending with
  | .cubic => [3 * i, 3 * i + 1, 3 * i + 2]
  | _ => [i]

/-- The number of values that the keys have. -/
def slotCount (t : Track V α) : ℕ :=
  match t.blending with
  | .cubic => 3 * t.times.length
  | _ => t.times.length

/-- There are values for all keys. -/
def Covered (t : Track V α) : Prop := t.slotCount ≤ t.values.length

/-- The velocity that a key of a cubic is reached with, if it is there. -/
def reaching? (t : Track V α) (i : ℕ) : Option V := t.values[3 * i]?

/-- The velocity that a key of a cubic is left with, if it is there. -/
def leaving? (t : Track V α) (i : ℕ) : Option V := t.values[3 * i + 2]?

/-- The value is one that the way from the key `i` to the next one, `dt` seconds later, has at the share `s`. -/
def Blends [Blend V α] (t : Track V α) (i : ℕ) (s dt : α) (v : V) : Prop :=
  match t.blending with
  | .step => t.value? i = some v
  | .linear => ∃ a b, t.value? i = some a ∧ t.value? (i + 1) = some b ∧ v = Blend.linear a b s
  | .cubic => ∃ a out into b, t.value? i = some a ∧ t.leaving? i = some out ∧ t.reaching? (i + 1) = some into ∧
      t.value? (i + 1) = some b ∧ v = Blend.cubic a out into b s dt

theorem lt_slotCount (hi : i < t.times.length) (hj : j ∈ t.keySlots i) : j < t.slotCount := by
  unfold keySlots at hj
  unfold slotCount
  cases hblending : t.blending <;> simp only [hblending, List.mem_cons, List.not_mem_nil, or_false] at hj ⊢ <;> omega

/-- The keys of a covered track have all their values. -/
theorem Covered.getElem? (h : t.Covered) (hi : i < t.times.length) (hj : j ∈ t.keySlots i) : ∃ v, t.values[j]? = some v :=
  ⟨_, List.getElem?_eq_getElem ((lt_slotCount hi hj).trans_le h)⟩

theorem valueSlot_mem_keySlots (t : Track V α) (i : ℕ) : t.valueSlot i ∈ t.keySlots i := by
  unfold valueSlot keySlots
  cases t.blending <;> simp

theorem Covered.value? (h : t.Covered) (hi : i < t.times.length) : ∃ v, t.value? i = some v :=
  h.getElem? hi (t.valueSlot_mem_keySlots i)

/-- The values between two keys belong to these two. -/
theorem mem_keySlots_of_mem_slotsBetween (h : j ∈ t.slotsBetween i) : j ∈ t.keySlots i ∨ j ∈ t.keySlots (i + 1) := by
  unfold slotsBetween at h
  unfold keySlots
  cases hblending : t.blending <;> simp only [hblending, List.mem_cons, List.not_mem_nil, or_false] at h ⊢ <;> omega

variable [Blend V α]

/-- A way is made of the values in its places alone. -/
theorem between_congr (hblending : t'.blending = t.blending) (hvalues : ∀ j ∈ t.slotsBetween i, t'.values[j]? = t.values[j]?)
    (s dt : α) : t'.between i s dt = t.between i s dt := by
  unfold slotsBetween at hvalues
  unfold between value? valueSlot
  cases h : t.blending <;>
    simp_all only [List.mem_cons, List.not_mem_nil, or_false, forall_eq_or_imp, forall_eq]

/-- Two keys that have all their values have a way between them. -/
theorem Covered.between (h : t.Covered) (hi : i + 1 < t.times.length) (s dt : α) :
    ∃ v, t.Blends i s dt v ∧ t.between i s dt = some v := by
  obtain ⟨a, ha⟩ := h.value? (Nat.lt_of_succ_lt hi)
  obtain ⟨b, hb⟩ := h.value? hi
  unfold Blends Track.between
  cases hblending : t.blending with
  | step => exact ⟨a, ha, ha⟩
  | linear =>
    refine ⟨_, ⟨a, b, ha, hb, rfl⟩, ?_⟩
    simp only [ha, hb]
    rfl
  | cubic =>
    obtain ⟨out, hout⟩ : ∃ out, t.leaving? i = some out := h.getElem? (Nat.lt_of_succ_lt hi) (by simp [keySlots, hblending])
    obtain ⟨into, hinto⟩ : ∃ into, t.reaching? (i + 1) = some into := h.getElem? hi (by simp [keySlots, hblending])
    refine ⟨_, ⟨a, out, into, b, ha, hout, hinto, hb, rfl⟩, ?_⟩
    rw [Track.value?, valueSlot, hblending] at ha hb
    rw [leaving?] at hout
    rw [reaching?] at hinto
    simp only [ha, hout, hinto, hb]
    rfl

end Values

/-! ## Samples by the last key reached -/

section Samples

variable [Scalar α] {t t' : Track V α} {time start stop : α} {j : ℕ}

theorem bracket_lt_length (hkeys : t.times ≠ []) (time : α) : t.bracket time < t.times.length := by
  have hpos : 0 < t.times.length := List.length_pos_iff.2 hkeys
  have hle : t.times.findIdx (fun key => !decide (key ≤ time)) ≤ t.times.length := List.findIdx_le_length
  unfold bracket
  omega

/-- The values that a sample needs are values of the key that the track goes on from, or of the next one. -/
theorem mem_keySlots_of_mem_slots (hkeys : t.times ≠ []) (h : j ∈ t.slots time) :
    ∃ k, (k = t.bracket time ∨ k = t.bracket time + 1) ∧ k < t.times.length ∧ j ∈ t.keySlots k := by
  have hlt := bracket_lt_length hkeys time
  unfold slots at h
  split_ifs at h with hnext
  · rcases mem_keySlots_of_mem_slotsBetween h with hj | hj
    · exact ⟨_, Or.inl rfl, hlt, hj⟩
    · exact ⟨_, Or.inr rfl, hnext, hj⟩
  · have hlast : t.times.length - 1 = t.bracket time := by omega
    rw [List.mem_singleton, hlast] at h
    exact ⟨_, Or.inl rfl, hlt, h ▸ t.valueSlot_mem_keySlots _⟩

variable [Blend V α]

theorem sample_of_times_eq_nil (h : t.times = []) : t.sample time = none := by
  simp only [sample, isEmpty, h, List.isEmpty_nil, if_true]

/-- A time that the last key is the last reached of has that key's value. -/
theorem sample_eq_value? (hkeys : t.times ≠ []) (hlast : t.bracket time + 1 = t.times.length) :
    t.sample time = t.value? (t.bracket time) := by
  have hempty : t.isEmpty = false := List.isEmpty_eq_false_iff.2 hkeys
  have hnext : t.times[t.bracket time + 1]? = none := List.getElem?_eq_none hlast.ge
  have hpred : t.times.length - 1 = t.bracket time := by omega
  simp only [sample, hempty, Bool.false_eq_true, if_false, hnext, hpred]
  cases t.times[t.bracket time]? <;> rfl

/-- A time with a key to go on from and one to go on to has a blend of the two. -/
theorem sample_eq_between (hstart : t.times[t.bracket time]? = some start) (hstop : t.times[t.bracket time + 1]? = some stop) :
    t.sample time = t.between (t.bracket time) (progress start stop time) (stop - start) := by
  have hempty : t.isEmpty = false := List.isEmpty_eq_false_iff.2 (List.ne_nil_of_mem (List.mem_of_getElem? hstart))
  simp only [sample, hempty, Bool.false_eq_true, if_false, hstart, hstop]

/-- A sample is made of the two keys around its time: their times and those of their values that it needs. -/
theorem sample_congr (hblending : t'.blending = t.blending) (hlength : t'.times.length = t.times.length)
    (hbracket : t'.bracket time = t.bracket time) (hstart : t'.times[t.bracket time]? = t.times[t.bracket time]?)
    (hstop : t'.times[t.bracket time + 1]? = t.times[t.bracket time + 1]?)
    (hvalues : ∀ j ∈ t.slots time, t'.values[j]? = t.values[j]?) : t'.sample time = t.sample time := by
  have hempty : t'.times = [] ↔ t.times = [] := by
    rw [← List.length_eq_zero_iff, hlength, List.length_eq_zero_iff]
  by_cases hkeys : t.times = []
  · rw [sample_of_times_eq_nil hkeys, sample_of_times_eq_nil (hempty.2 hkeys)]
  have hlt := bracket_lt_length hkeys time
  unfold slots at hvalues
  split_ifs at hvalues with hnext
  · obtain ⟨start, h1⟩ := exists_key hlt
    obtain ⟨stop, h2⟩ := exists_key hnext
    rw [h1, ← hbracket] at hstart
    rw [h2, ← hbracket] at hstop
    rw [sample_eq_between h1 h2, sample_eq_between hstart hstop, hbracket, between_congr hblending hvalues]
  · have hlast : t.times.length - 1 = t.bracket time := by omega
    have hslot : t'.valueSlot (t.bracket time) = t.valueSlot (t.bracket time) := by
      rw [valueSlot, valueSlot, hblending]
    rw [sample_eq_value? hkeys (by omega), sample_eq_value? (hempty.not.2 hkeys) (by omega), hbracket, value?, value?, hslot]
    exact hvalues _ (by rw [hlast]; exact List.mem_singleton_self _)

/-- The keys around a time give its sample alone, with their values. -/
theorem sample_congr_of_keys (hblending : t'.blending = t.blending) (hlength : t'.times.length = t.times.length)
    (hbracket : t'.bracket time = t.bracket time)
    (hsame : ∀ k, k = t.bracket time ∨ k = t.bracket time + 1 → k < t.times.length →
      t'.times[k]? = t.times[k]? ∧ ∀ j ∈ t.keySlots k, t'.values[j]? = t.values[j]?) : t'.sample time = t.sample time := by
  by_cases hkeys : t.times = []
  · have hkeys' : t'.times = [] := List.length_eq_zero_iff.1 (hlength.trans (List.length_eq_zero_iff.2 hkeys))
    rw [sample_of_times_eq_nil hkeys, sample_of_times_eq_nil hkeys']
  have hstop : t'.times[t.bracket time + 1]? = t.times[t.bracket time + 1]? := by
    by_cases hnext : t.bracket time + 1 < t.times.length
    · exact (hsame _ (Or.inr rfl) hnext).1
    · rw [List.getElem?_eq_none (by omega), List.getElem?_eq_none (by omega)]
  refine sample_congr hblending hlength hbracket (hsame _ (Or.inl rfl) (bracket_lt_length hkeys time)).1 hstop ?_
  intro j hj
  obtain ⟨k, hk, hlt, hslot⟩ := mem_keySlots_of_mem_slots hkeys hj
  exact (hsame k hk hlt).2 j hslot

end Samples

/-! ## Samples of binary32 tracks -/

section Numbers

variable {V : Type} [Blend V Float32] {time : Float32}

/-- A track with sorted keys and a value for each is worth what a search through all keys finds: without keys nothing, from the
last key on its value, and before that a blend of the last key reached with the next one. Other keys do not matter. -/
theorem sample_brackets (t : Track V Float32) (hcovered : t.Covered) (hsorted : t.times.Pairwise (· ≤ ·)) (htime : ¬IsNaN time)
    {i : ℕ} (hi : lastReached t.times time = i) :
    countReached t.times time 0 t.times.length - 1 = i ∧
      (t.times = [] → t.sample time = none) ∧
      (t.times ≠ [] → i < t.times.length) ∧
      (i + 1 = t.times.length → ∃ v, t.value? i = some v ∧ t.sample time = some v) ∧
      (i + 1 < t.times.length → ∃ start stop share v, t.times[i]? = some start ∧ t.times[i + 1]? = some stop ∧
        (Scalar.ofDecimal 1 6 < stop - start → share = Scalar.clamp ((time - start) / (stop - start)) 0 1) ∧
        (¬Scalar.ofDecimal 1 6 < stop - start → share = 0) ∧
        ((stop - start).isFinite = true → Between 0 1 share) ∧
        t.Blends i share (stop - start) v ∧ t.sample time = some v) ∧
      (∀ t' : Track V Float32, t'.blending = t.blending → t'.times.length = t.times.length → t'.times.Pairwise (· ≤ ·) →
        lastReached t'.times time = i →
        (∀ k, k = i ∨ k = i + 1 → k < t.times.length →
          t'.times[k]? = t.times[k]? ∧ ∀ j ∈ t.keySlots k, t'.values[j]? = t.values[j]?) →
        t'.sample time = t.sample time) := by
  have hbracket : t.bracket time = i := (bracket_eq_lastReached t hsorted time).trans hi
  refine ⟨(countReached_sub_one hsorted time).trans hi, sample_of_times_eq_nil, ?_, ?_, ?_, ?_⟩
  · intro hkeys
    exact hbracket ▸ bracket_lt_length hkeys time
  · intro hlast
    have hkeys : t.times ≠ [] := List.ne_nil_of_length_pos (by omega)
    obtain ⟨v, hv⟩ := hcovered.value? (by omega : i < t.times.length)
    refine ⟨v, hv, ?_⟩
    rw [sample_eq_value? hkeys (by omega), hbracket, hv]
  · intro hnext
    obtain ⟨start, hstart⟩ := exists_key (Nat.lt_of_succ_lt hnext)
    obtain ⟨stop, hstop⟩ := exists_key hnext
    obtain ⟨v, hblends, hv⟩ := hcovered.between hnext (progress start stop time) (stop - start)
    refine ⟨start, stop, progress start stop time, v, hstart, hstop, fun hapart => if_pos hapart, fun hclose => if_neg hclose,
      between_progress_of_isFinite htime, hblends, ?_⟩
    subst hbracket
    rw [sample_eq_between hstart hstop, hv]
  · intro t' hblending hlength hsorted' hi' hsame
    have hbracket' : t'.bracket time = t.bracket time := by
      rw [bracket_eq_lastReached t' hsorted' time, hi', hbracket]
    subst hbracket
    exact sample_congr_of_keys hblending hlength hbracket' hsame

/-- Two keys at one time: the second of them is the last that is reached. -/
def repeatedKey : Track (Vec3 Float32) Float32 := ⟨[0, 1, 1, 2], [Vec3.zero, Vec3.right, Vec3.front, Vec3.zero], .linear⟩

/-- A track that has two keys at one time goes on from the second one. -/
theorem sample_brackets_repeatedKey : repeatedKey.Covered ∧ repeatedKey.times.Pairwise (· ≤ ·) ∧ ¬IsNaN 1 ∧
    lastReached repeatedKey.times 1 = 2 ∧ ∃ share v, Between 0 1 share ∧ repeatedKey.Blends 2 share (2 - 1) v ∧
      repeatedKey.sample 1 = some v := by
  have hcovered : repeatedKey.Covered := le_refl _
  have hsorted : repeatedKey.times.Pairwise (· ≤ ·) := by decide +kernel
  have htime : ¬IsNaN 1 := not_isNaN_of_isFinite isFinite_one
  have hi : lastReached repeatedKey.times 1 = 2 := by decide +kernel
  obtain ⟨-, -, -, -, hnext, -⟩ := sample_brackets repeatedKey hcovered hsorted htime hi
  obtain ⟨start, stop, share, v, hstart, hstop, -, -, hshare, hblends, hv⟩ := hnext (by decide)
  have hdt : stop - start = 2 - 1 := by
    cases hstart
    cases hstop
    rfl
  exact ⟨hcovered, hsorted, htime, hi, share, v, hshare (by rw [hdt]; decide +kernel), hdt ▸ hblends, hv⟩

end Numbers

end Track

end Gait
