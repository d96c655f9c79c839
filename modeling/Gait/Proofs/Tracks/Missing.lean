import Gait.Proofs.Tracks.Brackets

/-!
# Tracks with values missing

The values of a track may be fewer than its keys need, or more. Of the keys themselves only such are looked up as are there, in
the search for the key to go on from and after it. A sample is missing if one of the values is that it is made of, and as values
are only missing at the end, the one that matters is the last of these. So a track that has some samples missing gets them as
values are added, and keeps the ones that it has.
-/

namespace Gait

open Binary32

namespace Track

variable {V α : Type} [Scalar α]

/-! ## Looking keys up -/

section Lookups

variable {times : List α} {time : α} {base size : ℕ}

/-- The search by halving that breaks off without an answer where it looks up a key that is not there. -/
def countReachedChecked? (times : List α) (time : α) (base size : ℕ) : Option ℕ :=
  if size = 0 then some base
  else if size = 1 then do
    let key ← times[base]?
    return if key ≤ time then base + 1 else base
  else do
    let key ← times[base + size / 2]?
    countReachedChecked? times time (if key ≤ time then base + size / 2 else base) (size - size / 2)
termination_by size

/-- The search looks up keys only: what is open is among them at the start, and stays so in each halving. -/
theorem countReachedChecked?_eq_some (h : base + size ≤ times.length) :
    countReachedChecked? times time base size = some (countReached times time base size) := by
  fun_induction countReachedChecked? times time base size with
  | case1 base => simp [countReached]
  | case2 base hne =>
    obtain ⟨key, hkey⟩ := exists_key (by omega : base < times.length)
    rw [countReached]
    simp [hkey, reached_iff hkey]
  | case3 base size hne hone ih =>
    obtain ⟨key, hkey⟩ := exists_key (by omega : base + size / 2 < times.length)
    rw [countReached, if_neg (by omega)]
    simp only [hkey, reached_iff hkey, Option.bind_eq_bind, Option.bind_some]
    apply ih
    split_ifs <;> omega

/-- The sample of a track that breaks off without an answer where it looks up a key that is not there. -/
def sampleChecked? [Blend V α] (t : Track V α) (time : α) : Option (Option V) :=
  if t.isEmpty then some none
  else do
    let count ← countReachedChecked? t.times time 0 t.times.length
    let i := count - 1
    if t.times.length - 1 ≤ i then return t.value? (t.times.length - 1)
    else
      let start ← t.times[i]?
      let stop ← t.times[i + 1]?
      return t.between i (progress start stop time) (stop - start)

/-- A sample of a sorted track looks up keys only. -/
theorem sampleChecked?_eq_some [IsTrans α (· ≤ ·)] [Blend V α] (t : Track V α) (hsorted : t.times.Pairwise (· ≤ ·)) (time : α) :
    t.sampleChecked? time = some (t.sample time) := by
  have hcount : countReached t.times time 0 t.times.length - 1 = t.bracket time :=
    (countReached_sub_one hsorted time).trans (bracket_eq_lastReached t hsorted time).symm
  by_cases hkeys : t.times = []
  · simp [sampleChecked?, sample, isEmpty, hkeys]
  have hempty : t.isEmpty = false := List.isEmpty_eq_false_iff.2 hkeys
  have hlt := bracket_lt_length hkeys time
  simp only [sampleChecked?, hempty, countReachedChecked?_eq_some (Nat.zero_add _).le, hcount, Bool.false_eq_true, if_false,
    Option.bind_eq_bind, Option.bind_some]
  by_cases hlast : t.times.length - 1 ≤ t.bracket time
  · have hpred : t.times.length - 1 = t.bracket time := by omega
    rw [if_pos hlast, sample_eq_value? hkeys (by omega), hpred]
    rfl
  · obtain ⟨start, hstart⟩ := exists_key hlt
    obtain ⟨stop, hstop⟩ := exists_key (by omega : t.bracket time + 1 < t.times.length)
    rw [if_neg hlast, sample_eq_between hstart hstop, hstart, hstop]
    rfl

end Lookups

/-! ## The last value of a sample -/

section Values

variable {t : Track V α} {time : α} {v : V} {i j : ℕ}

/-- The last place among the values that the key `i` and the way from it to the next one need; from the last key no way goes on. -/
def topSlot (t : Track V α) (i : ℕ) : ℕ :=
  if i + 1 < t.times.length then
    match t.blending with
    | .step => i
    | .linear => i + 1
    | .cubic => 3 * (i + 1) + 1
  else t.valueSlot (t.times.length - 1)

/-- The last of the values that a sample is made of. -/
theorem topSlot_mem_slots (t : Track V α) (time : α) : t.topSlot (t.bracket time) ∈ t.slots time := by
  unfold topSlot slots slotsBetween
  split_ifs
  · cases t.blending <;> simp
  · exact List.mem_singleton_self _

theorem le_topSlot_of_mem_slots (h : j ∈ t.slots time) : j ≤ t.topSlot (t.bracket time) := by
  unfold slots slotsBetween at h
  unfold topSlot
  split_ifs at h ⊢
  · cases hblending : t.blending <;> simp only [hblending, List.mem_cons, List.not_mem_nil, or_false] at h ⊢ <;> omega
  · exact (List.mem_singleton.1 h).le

variable [Blend V α]

/-- A sample is there exactly if the last value is that it is made of. -/
theorem sample_eq_none_iff_topSlot : t.sample time = none ↔ t.times = [] ∨ t.values.length ≤ t.topSlot (t.bracket time) := by
  rw [sample_eq_none_iff, isEmpty, List.isEmpty_iff]
  refine or_congr_right ⟨?_, fun h => ⟨_, t.topSlot_mem_slots time, h⟩⟩
  rintro ⟨j, hj, hmissing⟩
  exact hmissing.trans (le_topSlot_of_mem_slots hj)

/-- A track with keys that has all their values has a sample at all times. -/
theorem Covered.exists_sample (h : t.Covered) (hkeys : t.times ≠ []) (time : α) : ∃ v, t.sample time = some v := by
  rw [← Option.ne_none_iff_exists', ne_eq, sample_eq_none_iff_topSlot, not_or]
  obtain ⟨k, -, hk, hslot⟩ := mem_keySlots_of_mem_slots hkeys (t.topSlot_mem_slots time)
  exact ⟨hkeys, not_le.2 ((lt_slotCount hk hslot).trans_le h)⟩

/-- The values of a sample that is there stay in place when others are added behind them. -/
theorem sample_append (h : t.sample time = some v) (more : List V) :
    sample { t with values := t.values ++ more } time = some v := by
  have hsome : t.sample time ≠ none := by
    rw [h]
    exact Option.some_ne_none v
  rw [ne_eq, sample_eq_none_iff_topSlot, not_or, not_le] at hsome
  rw [← h]
  refine sample_congr rfl rfl rfl rfl rfl ?_
  intro j hj
  exact List.getElem?_append_left ((le_topSlot_of_mem_slots hj).trans_lt hsome.2)

end Values

/-! ## Samples of any values -/

variable [Blend V Float32]

/-- A sorted track is sampled at any time, whatever its values: it looks up keys only, has a sample if there are values for all
keys, and has none exactly if it has no keys or the last value is missing that the sample is made of; and values that are added
change no sample. -/
theorem sample_of_any_values (t : Track V Float32) (hsorted : t.times.Pairwise (· ≤ ·)) :
    (∀ time, t.sampleChecked? time = some (t.sample time)) ∧
      (t.times ≠ [] → t.Covered → ∀ time, ∃ v, t.sample time = some v) ∧
      (∀ time, t.sample time = none ↔ t.times = [] ∨ t.values.length ≤ t.topSlot (lastReached t.times time)) ∧
      (∀ time v, t.sample time = some v → ∀ more, sample { t with values := t.values ++ more } time = some v) := by
  refine ⟨t.sampleChecked?_eq_some hsorted, fun hkeys hcovered => hcovered.exists_sample hkeys, ?_, fun _ _ => sample_append⟩
  intro time
  rw [sample_eq_none_iff_topSlot, bracket_eq_lastReached t hsorted]

/-- A cubic of three keys with the values of two and the velocity that the third is reached with. -/
def cutOff : Track (Vec3 Float32) Float32 := ⟨[0, 1, 2], List.replicate 7 Vec3.zero, .cubic⟩

/-- Without the last value there are no samples from the last key but one on. A time that is none counts as before all keys. -/
theorem sample_of_any_values_cutOff : cutOff.times.Pairwise (· ≤ ·) ∧ cutOff.sample 1 = none ∧ cutOff.sample 2 = none ∧
    cutOff.sample (0 / 0) ≠ none := by
  have hsorted : cutOff.times.Pairwise (· ≤ ·) := by decide +kernel
  obtain ⟨-, -, hnone, -⟩ := sample_of_any_values cutOff hsorted
  have hone : cutOff.values.length ≤ cutOff.topSlot (lastReached cutOff.times 1) := by decide +kernel
  have htwo : cutOff.values.length ≤ cutOff.topSlot (lastReached cutOff.times 2) := by decide +kernel
  have hnan : ¬cutOff.values.length ≤ cutOff.topSlot (lastReached cutOff.times (0 / 0)) := by decide +kernel
  refine ⟨hsorted, (hnone 1).2 (Or.inr hone), (hnone 2).2 (Or.inr htwo), ?_⟩
  rw [ne_eq, hnone, not_or]
  exact ⟨List.cons_ne_nil _ _, hnan⟩

end Track

end Gait
