import Mathlib
import Gait.Proofs.Binary32.Extremes
import Gait.Proofs.Clips.Fallback
import Gait.Proofs.Clips.OwnTrack
import Gait.Proofs.Tracks.Brackets

/-!
# The end of a clip

A clip made of tracks lasts until the latest of their keys, or no time at all if none is after its start. From then on every track
is at its last key, be it the first track for its joint or a later one that is never looked at; so each joint stays where its last
keys put it, retargeted or not (`ofTracks_holds_end`).
-/

namespace Gait

open Binary32

/-! ## The end of a track -/

namespace Track

section Scalars

variable {V α : Type} {t : Track V α} {time : α} {fallback v : V}

/-- The value is that of the last key; of a track without keys it is the one that stands in for it. -/
def EndsAt (t : Track V α) (fallback v : V) : Prop :=
  (t.times = [] → v = fallback) ∧ (t.times ≠ [] → t.value? (t.times.length - 1) = some v)

/-- A track with values for its keys has a value at its end. -/
theorem Covered.exists_endsAt (h : t.Covered) (fallback : V) : ∃ v, t.EndsAt fallback v := by
  by_cases hkeys : t.times = []
  · exact ⟨fallback, fun _ => rfl, fun hne => absurd hkeys hne⟩
  · obtain ⟨v, hv⟩ := h.value? (Nat.sub_one_lt (List.length_pos_iff.2 hkeys).ne')
    exact ⟨v, fun hnil => absurd hnil hkeys, fun _ => hv⟩

variable [Scalar α] [Blend V α]

/-- A time that no key is after has the value of the last key. -/
theorem sample_of_keys_le (hkeys : t.times ≠ []) (h : ∀ key ∈ t.times, key ≤ time) :
    t.sample time = t.value? (t.times.length - 1) := by
  have hpos : 0 < t.times.length := List.length_pos_iff.2 hkeys
  have hall : t.times.findIdx (fun key => !decide (key ≤ time)) = t.times.length :=
    List.findIdx_eq_length.2 fun key hkey => by simpa using h key hkey
  have hbracket : t.bracket time = t.times.length - 1 := by rw [bracket, hall]
  rw [sample_eq_value? hkeys (by omega), hbracket]

/-- At a time that no key is after, a track is worth the value of its end. -/
theorem EndsAt.sample_getD (h : t.EndsAt fallback v) (hkeys : ∀ key ∈ t.times, key ≤ time) :
    (t.sample time).getD fallback = v := by
  by_cases hnil : t.times = []
  · rw [sample_of_times_eq_nil hnil, Option.getD_none, h.1 hnil]
  · rw [sample_of_keys_le hnil hkeys, h.2 hnil, Option.getD_some]

end Scalars

variable {V : Type} {t : Track V Float32} {key : Float32}

/-- The keys are at ascending times, none of which is none. -/
structure Timed (t : Track V Float32) : Prop where
  sorted : t.times.Pairwise (· ≤ ·)
  numbers : ∀ key ∈ t.times, ¬IsNaN key

/-- The end is the time of a key, or zero without keys. -/
theorem endTime_cases (t : Track V Float32) : t.endTime = 0 ∨ t.endTime ∈ t.times := by
  rw [endTime]
  cases h : t.times.getLast? with
  | none => exact Or.inl rfl
  | some last => exact Or.inr (List.mem_of_getLast? h)

/-- No key is after the end. -/
theorem Timed.le_endTime (h : t.Timed) (hkey : key ∈ t.times) : key ≤ t.endTime := by
  have hne : t.times ≠ [] := List.ne_nil_of_mem hkey
  have hend : t.endTime = t.times.getLast hne := by rw [endTime, List.getLast?_eq_some_getLast hne, Option.getD_some]
  rw [hend]
  exact h.sorted.rel_getLast_of_rel_getLast_getLast hkey (le_self_iff.mpr (h.numbers _ (List.getLast_mem hne)))

end Track

/-! ## The end of a clip -/

namespace JointTrack

section Scalars

variable {α : Type}

/-- The keys of a joint: those of its positions and those of its rotations. -/
def keys (t : JointTrack α) : List α := t.positions.times ++ t.rotations.times

/-- There are values for all keys. -/
structure Covered (t : JointTrack α) : Prop where
  positions : t.positions.Covered
  rotations : t.rotations.Covered

variable [Scalar α]

/-- What is given is adapted to the actor's build, if it is to be and if the track says from which build. -/
def adapt (t : JointTrack α) (bound : Transform α) (retargeting : Bool) (pose : Transform α) : Transform α :=
  match t.correction? retargeting with
  | none => pose
  | some source => retarget source bound pose

/-- From a time on that no key is after, the joint is where its ends put it. -/
theorem pose_of_keys_le {t : JointTrack α} {bound last : Transform α} {time : α} (h : ∀ key ∈ t.keys, key ≤ time)
    (hposition : t.positions.EndsAt bound.position last.position) (hrotation : t.rotations.EndsAt bound.rotation last.rotation)
    (retargeting : Bool) : t.pose bound time retargeting = t.adapt bound retargeting last := by
  rw [keys, List.forall_mem_append] at h
  rw [pose_eq, hposition.sample_getD h.1, hrotation.sample_getD h.2]
  rfl

end Scalars

variable {t : JointTrack Float32} {key : Float32}

/-- All keys are at ascending times, none of which is none. -/
structure Timed (t : JointTrack Float32) : Prop where
  positions : t.positions.Timed
  rotations : t.rotations.Timed

theorem best_endTime (t : JointTrack Float32) : Best (· ≥ ·) [t.positions.endTime, t.rotations.endTime] t.endTime :=
  best_better isOrder_ge.toIsPreference _ _

/-- The end is the time of a key, or zero. -/
theorem endTime_cases (t : JointTrack Float32) : t.endTime = 0 ∨ t.endTime ∈ t.keys := by
  rw [keys, List.mem_append]
  rcases List.mem_pair.1 t.best_endTime.1 with h | h <;> rw [h]
  · exact t.positions.endTime_cases.imp_right Or.inl
  · exact t.rotations.endTime_cases.imp_right Or.inr

/-- No key is after the end. -/
theorem Timed.le_endTime (h : t.Timed) (hkey : key ∈ t.keys) : key ≤ t.endTime := by
  have hlater : ∀ stop ∈ [t.positions.endTime, t.rotations.endTime], key ≤ stop → key ≤ t.endTime := fun stop hstop hle =>
    IsTrans.trans _ _ _ hle (t.best_endTime.2 stop hstop (isOrder_le.right hle))
  rcases List.mem_append.1 hkey with hkey | hkey
  · exact hlater _ List.mem_cons_self (h.positions.le_endTime hkey)
  · exact hlater _ (List.mem_cons_of_mem _ List.mem_cons_self) (h.rotations.le_endTime hkey)

end JointTrack

namespace KeyframedClip

variable {tracks : List (JointTrack Float32)}

/-- A clip made of tracks lasts until the latest of the keys, and no time at all if none is after its start. -/
theorem isGreatest_duration (name : String) (h : ∀ t ∈ tracks, t.Timed) :
    IsGreatest {x | x = 0 ∨ ∃ t ∈ tracks, x ∈ t.keys} (ofTracks name tracks).duration := by
  have hbest : Best (· ≥ ·) (0 :: tracks.map JointTrack.endTime) (ofTracks name tracks).duration :=
    best_foldl_better isOrder_ge.toIsPreference _ _
  constructor
  · rcases List.mem_cons.1 hbest.1 with hzero | hend
    · exact Or.inl hzero
    · obtain ⟨t, ht, hend⟩ := List.mem_map.1 hend
      exact (t.endTime_cases).imp (hend ▸ ·) fun hkey => ⟨t, ht, hend ▸ hkey⟩
  · rintro x (rfl | ⟨t, ht, hkey⟩)
    · exact hbest.2 0 List.mem_cons_self (le_self_iff.mpr (not_isNaN_of_isFinite isFinite_zero))
    · have hle := (h t ht).le_endTime hkey
      exact IsTrans.trans _ _ _ hle
        (hbest.2 _ (List.mem_cons_of_mem _ (List.mem_map_of_mem ht)) (isOrder_le.right hle))

/-- A clip made of tracks lasts for the larger of zero and the latest time of a key. From its end on, at infinity too, it keeps
each joint where the clip's end puts it, retargeted or not; and this is where the last position and the last rotation put the joint
in the first track for its name, or the actor's bind pose for the one that this track has no keys of. -/
theorem ofTracks_holds_end (name : String) (tracks : List (JointTrack Float32)) (h : ∀ t ∈ tracks, t.Timed) :
    IsGreatest {x | x = 0 ∨ ∃ t ∈ tracks, x ∈ t.keys} (ofTracks name tracks).duration ∧
      ∀ (actor : Actor Float32) (joint : ℕ) (jointName : String) (t : JointTrack Float32),
        actor.skeleton.name? joint = some jointName → FirstFor tracks jointName t → t.Covered →
        ∃ last : Transform Float32, t.positions.EndsAt (actor.bindTransform joint).position last.position ∧
          t.rotations.EndsAt (actor.bindTransform joint).rotation last.rotation ∧
          ∀ (retargeting : Bool) (time : Float32), (ofTracks name tracks).duration ≤ time →
            (ofTracks name tracks).pose actor joint time retargeting =
                (ofTracks name tracks).pose actor joint (ofTracks name tracks).duration retargeting ∧
              (ofTracks name tracks).pose actor joint time retargeting =
                t.adapt (actor.bindTransform joint) retargeting last := by
  have hgreatest := isGreatest_duration name h
  refine ⟨hgreatest, ?_⟩
  intro actor joint jointName t hname hfirst hcovered
  have ht : t ∈ tracks := by
    obtain ⟨-, before, after, rfl, -⟩ := hfirst
    simp
  obtain ⟨position, hposition⟩ := hcovered.positions.exists_endsAt (actor.bindTransform joint).position
  obtain ⟨rotation, hrotation⟩ := hcovered.rotations.exists_endsAt (actor.bindTransform joint).rotation
  refine ⟨⟨position, rotation⟩, hposition, hrotation, fun retargeting time htime => ?_⟩
  have hpose : ∀ time, (ofTracks name tracks).duration ≤ time →
      (ofTracks name tracks).pose actor joint time retargeting =
        t.adapt (actor.bindTransform joint) retargeting ⟨position, rotation⟩ := by
    intro time htime
    have hkeys : ∀ key ∈ t.keys, key ≤ time := fun key hkey =>
      IsTrans.trans _ _ _ (hgreatest.2 (Or.inr ⟨t, ht, hkey⟩)) htime
    have htrack : (ofTracks name tracks).track? jointName = some t := track?_eq_some_iff.2 hfirst
    rw [KeyframedClip.pose_eq, hname, Option.bind_some, htrack]
    exact JointTrack.pose_of_keys_le hkeys hposition hrotation retargeting
  exact ⟨(hpose time htime).trans (hpose _ (isOrder_le.left htime)).symm, hpose time htime⟩

/-- A hip with two keys at one time before the start, without keys for its rotation, and made on a skeleton bound elsewhere. -/
def early : JointTrack Float32 :=
  ⟨"hip", ⟨[-2, -1, -1], [Vec3.zero, Vec3.front, Vec3.right], .linear⟩, ⟨[], [], .linear⟩, some (.ofPosition Vec3.front)⟩

/-- The same joint again, with later keys that no pose is made of. -/
def late : JointTrack Float32 := ⟨"hip", ⟨[0, 3], [Vec3.zero, Vec3.front], .step⟩, Track.constant Quat.identity, none⟩

/-- The clip of both lasts as long as the second; at infinity the joint is at the last key of the first, and has the rotation that
the actor binds it with. -/
theorem ofTracks_holds_end_early_late :
    (∀ t ∈ [early, late], t.Timed) ∧ (ofTracks "twice" [early, late]).duration = 3 ∧ FirstFor [early, late] "hip" early ∧
      early.Covered ∧ (3 : Float32) ≤ 1 / 0 ∧
      ∀ retargeting, (ofTracks "twice" [early, late]).pose walker 0 (1 / 0) retargeting =
        early.adapt (walker.bindTransform 0) retargeting ⟨Vec3.right, Quat.identity⟩ := by
  have htimed : ∀ t ∈ [early, late], t.Timed := by
    have hfinite : ∀ t ∈ [early, late], (∀ key ∈ t.positions.times, key.isFinite = true) ∧
        ∀ key ∈ t.rotations.times, key.isFinite = true := by decide +kernel
    have hsorted : ∀ t ∈ [early, late], t.positions.times.Pairwise (· ≤ ·) ∧ t.rotations.times.Pairwise (· ≤ ·) := by
      decide +kernel
    exact fun t ht =>
      ⟨⟨(hsorted t ht).1, fun key hkey => not_isNaN_of_isFinite ((hfinite t ht).1 key hkey)⟩,
        ⟨(hsorted t ht).2, fun key hkey => not_isNaN_of_isFinite ((hfinite t ht).2 key hkey)⟩⟩
  have hduration : (ofTracks "twice" [early, late]).duration = 3 := by decide +kernel
  have hfirst : FirstFor [early, late] "hip" early := ⟨rfl, [], [late], rfl, by simp⟩
  have hcovered : early.Covered := ⟨le_refl _, le_refl _⟩
  have hlater : (3 : Float32) ≤ 1 / 0 := by decide +kernel
  obtain ⟨-, hends⟩ := ofTracks_holds_end "twice" [early, late] htimed
  obtain ⟨⟨position, rotation⟩, hposition, hrotation, hhold⟩ := hends walker 0 "hip" early rfl hfirst hcovered
  obtain rfl : Vec3.right = position := Option.some.inj (hposition.2 (List.cons_ne_nil _ _))
  obtain rfl : rotation = Quat.identity := hrotation.1 rfl
  refine ⟨htimed, hduration, hfirst, hcovered, hlater, fun retargeting => ?_⟩
  refine (hhold retargeting (1 / 0) ?_).2
  rw [hduration]
  exact hlater

end KeyframedClip

end Gait
