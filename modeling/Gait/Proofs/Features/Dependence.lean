import Gait.World.Evaluation

/-!
# What features depend on

The features that add up over a motion look at the ways, or at the turns, between its sampled times and at nothing else; the two
features of the whole journey look at the way from the start to the end. So two motions with the same ways have the same speed,
slope and velocities whatever their rotations are, two with the same turns have the same turn features whatever their positions
are, and no pose at any other time or of any other joint has a part in it. All of this holds of any arithmetic.
-/

namespace Gait

section Poses

variable {α : Type} [Scalar α] {times : List α} {plan : Plan α} {pose pose' : α → Transform α} {duration : α}

/-- Between any two of the times the two motions make the same way. -/
def SameWays (times : List α) (pose pose' : α → Transform α) : Prop :=
  ∀ t ∈ times, ∀ u ∈ times, (pose u).position - (pose t).position = (pose' u).position - (pose' t).position

/-- Between any two of the times the two motions make the same turn. -/
def SameTurns (times : List α) (pose pose' : α → Transform α) : Prop :=
  ∀ t ∈ times, ∀ u ∈ times, (pose t).rotation.turn (pose u).rotation = (pose' t).rotation.turn (pose' u).rotation

theorem sameWays_of_positions (h : ∀ t ∈ times, (pose t).position = (pose' t).position) : SameWays times pose pose' := by
  intro t ht u hu
  rw [h t ht, h u hu]

theorem sameTurns_of_rotations (h : ∀ t ∈ times, (pose t).rotation = (pose' t).rotation) : SameTurns times pose pose' := by
  intro t ht u hu
  rw [h t ht, h u hu]

/-! ## Sums over the steps -/

/-- What is read off each step is the same if it is for each pair of sampled times. -/
theorem map_steps_poses_congr {β : Type} {f : Transform α × Transform α → β}
    (h : ∀ t ∈ plan.times, ∀ u ∈ plan.times, f (pose t, pose u) = f (pose' t, pose' u)) :
    (steps (plan.poses pose)).map f = (steps (plan.poses pose')).map f := by
  rw [Plan.steps_poses, Plan.steps_poses, List.map_map, List.map_map]
  apply List.map_congr_left
  intro step hstep
  obtain ⟨h1, h2⟩ := mem_of_mem_steps hstep
  exact h _ h1 _ h2

theorem SameWays.pathLength (h : SameWays plan.times pose pose') :
    pathLength (plan.poses pose) = pathLength (plan.poses pose') := by
  unfold Gait.pathLength
  rw [map_steps_poses_congr]
  intro t ht u hu
  exact congrArg Vec3.length (h t ht u hu)

theorem SameWays.distanceAlong (h : SameWays plan.times pose pose') (axis : Vec3 α) :
    distanceAlong axis (plan.poses pose) = distanceAlong axis (plan.poses pose') := by
  unfold Gait.distanceAlong
  rw [map_steps_poses_congr]
  intro t ht u hu
  exact congrArg (Vec3.dot · axis) (h t ht u hu)

theorem SameTurns.totalTurn (h : SameTurns plan.times pose pose') :
    totalTurn (plan.poses pose) = totalTurn (plan.poses pose') := by
  unfold Gait.totalTurn
  rw [map_steps_poses_congr]
  exact h

/-! ## The slope -/

/-- Two climbs along two motions that have counted the same: their anchors are where the motions were at one and the same time. -/
structure Climb.Alongside (times : List α) (pose pose' : α → Transform α) (climb climb' : Climb α) : Prop where
  anchor : ∃ t ∈ times, climb.anchor = (pose t).position ∧ climb'.anchor = (pose' t).position
  total : climb.total = climb'.total
  count : climb.count = climb'.count

/-- One more time counts for both climbs or for neither, and with the same angle. -/
theorem Climb.Alongside.add {climb climb' : Climb α} (h : climb.Alongside times pose pose' climb')
    (hways : SameWays times pose pose') {u : α} (hu : u ∈ times) :
    (climb.add (pose u).position).Alongside times pose pose' (climb'.add (pose' u).position) := by
  obtain ⟨t, ht, hanchor, hanchor'⟩ := h.anchor
  have hstep : (pose u).position - climb.anchor = (pose' u).position - climb'.anchor := by
    rw [hanchor, hanchor']
    exact hways t ht u hu
  unfold Climb.add
  rw [hstep]
  by_cases hground : 0 < ((pose' u).position - climb'.anchor).groundLength
  · simp only [if_pos hground]
    exact ⟨⟨u, hu, rfl, rfl⟩, by rw [h.total], by rw [h.count]⟩
  · simp only [if_neg hground]
    exact h

/-- Climbs alongside each other stay so over any further times. -/
theorem Climb.Alongside.foldl (hways : SameWays times pose pose') :
    ∀ (rest : List α), (∀ u ∈ rest, u ∈ times) → ∀ {climb climb' : Climb α}, climb.Alongside times pose pose' climb' →
      (((rest.map pose).map (·.position)).foldl Climb.add climb).Alongside times pose pose'
        (((rest.map pose').map (·.position)).foldl Climb.add climb') := by
  intro rest
  induction rest with
  | nil => exact fun _ _ _ h => h
  | cons u rest ih =>
    intro hrest climb climb' h
    exact ih (fun v hv => hrest v (List.mem_cons_of_mem _ hv)) (h.add hways (hrest u List.mem_cons_self))

theorem SameWays.meanSlope (h : SameWays plan.times pose pose') : meanSlope (plan.poses pose) = meanSlope (plan.poses pose') := by
  unfold Gait.meanSlope Plan.poses
  cases htimes : plan.times with
  | nil => rfl
  | cons first rest =>
    rw [htimes] at h
    have hstart : Climb.Alongside (first :: rest) pose pose' ⟨(pose first).position, 0, 0⟩ ⟨(pose' first).position, 0, 0⟩ :=
      ⟨⟨first, List.mem_cons_self, rfl, rfl⟩, rfl, rfl⟩
    have hend := hstart.foldl h rest (fun u hu => List.mem_cons_of_mem _ hu)
    simp only [List.map_cons]
    rw [hend.total, hend.count]

/-! ## The evaluators -/

/-- The features of the sampled positions depend on the ways between the sampled times. -/
theorem SameWays.measure (h : SameWays plan.times pose pose') {e : Evaluator}
    (he : e = .moveSpeed ∨ e = .travelSlope ∨ e = .leftRightVelocity ∨ e = .frontBackVelocity) :
    e.measure duration plan pose = e.measure duration plan pose' := by
  rcases he with rfl | rfl | rfl | rfl <;> simp only [Evaluator.measure]
  · rw [h.pathLength]
  · rw [h.meanSlope]
  · rw [h.distanceAlong]
  · rw [h.distanceAlong]

/-- The features of the sampled rotations depend on the turns between the sampled times. -/
theorem SameTurns.measure (h : SameTurns plan.times pose pose') {e : Evaluator} (he : e = .turnSpeed ∨ e = .turnAngle) :
    e.measure duration plan pose = e.measure duration plan pose' := by
  rcases he with rfl | rfl <;> simp only [Evaluator.measure] <;> rw [h.totalTurn]

/-- The features of the whole journey depend on the way from the start to the end, and on no plan. -/
theorem SameWays.measure_journey (h : SameWays [0, duration] pose pose') (plan plan' : Plan α) {e : Evaluator}
    (he : e = .travelDirection ∨ e = .travelDistance) : e.measure duration plan pose = e.measure duration plan' pose' := by
  have hway : displacement duration pose = displacement duration pose' := h 0 (by simp) duration (by simp)
  rcases he with rfl | rfl <;> simp only [Evaluator.measure] <;> rw [hway]

end Poses

/-! ## Two runs -/

namespace Evaluator

/-- In both runs the evaluator gives a value, and it is the same one. -/
def SameValue (e : Evaluator) (p p' : Playback) (s s' : Settings) (w w' : World) : Prop :=
  ∃ v, (e.evaluate p s w).result = .ok v ∧ (e.evaluate p' s' w').result = .ok v

variable {p p' : Playback} {s s' : Settings} {w w' : World} {m m' : Motion Float32}

theorem sameValue_iff {e : Evaluator} (hm : (p.resolve w).result = .ok m) (hm' : (p'.resolve w').result = .ok m') :
    e.SameValue p p' s s' w w' ↔ m.measure e s = m'.measure e s' := by
  unfold SameValue
  rw [e.result_evaluate s hm, e.result_evaluate s' hm']
  constructor
  · rintro ⟨v, h, h'⟩
    exact (Except.ok.inj h).trans (Except.ok.inj h').symm
  · exact fun h => ⟨_, rfl, by rw [h]⟩

/-- Let two playbacks stand for motions of the same duration. If they are sampled at the same rate, the sampled positions alone
settle the four features of positions, and the sampled rotations alone the two features of turns; at whatever rates, the positions
at the start and at the end settle the two features of the journey. The turn speed is the turn angle divided by the duration, and
the placeholder reads nothing. -/
theorem sameValue_of_agreement (s s' : Settings) (hm : (p.resolve w).result = .ok m) (hm' : (p'.resolve w').result = .ok m')
    (hd : m.duration = m'.duration) :
    (s.rateFor m.rate = s'.rateFor m'.rate →
      ((∀ t ∈ (m.plan s).times, (m.pose t).position = (m'.pose t).position) →
        ∀ e ∈ [moveSpeed, travelSlope, leftRightVelocity, frontBackVelocity], e.SameValue p p' s s' w w') ∧
      ((∀ t ∈ (m.plan s).times, (m.pose t).rotation = (m'.pose t).rotation) →
        ∀ e ∈ [turnSpeed, turnAngle], e.SameValue p p' s s' w w')) ∧
    ((m.pose 0).position = (m'.pose 0).position → (m.pose m.duration).position = (m'.pose m.duration).position →
      ∀ e ∈ [travelDirection, travelDistance], e.SameValue p p' s s' w w') ∧
    unselected.SameValue p p' s s' w w' ∧
    (0 < m.duration → ∃ angle, (turnAngle.evaluate p s w).result = .ok angle ∧
      (turnSpeed.evaluate p s w).result = .ok (angle / m.duration)) := by
  have hplan : s.rateFor m.rate = s'.rateFor m'.rate → m'.plan s' = m.plan s := by
    intro hrate
    rw [Motion.plan, Motion.plan, hrate, hd]
  refine ⟨fun hrate => ⟨fun hpositions e he => ?_, fun hrotations e he => ?_⟩, fun hstart hend e he => ?_, ?_, fun hpos => ?_⟩
  · rw [sameValue_iff hm hm', Motion.measure, Motion.measure, hplan hrate, ← hd]
    exact (sameWays_of_positions hpositions).measure (by simpa using he)
  · rw [sameValue_iff hm hm', Motion.measure, Motion.measure, hplan hrate, ← hd]
    exact (sameTurns_of_rotations hrotations).measure (by simpa using he)
  · rw [sameValue_iff hm hm', Motion.measure, Motion.measure, ← hd]
    have hends : ∀ t ∈ [0, m.duration], (m.pose t).position = (m'.pose t).position := by
      intro t ht
      rw [List.mem_cons, List.mem_singleton] at ht
      rcases ht with rfl | rfl
      · exact hstart
      · exact hend
    exact (sameWays_of_positions hends).measure_journey _ _ (by simpa using he)
  · exact ⟨0, rfl, rfl⟩
  · refine ⟨_, turnAngle.result_evaluate s hm, ?_⟩
    rw [turnSpeed.result_evaluate s hm]
    simp only [Motion.measure, Evaluator.measure, if_pos hpos]

/-- A second of forward motion with a growing lean. -/
def lean (time : Float32) : Transform Float32 := ⟨⟨time, 0, 0⟩, ⟨0, 0, time, 1⟩⟩

/-- The same motion, but for a leap at a quarter of the second. -/
def leap (time : Float32) : Transform Float32 := if time = 0.25 then .ofPosition ⟨9, 9, 9⟩ else lean time

/-- A motion of one second played by the only actor of a world. -/
def riding (rate : Float32) (pose : Float32 → Transform Float32) : Playback :=
  ⟨some ⟨1, rate, fun _ _ time _ => pose time⟩, some ⟨some 0⟩, false⟩

/-- A world with one actor, whose motion joint is given. -/
def rider (joint : Nat) : World := ⟨[⟨⟨"rider", ⟨#[]⟩, #[]⟩, some joint⟩]⟩

/-- The motion that such a playback stands for. -/
def ride (rate : Float32) (pose : Float32 → Transform Float32) (joint : Nat) : Motion Float32 :=
  ⟨⟨1, rate, fun _ _ time _ => pose time⟩, ⟨"rider", ⟨#[]⟩, #[]⟩, joint, false⟩

/-- With three samples the leap between two of them is not noticed; the second clip names no usable rate and has the fallback. -/
theorem sameValue_leap :
    ((riding 2 lean).resolve (rider 0)).result = .ok (ride 2 lean 0) ∧
    ((riding 0 leap).resolve (rider 5)).result = .ok (ride 0 leap 5) ∧
    ({ fallbackRate := 30 } : Settings).rateFor 2 = ({ fallbackRate := 2 } : Settings).rateFor 0 ∧
    lean 0.25 ≠ leap 0.25 ∧
    (∀ e : Evaluator,
      e.SameValue (riding 2 lean) (riding 0 leap) { fallbackRate := 30 } { fallbackRate := 2 } (rider 0) (rider 5)) ∧
    ∃ angle, (turnAngle.evaluate (riding 2 lean) { fallbackRate := 30 } (rider 0)).result = .ok angle ∧
      (turnSpeed.evaluate (riding 2 lean) { fallbackRate := 30 } (rider 0)).result = .ok (angle / 1) := by
  have hm : ((riding 2 lean).resolve (rider 0)).result = .ok (ride 2 lean 0) := rfl
  have hm' : ((riding 0 leap).resolve (rider 5)).result = .ok (ride 0 leap 5) := rfl
  have hrate : ({ fallbackRate := 30 } : Settings).rateFor 2 = ({ fallbackRate := 2 } : Settings).rateFor 0 := by decide +kernel
  obtain ⟨hsampled, hjourney, hplaceholder, hspeed⟩ :=
    sameValue_of_agreement { fallbackRate := 30 } { fallbackRate := 2 } hm hm' rfl
  have hpositions := (hsampled hrate).1 (by decide +kernel)
  have hrotations := (hsampled hrate).2 (by decide +kernel)
  have hends := hjourney (by decide +kernel) (by decide +kernel)
  refine ⟨hm, hm', hrate, by decide +kernel, ?_, hspeed (by decide +kernel)⟩
  intro e
  cases e with
  | unselected => exact hplaceholder
  | travelDirection | travelDistance => exact hends _ (by simp)
  | turnSpeed | turnAngle => exact hrotations _ (by simp)
  | moveSpeed | travelSlope | leftRightVelocity | frontBackVelocity => exact hpositions _ (by simp)

end Evaluator

end Gait
