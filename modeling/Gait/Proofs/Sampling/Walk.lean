import Mathlib
import Gait.Proofs.Sampling.Times
import Gait.World.Playback

/-!
# What a walk answers

After so many calls a walk has seen a certain sample last and visits the one after it next: it is `standing` there, and what one
call does to a standing walk is `call_standing`. So the calls answer with the steps of the list of poses, one after the other
(`call_after`), and whatever is made of the answers is made of that list (`gather_setOut`): no step is missing at either end,
and the walk does not start again after its end. Two plans have no steps at all: one without samples, where there is no pose to set
out from, and one with a single sample, where there is none to go on to.
-/

namespace Gait

/-! ## The list of the poses -/

theorem map_fst_steps {β : Type} (xs : List β) : (steps xs).map Prod.fst = xs.dropLast := by
  induction xs with
  | nil => rfl
  | cons a xs ih =>
    cases xs with
    | nil => rfl
    | cons b xs => rw [steps_cons_cons, List.map_cons, ih, List.dropLast_cons_cons]

theorem map_snd_steps {β : Type} (xs : List β) : (steps xs).map Prod.snd = xs.tail :=
  List.map_snd_zip (by rw [List.length_tail]; exact Nat.sub_le _ _)

namespace Plan

variable {α β γ : Type} [Scalar α] (p : Plan α) (pose : α → β)

theorem getElem?_times (k : ℕ) : p.times[k]? = if k < p.count.toNat then some (Scalar.ofNat k * p.step) else none := by
  rw [times, List.getElem?_map]
  by_cases hk : k < p.count.toNat
  · rw [List.getElem?_range hk, if_pos hk]
    rfl
  · rw [if_neg hk, List.getElem?_eq_none (by rwa [List.length_range, ← not_lt])]
    rfl

theorem getElem?_poses (k : ℕ) : (p.poses pose)[k]? = if k < p.count.toNat then some (p.poseAt pose k) else none := by
  rw [poses, List.getElem?_map, getElem?_times]
  split <;> rfl

theorem getElem?_steps_poses (k : ℕ) : (steps (p.poses pose))[k]? =
    if k + 1 < p.count.toNat then some (p.poseAt pose k, p.poseAt pose (k + 1)) else none := by
  rw [steps, List.zip, List.getElem?_zipWith, List.getElem?_tail, getElem?_poses, getElem?_poses]
  by_cases hk : k + 1 < p.count.toNat
  · rw [if_pos hk, if_pos hk, if_pos (by omega)]
  · rw [if_neg hk, if_neg hk]
    cases (if k < p.count.toNat then some (p.poseAt pose k) else none) <;> rfl

/-! ## One call -/

/-- The walk that has seen a certain sample last. -/
def standing (k : ℕ) : Walk β := ⟨k + 1, some (p.poseAt pose k)⟩

variable {p pose}

theorem setOut_of_pos (h : 0 < p.count.toNat) : p.setOut pose = p.standing pose 0 := by
  rw [setOut, visit_of_lt pose h]
  rfl

/-- Without a first sample nothing is remembered. -/
theorem setOut_of_zero (h : p.count.toNat = 0) : p.setOut pose = ⟨0, none⟩ := by
  rw [setOut, visit_of_le pose h.le]

/-- A walk goes from where it stands to the next sample. -/
theorem call_standing {k : ℕ} (h : k + 1 < p.count.toNat) :
    p.call pose (p.standing pose k) = (some (p.poseAt pose k, p.poseAt pose (k + 1)), p.standing pose (k + 1)) := by
  rw [call, visit_of_lt pose (show (p.standing pose k).next < p.count.toNat from h)]
  rfl

/-- At the end a call is not answered and changes nothing. -/
theorem call_of_le {w : Walk β} (h : p.count.toNat ≤ w.next) : p.call pose w = (none, w) := by
  rw [call, visit_of_le pose h]

/-! ## All calls -/

variable (p pose) in
/-- The walk after so many calls. -/
def after : ℕ → Walk β
  | 0 => p.setOut pose
  | n + 1 => (p.call pose (after n)).2

/-- A call of a walk that stands after so many calls, or at the last sample if that comes first, is answered with the step whose
turn it is, if there is one. -/
theorem call_standing_min (h : 0 < p.count.toNat) (n : ℕ) : p.call pose (p.standing pose (min n (p.count.toNat - 1))) =
    ((steps (p.poses pose))[n]?, p.standing pose (min (n + 1) (p.count.toNat - 1))) := by
  rw [getElem?_steps_poses]
  by_cases hn : n + 1 < p.count.toNat
  · rw [min_eq_left (by omega), min_eq_left (by omega), call_standing hn, if_pos hn]
  · have hend : p.count.toNat ≤ (p.standing pose (p.count.toNat - 1)).next := by
      show p.count.toNat ≤ p.count.toNat - 1 + 1
      omega
    rw [min_eq_right (by omega), min_eq_right (by omega), call_of_le hend, if_neg hn]

theorem after_of_pos (h : 0 < p.count.toNat) (n : ℕ) : p.after pose n = p.standing pose (min n (p.count.toNat - 1)) := by
  induction n with
  | zero => rw [after, setOut_of_pos h, Nat.zero_min]
  | succ n ih => rw [after, ih, call_standing_min h]

theorem after_of_zero (h : p.count.toNat = 0) (n : ℕ) : p.after pose n = ⟨0, none⟩ := by
  induction n with
  | zero => exact setOut_of_zero h
  | succ n ih => rw [after, ih, call_of_le h.le]

/-- Each call is answered with the step whose turn it is, as long as there are steps, and then with none. -/
theorem call_after (n : ℕ) : (p.call pose (p.after pose n)).1 = (steps (p.poses pose))[n]? := by
  rcases Nat.eq_zero_or_pos p.count.toNat with h | h
  · rw [after_of_zero h, call_of_le h.le, getElem?_steps_poses, if_neg (by omega)]
  · rw [after_of_pos h, call_standing_min h]

/-! ## What is made of the answers -/

variable {f : γ → β × β → γ}

theorem gather_of_answer {w w' : Walk β} {step : β × β} (h : p.call pose w = (some step, w')) (sofar : γ) :
    p.gather pose f sofar w = p.gather pose f (f sofar step) w' := by
  rw [gather]
  split
  · rename_i hcall
    rw [h] at hcall
    cases hcall
  · rename_i hcall
    rw [h] at hcall
    cases hcall
    rfl

theorem gather_of_le {w : Walk β} (h : p.count.toNat ≤ w.next) (sofar : γ) : p.gather pose f sofar w = sofar := by
  rw [gather]
  split
  · rfl
  · rename_i hcall
    rw [call_of_le h] at hcall
    cases hcall

/-- From where a walk stands, what is made of the answers is made of the steps that are left. -/
theorem gather_standing {k : ℕ} (hk : k < p.count.toNat) (sofar : γ) :
    p.gather pose f sofar (p.standing pose k) = ((steps (p.poses pose)).drop k).foldl f sofar := by
  induction hleft : p.count.toNat - (k + 1) generalizing k sofar with
  | zero =>
    have hend : p.count.toNat ≤ (p.standing pose k).next := Nat.sub_eq_zero_iff_le.1 hleft
    have hdrop : (steps (p.poses pose)).drop k = [] := by
      apply List.drop_eq_nil_of_le
      rw [length_steps, length_poses]
      exact Nat.sub_le_iff_le_add.2 hend
    rw [gather_of_le hend, hdrop, List.foldl_nil]
  | succ left ih =>
    have hnext : k + 1 < p.count.toNat := by omega
    have hstep := p.getElem?_steps_poses pose k
    rw [if_pos hnext] at hstep
    obtain ⟨hlength, hget⟩ := List.getElem?_eq_some_iff.1 hstep
    rw [gather_of_answer (call_standing hnext), ih hnext _ (by omega), List.drop_eq_getElem_cons hlength, hget, List.foldl_cons]

/-- What is made of the answers of a whole walk is made of the steps of the list of poses. -/
theorem gather_setOut (f : γ → β × β → γ) (sofar : γ) :
    p.gather pose f sofar (p.setOut pose) = (steps (p.poses pose)).foldl f sofar := by
  rcases Nat.eq_zero_or_pos p.count.toNat with h | h
  · have hnone : steps (p.poses pose) = [] := List.length_eq_zero_iff.1 (by rw [length_steps, length_poses, h])
    rw [setOut_of_zero h, gather_of_le h.le, hnone, List.foldl_nil]
  · rw [setOut_of_pos h, gather_standing h, List.drop_zero]

/-- The answers of a walk are the steps of the list of poses. -/
theorem walk_eq_steps (p : Plan α) (pose : α → β) : p.walk pose = steps (p.poses pose) := by
  rw [walk, gather_setOut, List.foldl_push_eq_append']
  simp

/-- Three samples are two steps, a single one is none. -/
example : (⟨0.5, 3⟩ : Plan Float32).walk id = [(0, 0.5), (0.5, 1)] ∧ (⟨2, 1⟩ : Plan Float32).walk id = [] := by
  simp only [walk_eq_steps]
  decide +kernel

/-- A sum over the steps of the list of poses is a sum that is made on a walk. -/
theorem sum_steps_poses (p : Plan α) (pose : α → β) (term : β × β → α) :
    Scalar.sum ((steps (p.poses pose)).map term) = p.gather pose (fun sum step => sum + term step) (-0) (p.setOut pose) := by
  rw [gather_setOut, Scalar.sum, List.foldl_map]

end Plan

/-- The first sample of a motion is taken at time zero. -/
theorem Motion.head?_times_plan {m : Motion Float32} {settings : Settings} (hne : (m.plan settings).times ≠ []) :
    (m.plan settings).times.head? = some 0 := by
  have husable : isUsable (settings.rateFor m.rate) = true ∧ isUsable m.duration = true := by
    by_contra h
    rw [plan, Plan.ofRate_of_not_isUsable h] at hne
    exact hne rfl
  obtain ⟨hfin, hpos, -⟩ := Plan.step_ofRate_bounds husable.1 husable.2
  exact Plan.head?_times hne hfin hpos

namespace Sampler

/-- The first step starts at time zero where the samples are planned for the motion. -/
theorem starts_at_zero {s : Sampler} {settings : Settings} {step : Transform Float32 × Transform Float32}
    (hplan : s.plan = s.motion.plan settings) (hstep : s.steps.head? = some step) :
    s.plan.times.head? = some 0 ∧ step.1 = s.motion.pose 0 := by
  rw [steps, Plan.walk_eq_steps, List.head?_eq_getElem?, Plan.getElem?_steps_poses] at hstep
  obtain ⟨hcount, hfirst⟩ := Option.ite_none_right_eq_some.1 hstep
  have hhead : s.plan.times.head? = some (Scalar.ofNat 0 * s.plan.step) := by
    rw [List.head?_eq_getElem?, Plan.getElem?_times, if_pos (by omega)]
  have hne : s.plan.times ≠ [] := by
    intro hnil
    rw [hnil] at hhead
    cases hhead
  have hzero : s.plan.times.head? = some 0 := by
    rw [hplan] at hne ⊢
    exact Motion.head?_times_plan hne
  refine ⟨hzero, ?_⟩
  rw [← Option.some.inj hfirst, Plan.poseAt, Option.some.inj (hhead.symm.trans hzero)]

/-- A sampler has one step fewer than it has samples, and none without samples. Each step is from the pose at a multiple of the
sampling step to the pose at the next multiple, and these are the times of the poses themselves. So each step starts with the pose
that the one before it ended with, every pose but the last starts a step, and every pose but the first ends one, once and in
order. The walk answers its calls with these steps in turn, and after the last of them no further call. Where the samples are
planned for the motion, the first step starts at time zero. -/
theorem steps_join_neighbours (s : Sampler) :
    s.steps.length = s.plan.count.toNat - 1 ∧
    (∀ k, k + 1 < s.plan.count.toNat → s.steps[k]? =
      some (s.motion.pose (Scalar.ofNat k * s.plan.step), s.motion.pose (Scalar.ofNat (k + 1) * s.plan.step))) ∧
    (∀ k, k < s.plan.count.toNat → s.plan.times[k]? = some (Scalar.ofNat k * s.plan.step) ∧
      s.poses[k]? = some (s.motion.pose (Scalar.ofNat k * s.plan.step))) ∧
    (∀ k step next, s.steps[k]? = some step → s.steps[k + 1]? = some next → next.1 = step.2) ∧
    s.steps.map Prod.fst = s.poses.dropLast ∧ s.steps.map Prod.snd = s.poses.tail ∧
    (∀ n, (s.plan.call s.motion.pose (s.plan.after s.motion.pose n)).1 = s.steps[n]?) ∧
    ∀ settings step, s.plan = s.motion.plan settings → s.steps.head? = some step →
      s.plan.times.head? = some 0 ∧ step.1 = s.motion.pose 0 := by
  have hsteps : s.steps = Gait.steps s.poses := Plan.walk_eq_steps s.plan s.motion.pose
  have hget (k : ℕ) : s.steps[k]? =
      if k + 1 < s.plan.count.toNat then some (s.plan.poseAt s.motion.pose k, s.plan.poseAt s.motion.pose (k + 1)) else none := by
    rw [hsteps]
    exact s.plan.getElem?_steps_poses s.motion.pose k
  refine ⟨?_, fun k hk => ?_, fun k hk => ⟨?_, ?_⟩, fun k step next hstep hnext => ?_, ?_, ?_, fun n => ?_,
    fun settings step => starts_at_zero⟩
  · rw [hsteps, length_steps, poses, Plan.length_poses]
  · rw [hget, if_pos hk]
    rfl
  · rw [Plan.getElem?_times, if_pos hk]
  · rw [poses, Plan.getElem?_poses, if_pos hk]
    rfl
  · rw [hget] at hstep hnext
    obtain ⟨-, hstep⟩ := Option.ite_none_right_eq_some.1 hstep
    obtain ⟨-, hnext⟩ := Option.ite_none_right_eq_some.1 hnext
    rw [← Option.some.inj hstep, ← Option.some.inj hnext]
  · rw [hsteps, map_fst_steps]
  · rw [hsteps, map_snd_steps]
  · rw [Plan.call_after, hsteps]
    rfl

end Sampler

end Gait
