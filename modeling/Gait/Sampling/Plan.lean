import Gait.Transform

/-!
# Evenly spaced samples

A plan says how many samples are taken of a motion and how far apart. The features that look at a whole motion walk over the
steps from each sampled pose to the next.
-/

namespace Gait

/-- So many samples, at zero and at each further multiple of the step. -/
structure Plan (α : Type) where
  step : α
  count : UInt32

namespace Plan

variable {α : Type} [Scalar α]

/-- The plan that takes no samples. -/
def empty : Plan α := ⟨0, 0⟩

/-- The times of the samples. -/
def times (p : Plan α) : List α := (List.range p.count.toNat).map fun i => Scalar.ofNat i * p.step

/-- What a motion is at the times of the samples. -/
def poses {β : Type} (p : Plan α) (pose : α → β) : List β := p.times.map pose

@[simp] theorem length_times (p : Plan α) : p.times.length = p.count.toNat := by simp [times]

@[simp] theorem times_empty : (empty : Plan α).times = [] := rfl

@[simp] theorem length_poses {β : Type} (p : Plan α) (pose : α → β) : (p.poses pose).length = p.count.toNat := by
  simp [poses]

end Plan

/-- The pairs of neighbours in a list, from the first two elements to the last two. -/
def steps {β : Type} (xs : List β) : List (β × β) := xs.zip xs.tail

@[simp] theorem steps_nil {β : Type} : steps ([] : List β) = [] := rfl

@[simp] theorem steps_singleton {β : Type} (a : β) : steps [a] = [] := rfl

@[simp] theorem steps_cons_cons {β : Type} (a b : β) (xs : List β) : steps (a :: b :: xs) = (a, b) :: steps (b :: xs) := rfl

/-- Both ends of a step are elements. -/
theorem mem_of_mem_steps {β : Type} {xs : List β} {p : β × β} (h : p ∈ steps xs) : p.1 ∈ xs ∧ p.2 ∈ xs :=
  ⟨List.of_mem_zip h |>.1, List.mem_of_mem_tail (List.of_mem_zip h).2⟩

theorem length_steps {β : Type} (xs : List β) : (steps xs).length = xs.length - 1 := by
  rw [steps, List.length_zip, List.length_tail]
  exact Nat.min_eq_right (Nat.sub_le _ _)

theorem steps_map {β γ : Type} (f : β → γ) (xs : List β) : steps (xs.map f) = (steps xs).map (Prod.map f f) := by
  rw [steps, steps, ← List.map_tail, List.zip_map]

/-- The steps from pose to pose are those from time to time. -/
theorem Plan.steps_poses {α β : Type} [Scalar α] (p : Plan α) (pose : α → β) :
    steps (p.poses pose) = (steps p.times).map fun step => (pose step.1, pose step.2) := by
  rw [poses, steps_map]
  rfl

end Gait
