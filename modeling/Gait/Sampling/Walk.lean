import Gait.Sampling.Plan

/-!
# Walks

Features look at a motion a step at a time: at the pose that they saw last and at the next one. A walk over the samples of a plan
remembers the one and visits the other, each time it is called, so no pose is worked out twice. Whoever walks goes on up to the
first call that is not answered.
-/

namespace Gait

/-- How far a walk has come: the number of the sample that it visits next, and the pose that it has seen last. -/
structure Walk (β : Type) where
  next : Nat
  seen : Option β

namespace Plan

variable {α β γ : Type} [Scalar α] (p : Plan α) (pose : α → β)

/-- What a motion is at the sample with a number. -/
def poseAt (i : Nat) : β := pose (Scalar.ofNat i * p.step)

/-- The pose at a sample, if the plan takes so many, with the number of the sample to visit after it. -/
def visit (i : Nat) : Option β × Nat :=
  if i < p.count.toNat then (some (p.poseAt pose i), i + 1) else (none, i)

variable {p} in
theorem visit_of_lt {i : Nat} (h : i < p.count.toNat) : p.visit pose i = (some (p.poseAt pose i), i + 1) := if_pos h

variable {p} in
theorem visit_of_le {i : Nat} (h : p.count.toNat ≤ i) : p.visit pose i = (none, i) := if_neg (Nat.not_lt.2 h)

/-- The walk that sets out: it has visited the first sample, so that the first call has a pose to start from. -/
def setOut : Walk β :=
  match p.visit pose 0 with
  | (first, next) => ⟨next, first⟩

/-- One call: the next pose is visited and remembered in place of the one seen last, and the answer is the two of them. There is no
answer where no sample is left, nor where no pose was remembered. -/
def call (w : Walk β) : Option (β × β) × Walk β :=
  match p.visit pose w.next with
  | (none, next) => (none, ⟨next, w.seen⟩)
  | (some current, next) => (w.seen.map fun previous => (previous, current), ⟨next, some current⟩)

variable {p pose} in
/-- A call that is answered has visited a sample. -/
theorem next_of_call {w w' : Walk β} {step : β × β} (h : p.call pose w = (some step, w')) :
    w.next < p.count.toNat ∧ w'.next = w.next + 1 := by
  rcases Nat.lt_or_ge w.next p.count.toNat with hnext | hnext
  · rw [call, visit_of_lt pose hnext] at h
    exact ⟨hnext, by rw [← (Prod.mk.inj h).2]⟩
  · rw [call, visit_of_le pose hnext] at h
    cases (Prod.mk.inj h).1

/-- What the answers of a walk come to, each put to those before it, up to the first call without one. -/
def gather (f : γ → β × β → γ) (sofar : γ) (w : Walk β) : γ :=
  match _hcall : p.call pose w with
  | (none, _) => sofar
  | (some step, w') => gather f (f sofar step) w'
termination_by p.count.toNat - w.next
decreasing_by
  obtain ⟨hlt, hnext⟩ := next_of_call _hcall
  omega

/-- The answers of a walk, from when it sets out. -/
def walk : List (β × β) := (p.gather pose Array.push #[] (p.setOut pose)).toList

end Plan

end Gait
