import Mathlib
import Gait.Skeleton

/-!
# Counting descendants

`numDescendants` walks from every joint to its parent, to that one's parent and so on, and gives each walk as many steps as
there are joints. Parents may be arranged in any way, cycles included, so a walk need not come to an end by itself; the bound
still hides no ancestor, because an ancestor that any walk meets is met before a joint is come to twice
(`exists_ancestor?_of_size_le`, by the pigeonhole principle).
-/

namespace Gait

namespace Skeleton

variable {s : Skeleton} {i j p m n : Nat}

/-! ## Ancestors by their distance -/

/-- The joint that so many steps from parent to parent lead to; no step leads away from the joint itself. -/
def ancestor? (s : Skeleton) : (steps i : Nat) → Option Nat
  | 0, i => some i
  | steps + 1, i => (s.parent? i).bind (s.ancestor? steps)

@[simp] theorem ancestor?_zero (s : Skeleton) (i : Nat) : s.ancestor? 0 i = some i := rfl

theorem ancestor?_succ (s : Skeleton) (n i : Nat) : s.ancestor? (n + 1) i = (s.parent? i).bind (s.ancestor? n) := rfl

@[simp] theorem ancestor?_one (s : Skeleton) (i : Nat) : s.ancestor? 1 i = s.parent? i := by
  rw [ancestor?_succ]
  cases s.parent? i <;> rfl

/-- Steps may be taken in two portions. -/
theorem ancestor?_add (s : Skeleton) (m n i : Nat) : s.ancestor? (m + n) i = (s.ancestor? m i).bind (s.ancestor? n) := by
  induction m generalizing i with
  | zero => rw [Nat.zero_add, ancestor?_zero, Option.bind_some]
  | succ m ih =>
    rw [Nat.add_right_comm, ancestor?_succ, ancestor?_succ]
    cases s.parent? i with
    | none => rfl
    | some p => exact ih p

/-- Where some number of steps leads on, so does every smaller one. -/
theorem isSome_ancestor?_of_le (hle : m ≤ n) (h : (s.ancestor? n i).isSome) : (s.ancestor? m i).isSome := by
  rw [← Nat.add_sub_cancel' hle, ancestor?_add] at h
  cases hm : s.ancestor? m i with
  | none => rw [hm] at h; exact h
  | some a => rfl

/-- A joint's parent is a joint. -/
theorem parent?_lt (h : s.parent? i = some p) : i < s.size ∧ p < s.size := by
  obtain ⟨⟨joint, hjoint, -⟩, hp, -⟩ := parent?_eq_some_iff.1 h
  exact ⟨(Array.getElem?_eq_some_iff.1 hjoint).1, hp⟩

/-- A walk that starts at a joint comes to joints only. -/
theorem ancestor?_lt (hi : i < s.size) (h : s.ancestor? n i = some j) : j < s.size := by
  induction n generalizing i with
  | zero => exact Option.some.inj h ▸ hi
  | succ n ih =>
    rw [ancestor?_succ] at h
    obtain ⟨p, hp, hj⟩ := Option.bind_eq_some_iff.1 h
    exact ih (parent?_lt hp).2 hj

/-- A joint is below those that one or more steps lead to. -/
theorem below_iff_ancestor? : s.Below i j ↔ ∃ n, s.ancestor? (n + 1) i = some j := by
  constructor
  · intro h
    induction h with
    | parent hp => exact ⟨0, by rw [ancestor?_one, hp]⟩
    | step hp _ ih =>
      obtain ⟨n, hn⟩ := ih
      exact ⟨n + 1, by rw [ancestor?_succ, hp, Option.bind_some, hn]⟩
  · rintro ⟨n, hn⟩
    induction n generalizing i with
    | zero => exact .parent (by rwa [ancestor?_one] at hn)
    | succ n ih =>
      rw [ancestor?_succ] at hn
      obtain ⟨p, hp, hj⟩ := Option.bind_eq_some_iff.1 hn
      exact .step hp (ih hj)

/-- Only joints are below anything, and only below joints. -/
theorem Below.lt (h : s.Below i j) : i < s.size ∧ j < s.size := by
  induction h with
  | parent hp => exact parent?_lt hp
  | step hp _ ih => exact ⟨(parent?_lt hp).1, ih.2⟩

/-! ## As many steps as there are joints are enough -/

/-- A walk that goes on for as many steps as there are joints comes to some joint twice. -/
theorem exists_ancestor?_eq (hi : i < s.size) (h : (s.ancestor? s.size i).isSome) :
    ∃ m n, m < n ∧ n ≤ s.size ∧ s.ancestor? m i = s.ancestor? n i := by
  have hmaps : Set.MapsTo (s.ancestor? · i) (Finset.range (s.size + 1)) ((Finset.range s.size).map .some) := by
    intro m hm
    have hle : m ≤ s.size := Nat.lt_succ_iff.1 (Finset.mem_range.1 hm)
    obtain ⟨a, ha⟩ := Option.isSome_iff_exists.1 (isSome_ancestor?_of_le hle h)
    exact Finset.mem_coe.2 (Finset.mem_map.2 ⟨a, Finset.mem_range.2 (ancestor?_lt hi ha), ha.symm⟩)
  obtain ⟨m, hm, n, hn, hne, heq⟩ := Finset.exists_ne_map_eq_of_card_lt_of_maps_to (by simp) hmaps
  rw [Finset.mem_range, Nat.lt_succ_iff] at hm hn
  rcases Nat.lt_or_gt_of_ne hne with hlt | hlt
  · exact ⟨m, n, hlt, hn, heq⟩
  · exact ⟨n, m, hlt, hm, heq.symm⟩

/-- An ancestor that is met late is also met earlier: the way between the two visits to a joint can be left out. -/
theorem exists_ancestor?_of_size_le (hn : s.size ≤ n) (h : s.ancestor? (n + 1) i = some j) :
    ∃ m < n, s.ancestor? (m + 1) i = some j := by
  have hi : i < s.size := (below_iff_ancestor?.2 ⟨n, h⟩).lt.1
  have hlong : (s.ancestor? s.size i).isSome := isSome_ancestor?_of_le (by omega : s.size ≤ n + 1) (by rw [h]; rfl)
  obtain ⟨a, b, hab, hb, heq⟩ := exists_ancestor?_eq hi hlong
  refine ⟨a + (n - b), by omega, ?_⟩
  calc s.ancestor? (a + (n - b) + 1) i
      = (s.ancestor? a i).bind (s.ancestor? (n - b + 1)) := by rw [Nat.add_assoc, ancestor?_add]
    _ = s.ancestor? (b + (n - b + 1)) i := by rw [heq, ancestor?_add]
    _ = some j := by rw [show b + (n - b + 1) = n + 1 by omega, h]

/-- Every ancestor is met within as many steps as there are joints. -/
theorem exists_ancestor?_lt_size (h : s.ancestor? (n + 1) i = some j) :
    ∃ m < s.size, s.ancestor? (m + 1) i = some j := by
  induction n using Nat.strong_induction_on with
  | h n ih =>
    rcases Nat.lt_or_ge n s.size with hlt | hge
    · exact ⟨n, hlt, h⟩
    · obtain ⟨m, hm, hj⟩ := exists_ancestor?_of_size_le hge h
      exact ih m hm hj

/-- A walk of so many steps meets the ancestors at most that far away. -/
theorem meets_iff : s.meets j n i = true ↔ ∃ m < n, s.ancestor? (m + 1) i = some j := by
  induction n generalizing i with
  | zero => simp [meets]
  | succ n ih =>
    cases hp : s.parent? i with
    | none => simp [meets, ancestor?_succ, hp]
    | some p =>
      have hsplit : (∃ m < n + 1, s.ancestor? (m + 1) i = some j) ↔ p = j ∨ ∃ m < n, s.ancestor? (m + 1) p = some j := by
        rw [Nat.exists_lt_succ_left]
        simp only [ancestor?_succ s _ i, hp, Option.bind_some, ancestor?_zero, Option.some.injEq]
      rw [hsplit, ← ih]
      simp [meets, hp]

/-- `isBelow` decides `Below`: the bound on the walk hides no ancestor. -/
theorem isBelow_iff : s.isBelow i j = true ↔ s.Below i j := by
  rw [isBelow, meets_iff, below_iff_ancestor?]
  constructor
  · rintro ⟨m, -, hm⟩
    exact ⟨m, hm⟩
  · rintro ⟨n, hn⟩
    exact exists_ancestor?_lt_size hn

/-! ## Cycles -/

/-- Two or more steps from parent to parent lead from a joint back to it. -/
def OnCycle (s : Skeleton) (c : Nat) : Prop := ∃ n, 2 ≤ n ∧ s.ancestor? n c = some c

/-- The joints on a cycle are those below themselves: no joint is its own parent. -/
theorem onCycle_iff : s.OnCycle j ↔ s.Below j j := by
  rw [below_iff_ancestor?]
  constructor
  · rintro ⟨n, hn, hj⟩
    exact ⟨n - 1, by rwa [Nat.sub_add_cancel (by omega)]⟩
  · rintro ⟨_ | n, hj⟩
    · rw [ancestor?_one] at hj
      exact absurd rfl (parent?_eq_some_iff.1 hj).2.2
    · exact ⟨n + 2, by omega, hj⟩

/-! ## The count -/

/-- The count for a joint is over those joints whose walk finds it. -/
theorem numDescendants_eq_card (s : Skeleton) (j : Nat) :
    s.numDescendants j = ((Finset.range s.size).filter fun i => s.isBelow i j = true).card := by
  rw [numDescendants, List.countP_eq_length_filter, ← List.toFinset_card_of_nodup (List.nodup_range.filter _),
    List.toFinset_filter, List.toFinset_range]

/-- The joints whose walk finds a joint are those below it. -/
theorem lt_and_isBelow_iff : (i < s.size ∧ s.isBelow i j = true) ↔ s.Below i j := by
  rw [isBelow_iff]
  exact ⟨fun h => h.2, fun h => ⟨h.lt.1, h⟩⟩

theorem numDescendants_eq_ncard (s : Skeleton) (j : Nat) : s.numDescendants j = {i | s.Below i j}.ncard := by
  have hset : ((Finset.range s.size).filter fun i => s.isBelow i j = true : Set Nat) = {i | s.Below i j} := by
    ext i
    rw [Finset.mem_coe, Finset.mem_filter, Finset.mem_range]
    exact lt_and_isBelow_iff
  rw [numDescendants_eq_card, ← hset, Set.ncard_coe_finset]

/-- The walk of `meets` that breaks off without an answer where it looks up a joint that is not there. -/
def meetsChecked? (s : Skeleton) (target : Nat) : (steps i : Nat) → Option Bool
  | 0, _ => some false
  | steps + 1, i => do
    let _ ← s.joint? i
    match s.parent? i with
    | none => return false
    | some parent => if parent == target then return true else s.meetsChecked? target steps parent

/-- A walk from a joint looks up joints only, however long it is. -/
theorem meetsChecked?_eq_some (hi : i < s.size) (j n : Nat) : s.meetsChecked? j n i = some (s.meets j n i) := by
  induction n generalizing i with
  | zero => rfl
  | succ n ih =>
    obtain ⟨joint, hjoint⟩ : ∃ joint, s.joint? i = some joint := ⟨s.joints[i], Array.getElem?_eq_getElem hi⟩
    rw [meetsChecked?, hjoint, meets]
    cases hp : s.parent? i with
    | none => rfl
    | some p =>
      by_cases hpj : p = j
      · simp [hpj]
      · simp [hpj, ih (parent?_lt hp).2]

/-- The number of descendants of a joint is the number of joints from which one or more steps from parent to parent lead to it,
whatever the parents are. No bound on the steps finds more than the one used, a joint counts itself if it is on a cycle, a
number that no joint has counts nothing, and no walk looks up a joint that is not there. -/
theorem numDescendants_counts_below (s : Skeleton) (j : Nat) :
    s.numDescendants j = {i | s.Below i j}.ncard ∧
      (∀ i, (i < s.size ∧ s.isBelow i j = true) ↔ s.Below i j) ∧
      (∀ i, (∃ n, s.meets j n i = true) ↔ s.isBelow i j = true) ∧
      (s.OnCycle j ↔ j < s.size ∧ s.isBelow j j = true) ∧
      (s.size ≤ j → s.numDescendants j = 0) ∧
      ∀ i < s.size, s.meetsChecked? j s.size i = some (s.isBelow i j) := by
  refine ⟨s.numDescendants_eq_ncard j, fun i => lt_and_isBelow_iff, fun i => ?_, ?_, fun hj => ?_, fun i hi => ?_⟩
  · refine ⟨fun ⟨n, hn⟩ => ?_, fun h => ⟨s.size, h⟩⟩
    obtain ⟨m, -, hm⟩ := meets_iff.1 hn
    exact isBelow_iff.2 (below_iff_ancestor?.2 ⟨m, hm⟩)
  · rw [lt_and_isBelow_iff, onCycle_iff]
  · have hnone : {i | s.Below i j} = ∅ := Set.eq_empty_of_forall_notMem fun i h => absurd h.lt.2 (by omega)
    rw [numDescendants_eq_ncard, hnone, Set.ncard_empty]
  · exact meetsChecked?_eq_some hi j s.size

/-- Two joints that are each other's parent are both below each of them, as is the joint under one of them. -/
example : (Skeleton.mk #[⟨"left", some 1⟩, ⟨"right", some 0⟩, ⟨"finger", some 0⟩]).numDescendants 1 = 3 := by decide

end Skeleton

end Gait
