import Mathlib
import Gait.Proofs.Skeletons.Roots

/-!
# Adding a joint

A joint may name for its parent a number that no joint has yet. When the joint with this number is added, the one that awaited
it stops being a root, and the joints at or below it come to be below the new joint and below all that the new joint is below.
This is all that adding a joint does (`below_addJoint_iff`): no step from parent to parent is lost, so no count of descendants
falls, and where no joint awaits the new one it is a leaf and counts once for each joint it is below (`addJoint_grows`).
-/

namespace Gait

namespace Skeleton

variable {s : Skeleton} {name : String} {parent : Option Nat} {i j k p : Nat}

/-- The joint names for its parent the number that the next joint gets. -/
def Awaits (s : Skeleton) (i : Nat) : Prop := ∃ joint, s.joint? i = some joint ∧ joint.parent = some s.size

/-! ## Parents after adding a joint -/

/-- The valid parents of the joints that were there are kept, and the awaited joint is added to them. -/
theorem parent?_addJoint_of_lt (hi : i < s.size) :
    (s.addJoint name parent).parent? i = some p ↔ s.parent? i = some p ∨ (s.Awaits i ∧ p = s.size) := by
  rw [parent?_eq_some_iff, parent?_eq_some_iff, joint?_addJoint, if_neg hi.ne, size_addJoint]
  constructor
  · rintro ⟨⟨joint, hjoint, hp⟩, hlt, hne⟩
    rcases Nat.lt_succ_iff_lt_or_eq.1 hlt with hlt | rfl
    · exact Or.inl ⟨⟨joint, hjoint, hp⟩, hlt, hne⟩
    · exact Or.inr ⟨⟨joint, hjoint, hp⟩, rfl⟩
  · rintro (⟨hstored, hlt, hne⟩ | ⟨hawaits, rfl⟩)
    · exact ⟨hstored, hlt.trans (Nat.lt_succ_self _), hne⟩
    · exact ⟨hawaits, Nat.lt_succ_self _, hi.ne'⟩

/-- The valid parent of the new joint is the one given for it, if that is a joint that was there. -/
theorem parent?_addJoint_size : (s.addJoint name parent).parent? s.size = some p ↔ parent = some p ∧ p < s.size := by
  rw [parent?_eq_some_iff, joint?_addJoint, if_pos rfl, size_addJoint]
  constructor
  · rintro ⟨⟨joint, hjoint, hp⟩, hlt, hne⟩
    cases hjoint
    exact ⟨hp, by omega⟩
  · rintro ⟨hp, hlt⟩
    exact ⟨⟨_, rfl, hp⟩, hlt.trans (Nat.lt_succ_self _), hlt.ne⟩

/-- A root that awaits no joint stays one, and what was no root becomes none. -/
theorem mem_roots_addJoint_iff (hi : i < s.size) : i ∈ (s.addJoint name parent).roots ↔ i ∈ s.roots ∧ ¬s.Awaits i := by
  rw [mem_roots, mem_roots, size_addJoint, Option.eq_none_iff_forall_ne_some, Option.eq_none_iff_forall_ne_some]
  simp only [ne_eq, parent?_addJoint_of_lt hi, not_or, not_and, hi, hi.trans (Nat.lt_succ_self _), true_and]
  constructor
  · intro h
    exact ⟨fun p => (h p).1, fun hawaits => (h s.size).2 hawaits rfl⟩
  · rintro ⟨hroot, hno⟩ p
    exact ⟨hroot p, fun hawaits => absurd hawaits hno⟩

/-- A joint that awaits the next one is a root until then. -/
theorem Awaits.mem_roots (h : s.Awaits i) : i ∈ s.roots := by
  obtain ⟨joint, hjoint, hparent⟩ := h
  refine Skeleton.mem_roots.2 ⟨(Array.getElem?_eq_some_iff.1 hjoint).1, Option.eq_none_iff_forall_ne_some.2 fun p hp => ?_⟩
  obtain ⟨⟨joint', hjoint', hparent'⟩, hlt, -⟩ := parent?_eq_some_iff.1 hp
  obtain rfl : joint = joint' := Option.some.inj (hjoint.symm.trans hjoint')
  obtain rfl : s.size = p := Option.some.inj (hparent.symm.trans hparent')
  exact lt_irrefl _ hlt

/-! ## What is below what after adding a joint -/

/-- What is below a joint is below everything that this one is at or below. -/
theorem Below.trans_atOrBelow (h : s.Below i j) (h' : s.AtOrBelow j k) : s.Below i k := by
  induction h with
  | parent hp => exact below_of_parent hp h'
  | step hp _ ih => exact .step hp (ih h')

/-- Adding a joint leads no walk astray. -/
theorem Below.addJoint (h : s.Below i j) : (s.addJoint name parent).Below i j := by
  induction h with
  | parent hp => exact .parent ((parent?_addJoint_of_lt (parent?_lt hp).1).2 (Or.inl hp))
  | step hp _ ih => exact .step ((parent?_addJoint_of_lt (parent?_lt hp).1).2 (Or.inl hp)) ih

/-- A joint at or below one that awaits the new joint is below the new joint. -/
theorem Awaits.below_size (ho : s.Awaits j) (h : s.AtOrBelow i j) : (s.addJoint name parent).Below i s.size := by
  have hj : (s.addJoint name parent).Below j s.size :=
    .parent ((parent?_addJoint_of_lt (Skeleton.mem_roots.1 ho.mem_roots).1).2 (Or.inr ⟨ho, rfl⟩))
  rcases h with rfl | h
  · exact hj
  · exact h.addJoint.trans_atOrBelow (Or.inr hj)

/-- A joint that was there is below what it was below and, if its walk ended at a joint that awaited the new one, below the new
joint and all that this one is below. -/
theorem below_addJoint_iff (hi : i < s.size) : (s.addJoint name parent).Below i j ↔
    s.Below i j ∨ (∃ o, s.Awaits o ∧ s.AtOrBelow i o) ∧ (s.addJoint name parent).AtOrBelow s.size j := by
  constructor
  · intro h
    induction h with
    | parent hp =>
      rcases (parent?_addJoint_of_lt hi).1 hp with hp | ⟨hawaits, rfl⟩
      · exact Or.inl (.parent hp)
      · exact Or.inr ⟨⟨_, hawaits, Or.inl rfl⟩, Or.inl rfl⟩
    | step hp hbelow ih =>
      rcases (parent?_addJoint_of_lt hi).1 hp with hp | ⟨hawaits, rfl⟩
      · rcases ih (parent?_lt hp).2 with hold | ⟨⟨o, ho, hpath⟩, hnew⟩
        · exact Or.inl (.step hp hold)
        · exact Or.inr ⟨⟨o, ho, Or.inr (below_of_parent hp hpath)⟩, hnew⟩
      · exact Or.inr ⟨⟨_, hawaits, Or.inl rfl⟩, Or.inr hbelow⟩
  · rintro (hold | ⟨⟨o, ho, hpath⟩, hnew⟩)
    · exact hold.addJoint
    · exact (ho.below_size hpath).trans_atOrBelow hnew

/-- Where no joint awaited the new one, all that is new below a joint is the new joint itself. -/
theorem below_addJoint_iff_of_not_awaits (hno : ∀ i, ¬s.Awaits i) :
    (s.addJoint name parent).Below i j ↔ s.Below i j ∨ (i = s.size ∧ (s.addJoint name parent).Below s.size j) := by
  constructor
  · intro h
    have hi : i < s.size + 1 := by simpa using h.lt.1
    rcases Nat.lt_succ_iff_lt_or_eq.1 hi with hi | rfl
    · rcases (below_addJoint_iff hi).1 h with h | ⟨⟨o, ho, -⟩, -⟩
      · exact Or.inl h
      · exact absurd ho (hno o)
    · exact Or.inr ⟨rfl, h⟩
  · rintro (h | ⟨rfl, h⟩)
    · exact h.addJoint
    · exact h

/-- Nothing is below a joint that none awaited. -/
theorem not_below_size (hno : ∀ i, ¬s.Awaits i) : ¬(s.addJoint name parent).Below i s.size := by
  -- the first step from the new joint leads to one that was there, and from there all steps lead to such joints
  have hnew : ¬(s.addJoint name parent).Below s.size s.size := by
    intro h
    cases h with
    | parent hp => exact lt_irrefl _ (parent?_addJoint_size.1 hp).2
    | step hp h =>
      rcases (below_addJoint_iff_of_not_awaits hno).1 h with h | ⟨rfl, -⟩
      · exact lt_irrefl _ h.lt.2
      · exact lt_irrefl _ (parent?_addJoint_size.1 hp).2
  intro h
  rcases (below_addJoint_iff_of_not_awaits hno).1 h with h | ⟨-, h⟩
  · exact lt_irrefl _ h.lt.2
  · exact hnew h

/-! ## The counts after adding a joint -/

theorem finite_below (s : Skeleton) (j : Nat) : {i | s.Below i j}.Finite :=
  (Set.finite_lt_nat s.size).subset fun _ h => h.lt.1

/-- Where no joint awaited the new one, the count of each joint above the new one rises by one. -/
theorem numDescendants_addJoint_of_below (hno : ∀ i, ¬s.Awaits i) (h : (s.addJoint name parent).Below s.size j) :
    (s.addJoint name parent).numDescendants j = s.numDescendants j + 1 := by
  have hset : {i | (s.addJoint name parent).Below i j} = insert s.size {i | s.Below i j} := by
    ext i
    refine (below_addJoint_iff_of_not_awaits hno).trans ?_
    rw [and_iff_left h, or_comm, Set.mem_insert_iff, Set.mem_ofPred_eq]
  have hnew : s.size ∉ {i | s.Below i j} := fun hmem : s.Below s.size j => lt_irrefl _ hmem.lt.1
  rw [numDescendants_eq_ncard, numDescendants_eq_ncard, hset, Set.ncard_insert_of_notMem hnew (finite_below s j)]

/-- Where no joint awaited the new one, all other counts stay. -/
theorem numDescendants_addJoint_of_not_below (hno : ∀ i, ¬s.Awaits i) (h : ¬(s.addJoint name parent).Below s.size j) :
    (s.addJoint name parent).numDescendants j = s.numDescendants j := by
  have hset : {i | (s.addJoint name parent).Below i j} = {i | s.Below i j} := by
    ext i
    exact (below_addJoint_iff_of_not_awaits hno).trans (or_iff_left fun hi => h hi.2)
  rw [numDescendants_eq_ncard, numDescendants_eq_ncard, hset]

/-- The new joint comes after those that were there: it has the next number and they keep theirs. One of them stops being a root
if and only if it stored that number for its parent, and none becomes a root. No number of descendants falls. If none of them
stored the number, the number of descendants rises by one for each joint that steps from parent to parent lead to from the new
joint, stays for every other, and is zero for the new joint. -/
theorem addJoint_grows (s : Skeleton) (name : String) (parent : Option Nat) :
    ((s.addJoint name parent).size = s.size + 1 ∧ (s.addJoint name parent).joint? s.size = some ⟨name, parent⟩ ∧
      ∀ i < s.size, (s.addJoint name parent).joint? i = s.joint? i) ∧
    (∀ i < s.size,
      ((i ∈ s.roots ∧ i ∉ (s.addJoint name parent).roots) ↔
        ∃ joint, s.joint? i = some joint ∧ joint.parent = some s.size) ∧
      (i ∉ s.roots → i ∉ (s.addJoint name parent).roots)) ∧
    (∀ j < s.size, s.numDescendants j ≤ (s.addJoint name parent).numDescendants j) ∧
    ((¬∃ i joint, s.joint? i = some joint ∧ joint.parent = some s.size) →
      (∀ j < s.size,
        ((s.addJoint name parent).Below s.size j → (s.addJoint name parent).numDescendants j = s.numDescendants j + 1) ∧
        (¬(s.addJoint name parent).Below s.size j → (s.addJoint name parent).numDescendants j = s.numDescendants j)) ∧
      (s.addJoint name parent).numDescendants s.size = 0) := by
  refine ⟨⟨size_addJoint s name parent, ?_, fun i hi => ?_⟩, fun i hi => ⟨?_, fun h hmem => ?_⟩, fun j _ => ?_, fun hnone => ?_⟩
  · rw [joint?_addJoint, if_pos rfl]
  · rw [joint?_addJoint, if_neg hi.ne]
  · rw [mem_roots_addJoint_iff hi, not_and, not_not]
    exact ⟨fun h => h.2 h.1, fun h : s.Awaits i => ⟨h.mem_roots, fun _ => h⟩⟩
  · exact h ((mem_roots_addJoint_iff hi).1 hmem).1
  · rw [numDescendants_eq_ncard, numDescendants_eq_ncard]
    exact Set.ncard_le_ncard (fun i h => h.addJoint) (finite_below _ j)
  · have hno : ∀ i, ¬s.Awaits i := fun i hi => hnone ⟨i, hi⟩
    refine ⟨fun j _ => ⟨numDescendants_addJoint_of_below hno, numDescendants_addJoint_of_not_below hno⟩, ?_⟩
    have hempty : {i | (s.addJoint name parent).Below i s.size} = ∅ :=
      Set.eq_empty_of_forall_notMem fun i => not_below_size hno
    rw [numDescendants_eq_ncard, hempty, Set.ncard_empty]

/-- A shoulder added to a hip and an arm that awaited it brings the arm along: the count of the hip rises by two. -/
example :
    let s : Skeleton := ⟨#[⟨"hip", none⟩, ⟨"arm", some 2⟩]⟩
    s.numDescendants 0 = 0 ∧ (s.addJoint "shoulder" (some 0)).numDescendants 0 = 2 := by decide

end Skeleton

end Gait
