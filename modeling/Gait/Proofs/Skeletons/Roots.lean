import Mathlib
import Gait.Proofs.Skeletons.Descendants

/-!
# Roots and their subtrees

From a joint the steps from parent to parent either come to an end, which is a root and the only one that the joint is under,
or they go round a cycle for ever. So the subtrees of the roots are disjoint and hold exactly the joints whose walk enters no
cycle; their sizes add up to the number of these joints, which is the number of all joints only in a skeleton without cycles
(`roots_partition`). The main root is the first of the roots with the most joints below them
(`mainRoot?_eq_some_iff_first_largest`).
-/

namespace Gait

namespace Skeleton

variable {s : Skeleton} {i j p c r r' m n : Nat}

/-! ## At or below a joint -/

/-- Zero or more steps from parent to parent lead from `i` to `j`. -/
def AtOrBelow (s : Skeleton) (i j : Nat) : Prop := i = j ∨ s.Below i j

/-- The steps from parent to parent come to a joint on a cycle. -/
def EntersCycle (s : Skeleton) (i : Nat) : Prop := ∃ c, s.AtOrBelow i c ∧ s.OnCycle c

theorem atOrBelow_iff_ancestor? : s.AtOrBelow i j ↔ ∃ n, s.ancestor? n i = some j := by
  rw [AtOrBelow, below_iff_ancestor?]
  constructor
  · rintro (rfl | ⟨n, hn⟩)
    · exact ⟨0, rfl⟩
    · exact ⟨n + 1, hn⟩
  · rintro ⟨_ | n, hn⟩
    · exact Or.inl (Option.some.inj hn)
    · exact Or.inr ⟨n, hn⟩

/-! ## A walk ends at one root or goes round a cycle -/

/-- No step leads on from a root. -/
theorem ancestor?_root (hr : r ∈ s.roots) (n : Nat) : s.ancestor? (n + 1) r = none := by
  rw [ancestor?_succ, (mem_roots.1 hr).2]
  rfl

/-- A walk that is at a root after `n` steps takes no further step. -/
theorem le_of_ancestor?_root (hr : r ∈ s.roots) (h : s.ancestor? n i = some r) (hm : (s.ancestor? m i).isSome) :
    m ≤ n := by
  by_contra hlt
  rw [show m = n + (m - n - 1 + 1) by omega, ancestor?_add, h, Option.bind_some, ancestor?_root hr] at hm
  exact absurd hm (by simp)

/-- A joint is at or below one root at most. -/
theorem AtOrBelow.root_unique (hr : r ∈ s.roots) (hr' : r' ∈ s.roots) (h : s.AtOrBelow i r) (h' : s.AtOrBelow i r') :
    r = r' := by
  obtain ⟨n, hn⟩ := atOrBelow_iff_ancestor?.1 h
  obtain ⟨n', hn'⟩ := atOrBelow_iff_ancestor?.1 h'
  have hle : n' ≤ n := le_of_ancestor?_root hr hn (by rw [hn']; rfl)
  have hge : n ≤ n' := le_of_ancestor?_root hr' hn' (by rw [hn]; rfl)
  obtain rfl : n = n' := Nat.le_antisymm hge hle
  exact Option.some.inj (hn.symm.trans hn')

/-- From a joint on a cycle any number of steps leads on. -/
theorem OnCycle.isSome_ancestor? (h : s.OnCycle c) (m : Nat) : (s.ancestor? m c).isSome := by
  obtain ⟨n, hn, hc⟩ := h
  induction m using Nat.strong_induction_on with
  | h m ih =>
    rcases Nat.le_total m n with hle | hge
    · exact isSome_ancestor?_of_le hle (by rw [hc]; rfl)
    · -- one round of the cycle less leads to the same joint
      rw [← Nat.add_sub_cancel' hge, ancestor?_add, hc, Option.bind_some]
      exact ih (m - n) (by omega)

/-- A joint whose walk enters a cycle is under no root. -/
theorem EntersCycle.not_atOrBelow_root (h : s.EntersCycle i) (hr : r ∈ s.roots) : ¬s.AtOrBelow i r := by
  intro hir
  obtain ⟨c, hic, hc⟩ := h
  obtain ⟨k, hk⟩ := atOrBelow_iff_ancestor?.1 hic
  obtain ⟨n, hn⟩ := atOrBelow_iff_ancestor?.1 hir
  have hon : (s.ancestor? (k + (n + 1)) i).isSome := by
    rw [ancestor?_add, hk, Option.bind_some]
    exact hc.isSome_ancestor? (n + 1)
  have hle : k + (n + 1) ≤ n := le_of_ancestor?_root hr hn hon
  omega

/-- What a joint's parent is at or below, the joint is below. -/
theorem below_of_parent (hp : s.parent? i = some p) (h : s.AtOrBelow p j) : s.Below i j := by
  rcases h with rfl | h
  · exact .parent hp
  · exact .step hp h

/-- A walk that comes to an end is at a root then. -/
theorem exists_root_of_ancestor?_eq_none (hi : i < s.size) (h : s.ancestor? n i = none) :
    ∃ r ∈ s.roots, s.AtOrBelow i r := by
  induction n generalizing i with
  | zero => cases h
  | succ n ih =>
    cases hp : s.parent? i with
    | none => exact ⟨i, mem_roots.2 ⟨hi, hp⟩, Or.inl rfl⟩
    | some p =>
      rw [ancestor?_succ, hp, Option.bind_some] at h
      obtain ⟨r, hr, hpr⟩ := ih (parent?_lt hp).2 h
      exact ⟨r, hr, Or.inr (below_of_parent hp hpr)⟩

/-- The walk from a joint comes to a root or enters a cycle. -/
theorem exists_root_or_entersCycle (hi : i < s.size) : (∃ r ∈ s.roots, s.AtOrBelow i r) ∨ s.EntersCycle i := by
  cases hlong : s.ancestor? s.size i with
  | none => exact Or.inl (exists_root_of_ancestor?_eq_none hi hlong)
  | some a =>
    -- some joint is come to twice, after `m` and after `m + (k + 1)` steps, so it is below itself
    right
    have hsome : (s.ancestor? s.size i).isSome := by rw [hlong]; rfl
    obtain ⟨m, n, hmn, hn, heq⟩ := exists_ancestor?_eq hi hsome
    obtain ⟨k, rfl⟩ : ∃ k, n = m + (k + 1) := Nat.exists_eq_add_of_lt hmn
    obtain ⟨c, hc⟩ := Option.isSome_iff_exists.1 (isSome_ancestor?_of_le hn hsome)
    rw [hc] at heq
    rw [ancestor?_add, heq, Option.bind_some] at hc
    exact ⟨c, atOrBelow_iff_ancestor?.2 ⟨m, heq⟩, onCycle_iff.2 (below_iff_ancestor?.2 ⟨k, hc⟩)⟩

/-! ## The subtrees of the roots -/

/-- The joints at or below a joint. -/
def subtree (s : Skeleton) (r : Nat) : Finset Nat := (Finset.range s.size).filter fun i => i = r ∨ s.isBelow i r = true

theorem mem_subtree : i ∈ s.subtree r ↔ i < s.size ∧ s.AtOrBelow i r := by
  rw [subtree, Finset.mem_filter, Finset.mem_range, isBelow_iff]
  rfl

/-- The subtree of a root is the root and its descendants, and the root is none of these. -/
theorem card_subtree (hr : r ∈ s.roots) : (s.subtree r).card = 1 + s.numDescendants r := by
  have hself : r ∉ (Finset.range s.size).filter fun i => s.isBelow i r = true := by
    intro hmem
    obtain ⟨n, hn⟩ := below_iff_ancestor?.1 (isBelow_iff.1 (Finset.mem_filter.1 hmem).2)
    rw [ancestor?_root hr] at hn
    cases hn
  have hinsert : s.subtree r = insert r ((Finset.range s.size).filter fun i => s.isBelow i r = true) := by
    ext i
    simp only [subtree, Finset.mem_filter, Finset.mem_insert, Finset.mem_range]
    constructor
    · rintro ⟨hi, rfl | hbelow⟩
      · exact Or.inl rfl
      · exact Or.inr ⟨hi, hbelow⟩
    · rintro (rfl | ⟨hi, hbelow⟩)
      · exact ⟨(mem_roots.1 hr).1, Or.inl rfl⟩
      · exact ⟨hi, Or.inr hbelow⟩
  rw [hinsert, Finset.card_insert_of_notMem hself, numDescendants_eq_card, Nat.add_comm]

/-- The subtrees of two roots have no joint in common. -/
theorem disjoint_subtree (hr : r ∈ s.roots) (hr' : r' ∈ s.roots) (hne : r ≠ r') :
    Disjoint (s.subtree r) (s.subtree r') := by
  rw [Finset.disjoint_left]
  intro i hi hi'
  exact hne ((mem_subtree.1 hi).2.root_unique hr hr' (mem_subtree.1 hi').2)

theorem nodup_roots (s : Skeleton) : s.roots.Nodup := List.nodup_range.filter _

/-- The joints under the roots. -/
def rooted (s : Skeleton) : Finset Nat := s.roots.toFinset.biUnion s.subtree

theorem mem_rooted : i ∈ s.rooted ↔ i < s.size ∧ ∃ r ∈ s.roots, s.AtOrBelow i r := by
  simp only [rooted, Finset.mem_biUnion, List.mem_toFinset, mem_subtree]
  constructor
  · rintro ⟨r, hr, hi, h⟩
    exact ⟨hi, r, hr, h⟩
  · rintro ⟨hi, r, hr, h⟩
    exact ⟨r, hr, hi, h⟩

/-- The sizes of the roots' subtrees add up to the number of joints under roots. -/
theorem sum_roots_eq_card (s : Skeleton) : (s.roots.map fun r => 1 + s.numDescendants r).sum = s.rooted.card := by
  have hdisjoint : (s.roots.toFinset : Set Nat).PairwiseDisjoint s.subtree := by
    intro r hr r' hr' hne
    exact disjoint_subtree (List.mem_toFinset.1 hr) (List.mem_toFinset.1 hr') hne
  rw [rooted, Finset.card_biUnion hdisjoint, ← List.sum_toFinset _ s.nodup_roots]
  exact Finset.sum_congr rfl fun r hr => (card_subtree (List.mem_toFinset.1 hr)).symm

/-- All joints are under roots if and only if there is no cycle. -/
theorem rooted_eq_range_iff : s.rooted = Finset.range s.size ↔ ∀ c, ¬s.OnCycle c := by
  constructor
  · intro h c hc
    have hmem : c ∈ s.rooted := h ▸ Finset.mem_range.2 (onCycle_iff.1 hc).lt.1
    obtain ⟨-, r, hr, hcr⟩ := mem_rooted.1 hmem
    exact EntersCycle.not_atOrBelow_root ⟨c, Or.inl rfl, hc⟩ hr hcr
  · intro h
    ext i
    rw [mem_rooted, Finset.mem_range]
    refine ⟨fun hi => hi.1, fun hi => ⟨hi, ?_⟩⟩
    rcases exists_root_or_entersCycle hi with hroot | ⟨c, -, hc⟩
    · exact hroot
    · exact absurd hc (h c)

/-- Every joint is under exactly one root, or under none because its walk enters a cycle. The sizes of the roots' subtrees add
up to the number of the joints under roots, so to at most the number of joints, and to this number if and only if there is
no cycle. -/
theorem roots_partition (s : Skeleton) :
    (∀ i < s.size,
        ((∃! r, r ∈ s.roots ∧ s.AtOrBelow i r) ∧ ¬s.EntersCycle i) ∨
          ((∀ r ∈ s.roots, ¬s.AtOrBelow i r) ∧ s.EntersCycle i)) ∧
      (s.roots.map fun r => 1 + s.numDescendants r).sum = {i | i < s.size ∧ ∃ r ∈ s.roots, s.AtOrBelow i r}.ncard ∧
      (s.roots.map fun r => 1 + s.numDescendants r).sum ≤ s.size ∧
      ((s.roots.map fun r => 1 + s.numDescendants r).sum = s.size ↔ ∀ c, ¬s.OnCycle c) := by
  have hsubset : s.rooted ⊆ Finset.range s.size := fun i hi => Finset.mem_range.2 (mem_rooted.1 hi).1
  refine ⟨fun i hi => ?_, ?_, ?_, ?_⟩
  · rcases exists_root_or_entersCycle hi with ⟨r, hr, hir⟩ | hcycle
    · left
      refine ⟨⟨r, ⟨hr, hir⟩, fun r' h' => h'.2.root_unique h'.1 hr hir⟩, fun hcycle => ?_⟩
      exact hcycle.not_atOrBelow_root hr hir
    · exact Or.inr ⟨fun r hr => hcycle.not_atOrBelow_root hr, hcycle⟩
  · have hset : {i | i < s.size ∧ ∃ r ∈ s.roots, s.AtOrBelow i r} = (s.rooted : Set Nat) :=
      Set.ext fun i => mem_rooted.symm
    rw [sum_roots_eq_card, hset, Set.ncard_coe_finset]
  · rw [sum_roots_eq_card]
    exact (Finset.card_le_card hsubset).trans_eq (Finset.card_range s.size)
  · rw [sum_roots_eq_card, ← rooted_eq_range_iff]
    constructor
    · intro hcard
      exact Finset.eq_of_subset_of_card_le hsubset (by rw [Finset.card_range, hcard])
    · intro hall
      rw [hall, Finset.card_range]

/-! ## The main root -/

/-- The main root is the first root that maximises the number of descendants. -/
theorem mainRoot?_eq_argmax (s : Skeleton) : s.mainRoot? = s.roots.argmax s.numDescendants := by
  have hstep : s.larger = List.argAux fun r b => s.numDescendants b < s.numDescendants r := by
    funext best root
    cases best <;> rfl
  rw [mainRoot?, hstep]
  rfl

/-- In an ascending list the smaller of two elements comes first. -/
theorem idxOf_le_idxOf_iff {l : List Nat} (hl : l.Pairwise (· < ·)) {a b : Nat} (ha : a ∈ l) (hb : b ∈ l) :
    l.idxOf a ≤ l.idxOf b ↔ a ≤ b := by
  have hlt {a b : Nat} (ha : a ∈ l) (hb : b ∈ l) (h : l.idxOf a < l.idxOf b) : a < b := by
    have hpair := List.pairwise_iff_getElem.1 hl _ _ (List.idxOf_lt_length_iff.2 ha) (List.idxOf_lt_length_iff.2 hb) h
    rwa [List.getElem_idxOf, List.getElem_idxOf] at hpair
  constructor
  · intro h
    rcases Nat.lt_or_eq_of_le h with h | h
    · exact (hlt ha hb h).le
    · exact ((List.idxOf_inj ha).1 h).le
  · intro h
    by_contra hgt
    exact absurd (hlt hb ha (Nat.lt_of_not_le hgt)) (by omega)

theorem pairwise_roots (s : Skeleton) : s.roots.Pairwise (· < ·) := List.pairwise_lt_range.filter _

/-- There is no root if and only if every joint has a parent: another joint. -/
theorem roots_eq_nil_iff : s.roots = [] ↔ ∀ i < s.size, ∃ p, s.parent? i = some p := by
  rw [List.eq_nil_iff_forall_not_mem]
  refine forall_congr' fun i => ?_
  rw [mem_roots, not_and, ← ne_eq, Option.ne_none_iff_exists']

/-- A skeleton with joints and without cycles has a root. -/
theorem roots_ne_nil (hsize : 0 < s.size) (h : ∀ c, ¬s.OnCycle c) : s.roots ≠ [] := by
  rcases exists_root_or_entersCycle hsize with ⟨r, hr, -⟩ | ⟨c, -, hc⟩
  · exact List.ne_nil_of_mem hr
  · exact absurd hc (h c)

theorem mainRoot?_eq_none_iff : s.mainRoot? = none ↔ s.roots = [] := by
  rw [mainRoot?_eq_argmax, List.argmax_eq_none]

/-- The main root is the root with the most descendants, the first of them if there are several. There is none only if there is
no root at all, that is, if there are no joints or each has another one for its parent; so every skeleton with joints and
without cycles has one. -/
theorem mainRoot?_eq_some_iff_first_largest (s : Skeleton) :
    (∀ j, s.mainRoot? = some j ↔
        (j < s.size ∧ s.parent? j = none) ∧ (∀ r ∈ s.roots, s.numDescendants r ≤ s.numDescendants j) ∧
          ∀ r ∈ s.roots, r < j → s.numDescendants r < s.numDescendants j) ∧
      (s.mainRoot? = none ↔ s.roots = []) ∧
      (s.mainRoot? = none ↔ s.size = 0 ∨
        ∀ i < s.size, ∃ joint p, s.joint? i = some joint ∧ joint.parent = some p ∧ p < s.size ∧ p ≠ i) ∧
      (0 < s.size → (∀ c, ¬s.OnCycle c) → ∃ j, s.mainRoot? = some j) := by
  refine ⟨fun j => ?_, mainRoot?_eq_none_iff, ?_, fun hsize hacyclic => ?_⟩
  · rw [mainRoot?_eq_argmax, List.argmax_eq_some_iff, ← mem_roots]
    refine and_congr_right fun hj => and_congr_right fun _ => forall₂_congr fun r hr => ?_
    -- the order of two roots in the list is that of their numbers
    rw [idxOf_le_idxOf_iff s.pairwise_roots hj hr, ← not_imp_not, Nat.not_le, Nat.not_le]
  · rw [mainRoot?_eq_none_iff, roots_eq_nil_iff]
    simp only [parent?_eq_some_iff]
    constructor
    · intro h
      refine Or.inr fun i hi => ?_
      obtain ⟨p, ⟨joint, hjoint, hp⟩, hvalid⟩ := h i hi
      exact ⟨joint, p, hjoint, hp, hvalid⟩
    · rintro (h | h) i hi
      · omega
      · obtain ⟨joint, p, hjoint, hp, hvalid⟩ := h i hi
        exact ⟨p, ⟨joint, hjoint, hp⟩, hvalid⟩
  · exact Option.ne_none_iff_exists'.1 fun h => roots_ne_nil hsize hacyclic (mainRoot?_eq_none_iff.1 h)

/-- Of three roots with nothing below them, one without a parent, one whose parent is not there and one that is its own parent,
the first is the main root. -/
example : (Skeleton.mk #[⟨"hip", none⟩, ⟨"prop", some 7⟩, ⟨"loop", some 2⟩]).mainRoot? = some 0 := by decide

end Skeleton

end Gait
