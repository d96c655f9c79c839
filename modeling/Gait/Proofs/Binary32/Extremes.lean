import Mathlib
import Gait.Proofs.Binary32.Zeros

/-!
# The least and the greatest of several numbers

The least of several numbers is found by keeping the better of two, one after the other, and so is the greatest. A number that is
none is not even as good as itself and gives way to any other, so what is kept is a number if any of them is one, and is then as
good as all of those (`best_foldl_better`). Which one is kept depends on the order only as far as several are equally good
(`Best.equivalent`); of binary32 numbers these are alike (`IsOrder.alike_of_best`).
-/

namespace Gait

/-! ## The better of two -/

section Better

variable {α : Type} {R : α → α → Prop} {a b x y : α} {xs ys : List α}

/-- As good as: of any two that are as good as themselves one is as good as the other, and no others compare. -/
structure IsPreference (R : α → α → Prop) : Prop where
  trans {a b c : α} : R a b → R b c → R a c
  left {a b : α} : R a b → R a a
  right {a b : α} : R a b → R b b
  total {a b : α} : R a a → R b b → R a b ∨ R b a

theorem IsPreference.flip (h : IsPreference R) : IsPreference fun a b => R b a where
  trans hab hbc := h.trans hbc hab
  left hab := h.right hab
  right hab := h.left hab
  total ha hb := (h.total ha hb).symm

/-- One of several, and as good as all of them that are as good as themselves. -/
def Best (R : α → α → Prop) (xs : List α) (x : α) : Prop := x ∈ xs ∧ ∀ y ∈ xs, R y y → R x y

/-- If any of several is as good as itself, the best is. -/
theorem Best.self (h : IsPreference R) (hx : Best R xs x) (hy : y ∈ xs) (hself : R y y) : R x x := h.left (hx.2 y hy hself)

/-- Two bests of the same are equally good, or neither is as good as itself. -/
theorem Best.equivalent (h : IsPreference R) (hx : Best R xs x) (hy : Best R ys y) (hsame : ∀ z, z ∈ xs ↔ z ∈ ys) :
    R x y ∧ R y x ∨ ¬R x x ∧ ¬R y y := by
  by_cases hself : R y y
  · have hxy := hx.2 y ((hsame y).2 hy.1) hself
    exact Or.inl ⟨hxy, hy.2 x ((hsame x).1 hx.1) (h.left hxy)⟩
  · exact Or.inr ⟨fun hxx => hself (h.left (hy.2 x ((hsame x).1 hx.1) hxx)), hself⟩

variable [DecidableRel R]

/-- The better of two: the first unless the second is better, or is alone as good as itself. -/
def better (R : α → α → Prop) [DecidableRel R] (a b : α) : α := if R a b ∨ ¬R b b then a else b

/-- The first is kept if it is as good as the second, should that be as good as itself. -/
theorem better_eq_left (h : R b b → R a b) : better R a b = a := if_pos (or_iff_not_imp_right.2 fun hb => h (not_not.1 hb))

theorem best_better (h : IsPreference R) (a b : α) : Best R [a, b] (better R a b) := by
  unfold better
  split_ifs with hkeep
  · refine ⟨List.mem_cons_self, ?_⟩
    simp only [List.mem_cons, List.not_mem_nil, or_false, forall_eq_or_imp, forall_eq]
    exact ⟨id, fun hb => hkeep.resolve_right (not_not_intro hb)⟩
  · rw [not_or, not_not] at hkeep
    refine ⟨List.mem_cons_of_mem _ List.mem_cons_self, ?_⟩
    simp only [List.mem_cons, List.not_mem_nil, or_false, forall_eq_or_imp, forall_eq]
    exact ⟨fun ha => (h.total ha hkeep.2).resolve_left hkeep.1, id⟩

/-- Keeping the better of two, one after the other, keeps the best of all. -/
theorem best_foldl_better (h : IsPreference R) (a : α) (xs : List α) : Best R (a :: xs) (xs.foldl (better R) a) := by
  induction xs generalizing a with
  | nil =>
    refine ⟨List.mem_singleton_self a, ?_⟩
    intro y hy hself
    obtain rfl := List.mem_singleton.1 hy
    exact hself
  | cons b xs ih =>
    obtain ⟨hmem, hbest⟩ := ih (better R a b)
    obtain ⟨hpair, hbetter⟩ := best_better h a b
    rw [List.foldl_cons]
    constructor
    · rcases List.mem_cons.1 hmem with heq | hmem
      · rw [heq]
        rcases List.mem_pair.1 hpair with hab | hab <;> simp [hab]
      · simp [hmem]
    · -- the better of the first two is as good as either, and what is kept in the end is as good as it
      have hfirst : ∀ y ∈ [a, b], R y y → R (xs.foldl (better R) (better R a b)) y := by
        intro y hy hself
        have hle := hbetter y hy hself
        exact h.trans (hbest _ List.mem_cons_self (h.left hle)) hle
      intro y hy hself
      rcases List.mem_cons.1 hy with rfl | hy
      · exact hfirst _ List.mem_cons_self hself
      · rcases List.mem_cons.1 hy with rfl | hy
        · exact hfirst _ (List.mem_cons_of_mem _ List.mem_cons_self) hself
        · exact hbest y (List.mem_cons_of_mem _ hy) hself

end Better

/-! ## The least and the greatest -/

namespace Binary32

variable {R : Float32 → Float32 → Prop} {x y : Float32} {xs ys : List Float32}

theorem min_eq_better : (Scalar.min : Float32 → Float32 → Float32) = better (· ≤ ·) := rfl

theorem max_eq_better : (Scalar.max : Float32 → Float32 → Float32) = better (· ≥ ·) := rfl

/-- One of the two orders of numbers, upwards or downwards. -/
structure IsOrder (R : Float32 → Float32 → Prop) : Prop extends IsPreference R where
  self_iff {x : Float32} : R x x ↔ ¬IsNaN x
  alike {x y : Float32} : R x y → R y x → Alike x y

/-- A number is at most itself, unless it is none. -/
theorem le_self_iff : x ≤ x ↔ ¬IsNaN x :=
  ⟨fun h => (not_isNaN_of_le h).1, fun h => (le_iff_place h h).mpr le_rfl⟩

/-- Numbers that are each at most the other compare as equal. -/
theorem alike_of_le_of_le (hxy : x ≤ y) (hyx : y ≤ x) : Alike x y := by
  obtain ⟨hx, hy⟩ := not_isNaN_of_le hxy
  rw [le_iff_place hx hy] at hxy
  rw [le_iff_place hy hx] at hyx
  rcases compare_places hx hy with ⟨hlt, -⟩ | ⟨-, hc⟩ | ⟨hlt, -⟩
  · exact absurd hyx (not_le.mpr hlt)
  · exact Or.inr (beq_iff_compare.mpr hc)
  · exact absurd hxy (not_le.mpr hlt)

theorem isOrder_le : IsOrder (· ≤ ·) where
  trans hab hbc := IsTrans.trans _ _ _ hab hbc
  left h := le_self_iff.mpr (not_isNaN_of_le h).1
  right h := le_self_iff.mpr (not_isNaN_of_le h).2
  total ha hb := by
    rw [le_self_iff] at ha hb
    rw [le_iff_place ha hb, le_iff_place hb ha]
    exact le_total _ _
  self_iff := le_self_iff
  alike := alike_of_le_of_le

theorem isOrder_ge : IsOrder (· ≥ ·) where
  toIsPreference := isOrder_le.flip
  self_iff := le_self_iff
  alike hxy hyx := alike_of_le_of_le hyx hxy

/-- The best is none if and only if all of them are none. -/
theorem IsOrder.isNaN_iff (h : IsOrder R) (hx : Best R xs x) : IsNaN x ↔ ∀ y ∈ xs, IsNaN y := by
  constructor
  · intro hnan y hy
    by_contra hnum
    exact h.self_iff.mp (hx.self h.toIsPreference hy (h.self_iff.mpr hnum)) hnan
  · exact fun hall => hall x hx.1

/-- The best of the same numbers is the same, up to the sign of a zero. -/
theorem IsOrder.alike_of_best (h : IsOrder R) (hx : Best R xs x) (hy : Best R ys y) (hsame : ∀ z, z ∈ xs ↔ z ∈ ys) :
    Alike x y := by
  rcases hx.equivalent h.toIsPreference hy hsame with ⟨hxy, hyx⟩ | ⟨hxx, hyy⟩
  · exact h.alike hxy hyx
  · rw [h.self_iff, not_not] at hxx hyy
    exact Or.inl (parts_injective (hxx.trans hyy.symm))

end Binary32

end Gait
