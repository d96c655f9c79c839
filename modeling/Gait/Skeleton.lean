/-!
# Skeletons

The joints of a skeleton are numbered from zero in the order they were added, and each may name a parent by number. The number
may be any: one that no joint has (yet) and the joint's own number count as no parent, and a joint without a valid parent is a
root. Parents may form cycles; then the joints on the cycle are below themselves and below no root.
-/

namespace Gait

/-- A joint: its name and the number given for its parent. -/
structure Joint where
  name : String
  parent : Option Nat
  deriving DecidableEq, Repr

/-- Joints by number. -/
structure Skeleton where
  joints : Array Joint
  deriving DecidableEq, Repr

namespace Skeleton

/-- The skeleton without joints. -/
def empty : Skeleton := ⟨#[]⟩

/-- The number of joints, which is the number that the next joint gets. -/
def size (s : Skeleton) : Nat := s.joints.size

/-- The skeleton with one more joint. -/
def addJoint (s : Skeleton) (name : String) (parent : Option Nat) : Skeleton := ⟨s.joints.push ⟨name, parent⟩⟩

/-- The joint with a number. -/
def joint? (s : Skeleton) (i : Nat) : Option Joint := s.joints[i]?

/-- The number of the first joint with a name. -/
def find? (s : Skeleton) (name : String) : Option Nat := s.joints.findIdx? (·.name == name)

@[simp] theorem size_empty : empty.size = 0 := rfl

@[simp] theorem size_addJoint (s : Skeleton) (name : String) (parent : Option Nat) :
    (s.addJoint name parent).size = s.size + 1 := by
  simp [size, addJoint]

/-- Adding a joint leaves the joints before it as they are. -/
theorem joint?_addJoint (s : Skeleton) (name : String) (parent : Option Nat) (i : Nat) :
    (s.addJoint name parent).joint? i = if i = s.size then some ⟨name, parent⟩ else s.joint? i := by
  exact Array.getElem?_push

/-! ## Parents and roots -/

/-- The valid parent of a joint: a joint, and another one. -/
def parent? (s : Skeleton) (i : Nat) : Option Nat := do
  let joint ← s.joint? i
  let parent ← joint.parent
  if parent < s.size ∧ parent ≠ i then some parent else none

/-- Whether the number is that of a joint without a valid parent. -/
def isRoot (s : Skeleton) (i : Nat) : Bool := decide (i < s.size) && (s.parent? i).isNone

/-- The roots in ascending order. -/
def roots (s : Skeleton) : List Nat := (List.range s.size).filter s.isRoot

/-- A number is a joint's valid parent if it is the one stored, a joint's, and another's. -/
theorem parent?_eq_some_iff {s : Skeleton} {i p : Nat} :
    s.parent? i = some p ↔ (∃ joint, s.joint? i = some joint ∧ joint.parent = some p) ∧ p < s.size ∧ p ≠ i := by
  unfold parent?
  cases hj : s.joint? i with
  | none => simp
  | some joint =>
    cases hp : joint.parent with
    | none => simp [hp]
    | some q =>
      by_cases hq : q < s.size ∧ q ≠ i
      · simp only [Option.bind_eq_bind, Option.bind_some, hp, if_pos hq, Option.some.injEq]
        constructor
        · rintro rfl
          exact ⟨⟨joint, rfl, hp⟩, hq⟩
        · rintro ⟨⟨j, rfl, hj'⟩, -⟩
          exact Option.some.inj (hp.symm.trans hj')
      · simp only [Option.bind_eq_bind, Option.bind_some, hp, if_neg hq, reduceCtorEq, false_iff]
        rintro ⟨⟨j, hj', hp'⟩, hlt⟩
        obtain rfl : joint = j := Option.some.inj hj'
        obtain rfl : q = p := Option.some.inj (hp.symm.trans hp')
        exact hq hlt

theorem isRoot_iff {s : Skeleton} {i : Nat} : s.isRoot i = true ↔ i < s.size ∧ s.parent? i = none := by
  simp [isRoot]

theorem mem_roots {s : Skeleton} {i : Nat} : i ∈ s.roots ↔ i < s.size ∧ s.parent? i = none := by
  rw [roots, List.mem_filter, List.mem_range, isRoot_iff]
  exact ⟨fun h => h.2, fun h => ⟨h.1, h⟩⟩

/-! ## Descendants -/

/-- Whether `target` is met within so many steps from parent to parent, the joint `i` itself not counted. -/
def meets (s : Skeleton) (target : Nat) : (steps i : Nat) → Bool
  | 0, _ => false
  | steps + 1, i =>
    match s.parent? i with
    | none => false
    | some parent => parent == target || s.meets target steps parent

/-- Whether joint `i` is below joint `target`. As many steps as there are joints lead to every joint that any number of steps
leads to, and they come to an end on a cycle too. -/
def isBelow (s : Skeleton) (i target : Nat) : Bool := s.meets target s.size i

/-- The number of joints below a joint. -/
def numDescendants (s : Skeleton) (j : Nat) : Nat := (List.range s.size).countP (s.isBelow · j)

/-- The relation that `isBelow` decides: one or more steps from parent to parent lead from `i` to `j`. -/
inductive Below (s : Skeleton) : Nat → Nat → Prop where
  | parent {i j : Nat} : s.parent? i = some j → Below s i j
  | step {i k j : Nat} : s.parent? i = some k → Below s k j → Below s i j

/-! ## The main root -/

/-- The one of two roots with more joints below it, the earlier if they have equally many. -/
def larger (s : Skeleton) (best : Option Nat) (root : Nat) : Option Nat :=
  match best with
  | none => some root
  | some b => if s.numDescendants b < s.numDescendants root then some root else some b

/-- The first of the roots with the most joints below them, which is the one most likely to carry the motion of the whole. -/
def mainRoot? (s : Skeleton) : Option Nat := s.roots.foldl s.larger none

end Skeleton

end Gait
