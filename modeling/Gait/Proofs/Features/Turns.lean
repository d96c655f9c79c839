import Gait.Proofs.Binary32.Angle
import Gait.Proofs.Features.Rotations

/-!
# Turns

A turn between rotations of ordinary size is an angle of ordinary size. A turn from or to a quaternion of which no component is
finite is no number: the products that the turn is read off cannot all be told.
-/

namespace Gait

open Binary32
open Float.Model.UnpackedFloat (Sign)

namespace Quat

variable {l r previous current : Quat Float32} {k : ℕ}

theorem Within.conj (h : r.Within k) : r.conj.Within k := ⟨h.1.neg, h.2.1.neg, h.2.2.1.neg, h.2.2.2⟩

theorem Within.mul (hl : l.Within k) (hr : r.Within k) (hk : k ≤ 60) : (l * r).Within (k + k + 2) := by
  obtain ⟨lx, ly, lz, lw⟩ := hl
  obtain ⟨rx, ry, rz, rw⟩ := hr
  have hsum : ∀ {a b c d e f g h : Float32}, Small k a → Small k b → Small k c → Small k d → Small k e → Small k f →
      Small k g → Small k h → Small (k + k + 2) ((a * b + c * d) + (e * f + g * h)) := by
    intro a b c d e f g h ha hb hc hd he hf hg hh
    exact ((ha.mul hb (by omega)).add (hc.mul hd (by omega)) (by omega)).add
      ((he.mul hf (by omega)).add (hg.mul hh (by omega)) (by omega)) (by omega)
  exact ⟨hsum lw rx lx rw ly rz lz ry.neg, hsum lw ry lx rz.neg ly rw lz rx, hsum lw rz lx ry ly rx.neg lz rw,
    hsum lw rw lx rx.neg ly ry.neg lz rz.neg⟩

/-- The sine that the yaw is read off. -/
def sinYaw (q : Quat Float32) : Float32 := Float32.ofNat 2 * (q.x * q.y + q.z * q.w)

/-- The cosine that the yaw is read off. -/
def cosYaw (q : Quat Float32) : Float32 := Float32.ofNat 1 - Float32.ofNat 2 * (q.y * q.y + q.z * q.z)

theorem yaw_eq (q : Quat Float32) : q.yaw = atan2 q.sinYaw q.cosYaw := rfl

theorem small_sinYaw (h : r.Within k) (hk : k ≤ 62) : Small (1 + (k + k + 1)) r.sinYaw := by
  obtain ⟨hx, hy, hz, hw⟩ := h
  have htwo : Small 1 (Float32.ofNat 2) := small_ofNat (by norm_num) (by norm_num)
  exact htwo.mul ((hx.mul hy (by omega)).add (hz.mul hw (by omega)) (by omega)) (by omega)

theorem small_cosYaw (h : r.Within k) (hk : k ≤ 62) : Small (1 + (k + k + 1) + 1) r.cosYaw := by
  obtain ⟨-, hy, hz, -⟩ := h
  have htwo : Small 1 (Float32.ofNat 2) := small_ofNat (by norm_num) (by norm_num)
  have hone : Small 0 (Float32.ofNat 1) := small_ofNat (by norm_num) (by norm_num)
  exact (hone.mono (by omega)).sub (htwo.mul ((hy.mul hy (by omega)).add (hz.mul hz (by omega)) (by omega)) (by omega)) (by omega)

/-- A turn between rotations that are not very large is an angle. -/
theorem small_turn (hp : previous.Within 30) (hc : current.Within 30) : Small 5 (turn previous current) := by
  have hdelta := hc.mul hp.conj (by norm_num)
  rw [turn, yaw_eq]
  exact (small_atan2 (not_isNaN_of_isFinite (small_sinYaw hdelta (by norm_num)).1)
    (not_isNaN_of_isFinite (small_cosYaw hdelta (by norm_num)).1)).neg

/-- Infinite terms that can be added up have one sign. -/
theorem exists_sign_of_sum {a b c d : Float32} (ha : a.isFinite = false) (hb : b.isFinite = false) (hc : c.isFinite = false)
    (hd : d.isFinite = false) (h : ¬ IsNaN ((a + b) + (c + d))) : ∃ s, parts a = .infinity s ∧ parts d = .infinity s := by
  obtain ⟨s, hs1, hs2, -⟩ := parts_add_of_not_isFinite (not_isFinite_add ha) (not_isFinite_add hc) h
  obtain ⟨t, ht, -, htab⟩ := parts_add_of_not_isFinite ha hb (fun hnan => h hnan.add_left)
  obtain ⟨r, -, hr, hrcd⟩ := parts_add_of_not_isFinite hc hd (fun hnan => h hnan.add_right)
  obtain rfl : s = t := by
    rw [hs1] at htab
    exact Float.Model.UnpackedFloat.infinity.inj htab
  obtain rfl : s = r := by
    rw [hs2] at hrcd
    exact Float.Model.UnpackedFloat.infinity.inj hrcd
  exact ⟨s, ht, hr⟩

/-- In a product with a factor that is broken the first two components cannot both be told: each is a sum of four infinite
products, and the signs that would let the one sum be told do not let the other. -/
theorem isNaN_mul_of_broken (h : l.Broken ∨ r.Broken) : IsNaN (l * r).x ∨ IsNaN (l * r).y := by
  by_contra hno
  push Not at hno
  have hproduct : ∀ {u v : Float32}, (l.Broken → u.isFinite = false) → (r.Broken → v.isFinite = false) →
      (u.isFinite = false ∨ v.isFinite = false) ∧ (u * v).isFinite = false := by
    intro u v hu hv
    exact ⟨h.imp hu hv, not_isFinite_mul (h.imp hu hv)⟩
  have hneg : ∀ {v : Float32}, (r.Broken → v.isFinite = false) → r.Broken → (-v).isFinite = false := by
    intro v hv hr
    rw [neg_isFinite]
    exact hv hr
  have hxw := hproduct (fun hl => hl.2.2.2) (fun hr => hr.1)
  have hxz := hproduct (fun hl => hl.2.2.1) (hneg (fun hr => hr.2.1))
  have hyw := hproduct (fun hl => hl.2.2.2) (fun hr => hr.2.1)
  have hyz := hproduct (fun hl => hl.2.2.1) (fun hr => hr.1)
  obtain ⟨s, hs1, hs2⟩ := exists_sign_of_sum hxw.2 (hproduct (fun hl => hl.1) (fun hr => hr.2.2.2)).2
    (hproduct (fun hl => hl.2.1) (fun hr => hr.2.2.1)).2 hxz.2 hno.1
  obtain ⟨t, ht1, ht2⟩ := exists_sign_of_sum hyw.2 (hproduct (fun hl => hl.1) (hneg (fun hr => hr.2.2.1))).2
    (hproduct (fun hl => hl.2.1) (fun hr => hr.2.2.2)).2 hyz.2 hno.2
  -- the signs of four components, as two of the products in each sum give them
  obtain ⟨a, b, hlw, hrx, rfl⟩ := parts_mul_of_not_isFinite hxw.1 hs1
  obtain ⟨c, d, hlz, hry, hcd⟩ := parts_mul_of_not_isFinite hxz.1 hs2
  obtain ⟨a', e, hlw', hry', rfl⟩ := parts_mul_of_not_isFinite hyw.1 ht1
  obtain ⟨c', b', hlz', hrx', hcb⟩ := parts_mul_of_not_isFinite hyz.1 ht2
  obtain rfl : a = a' := Option.some.inj (hlw.symm.trans hlw')
  obtain rfl : b = b' := Option.some.inj (hrx.symm.trans hrx')
  obtain rfl : c = c' := Option.some.inj (hlz.symm.trans hlz')
  obtain rfl : d = -e := by
    rw [signOf?_neg, hry'] at hry
    exact (Option.some.inj hry).symm
  have h1 := congrArg unit hcd
  have h2 := congrArg unit hcb
  rw [unit_mul, unit_mul, unit_neg] at h1
  rw [unit_mul, unit_mul] at h2
  have ha := unit_mul_self a
  have hc := unit_mul_self c
  have hbe : unit b * unit e = 0 := by
    have hopposite : -(unit c * unit c) * (unit b * unit e) = unit a * unit a * (unit b * unit e) := by
      linear_combination unit c * unit b * h1 + unit a * unit b * h2
    rw [ha, hc] at hopposite
    omega
  have habs := congrArg abs hbe
  rw [abs_mul, abs_unit, abs_unit, abs_zero] at habs
  norm_num at habs

/-- A turn from or to what is broken is no number. -/
theorem isNaN_turn_of_broken (h : previous.Broken ∨ current.Broken) : IsNaN (turn previous current) := by
  have hbroken : current.Broken ∨ previous.conj.Broken := by
    rcases h with h | h
    · refine Or.inr ⟨?_, ?_, ?_, h.2.2.2⟩
      · exact (neg_isFinite _).trans h.1
      · exact (neg_isFinite _).trans h.2.1
      · exact (neg_isFinite _).trans h.2.2.1
    · exact Or.inl h
  have hxy : IsNaN ((current * previous.conj).x * (current * previous.conj).y) := by
    rcases isNaN_mul_of_broken hbroken with h | h
    · exact h.mul_left
    · exact h.mul_right
  exact hxy.add_left.mul_right.atan2.neg

end Quat

end Gait
