import Gait.Proofs.Binary32.Accuracy
import Gait.Proofs.Features.Rotations

/-!
# The accuracy of a retargeted rotation

Rotations of length one stand for points of the unit sphere in the real quaternions. There the norm is multiplicative, so that a
product in binary32 is compared with the exact one in the norm, and so is a quaternion brought to length one. A rotation that is
retargeted from where it already is misses by as much as the two bind rotations differ.
-/

namespace Gait

open Binary32

namespace Quat

variable {p q : Quat Float32}

/-- Every component is finite. -/
def IsFinite (q : Quat Float32) : Prop :=
  q.x.isFinite = true ∧ q.y.isFinite = true ∧ q.z.isFinite = true ∧ q.w.isFinite = true

/-- The real quaternion that the components stand for. -/
noncomputable def value (q : Quat Float32) : Quaternion ℝ := ⟨toReal q.w, toReal q.x, toReal q.y, toReal q.z⟩

/-- Every component is finite and within a distance of the other quaternion's. -/
def Close (ε : ℝ) (p q : Quat Float32) : Prop :=
  Near ε p.x (toReal q.x) ∧ Near ε p.y (toReal q.y) ∧ Near ε p.z (toReal q.z) ∧ Near ε p.w (toReal q.w)

theorem Close.finite {ε : ℝ} (h : p.Close ε q) : p.IsFinite := ⟨h.1.1, h.2.1.1, h.2.2.1.1, h.2.2.2.1⟩

/-! ## Components and the norm -/

theorem sq_norm (q : Quaternion ℝ) : ‖q‖ ^ 2 = q.re ^ 2 + q.imI ^ 2 + q.imJ ^ 2 + q.imK ^ 2 := by
  rw [sq, ← Quaternion.normSq_eq_norm_mul_self, Quaternion.normSq_def']

theorem sq_norm_value (q : Quat Float32) :
    ‖q.value‖ ^ 2 = toReal q.w ^ 2 + toReal q.x ^ 2 + toReal q.y ^ 2 + toReal q.z ^ 2 := sq_norm _

/-- The norm is at most twice what no component is above. -/
theorem norm_le_two_mul {q : Quaternion ℝ} {ε : ℝ} (hw : |q.re| ≤ ε) (hx : |q.imI| ≤ ε) (hy : |q.imJ| ≤ ε)
    (hz : |q.imK| ≤ ε) : ‖q‖ ≤ 2 * ε := by
  have hε : 0 ≤ ε := (abs_nonneg _).trans hw
  have hsq : ∀ {c : ℝ}, |c| ≤ ε → c ^ 2 ≤ ε ^ 2 := fun hc => sq_le_sq' (abs_le.mp hc).1 (abs_le.mp hc).2
  refine le_of_sq_le_sq ?_ (by positivity)
  rw [sq_norm]
  linarith [hsq hw, hsq hx, hsq hy, hsq hz]

/-- No component is above the norm. -/
theorem abs_le_norm (q : Quaternion ℝ) : |q.re| ≤ ‖q‖ ∧ |q.imI| ≤ ‖q‖ ∧ |q.imJ| ≤ ‖q‖ ∧ |q.imK| ≤ ‖q‖ := by
  have hsq := sq_norm q
  refine ⟨?_, ?_, ?_, ?_⟩ <;> refine abs_le_of_sq_le_sq ?_ (norm_nonneg q) <;> nlinarith

theorem Close.norm_sub_le {ε : ℝ} (h : p.Close ε q) : ‖p.value - q.value‖ ≤ 2 * ε :=
  norm_le_two_mul h.2.2.2.2 h.1.2 h.2.1.2 h.2.2.1.2

theorem close_of_norm_sub_le {ε : ℝ} (hp : p.IsFinite) (h : ‖p.value - q.value‖ ≤ ε) : p.Close ε q := by
  obtain ⟨hw, hx, hy, hz⟩ := abs_le_norm (p.value - q.value)
  exact ⟨⟨hp.1, hx.trans h⟩, ⟨hp.2.1, hy.trans h⟩, ⟨hp.2.2.1, hz.trans h⟩, ⟨hp.2.2.2, hw.trans h⟩⟩

/-- The norm of a rotation is one or nearly so. -/
theorem IsUnit.abs_norm_sub_one_le (h : q.IsUnit) : |‖q.value‖ ^ 2 - 1| ≤ 1 / 2 ^ 20 ∧ |‖q.value‖ - 1| ≤ 9 / 2 ^ 24 := by
  have hlen : |‖q.value‖ ^ 2 - 1| ≤ 1 / 2 ^ 20 := by
    convert h.length using 2
    rw [sq_norm_value]
    ring
  refine ⟨hlen, ?_⟩
  obtain ⟨h1, h2⟩ := abs_le.mp hlen
  have h0 := norm_nonneg q.value
  rw [abs_le]
  constructor <;> nlinarith

/-! ## The operations -/

theorem value_conj (q : Quat Float32) : q.conj.value = star q.value := by
  apply Quaternion.ext
  · rw [Quaternion.re_star]
    rfl
  · rw [Quaternion.imI_star]
    exact toReal_neg _
  · rw [Quaternion.imJ_star]
    exact toReal_neg _
  · rw [Quaternion.imK_star]
    exact toReal_neg _

theorem IsFinite.conj (h : q.IsFinite) : q.conj.IsFinite := by
  simpa [IsFinite, Quat.conj] using h

theorem abs_mul_le_half (a b : ℝ) : |a * b| ≤ (a ^ 2 + b ^ 2) / 2 := by
  rw [abs_mul, ← sq_abs a, ← sq_abs b]
  linarith [two_mul_le_add_sq |a| |b|]

/-- The product of two quaternions that are hardly longer than one is within eight units of the exact one. -/
theorem norm_value_mul_sub_le (hp : p.IsFinite) (hq : q.IsFinite) (np : ‖p.value‖ ^ 2 ≤ 9 / 8) (nq : ‖q.value‖ ^ 2 ≤ 9 / 8) :
    (p * q).IsFinite ∧ ‖(p * q).value - p.value * q.value‖ ≤ 1 / 2 ^ 21 := by
  obtain ⟨fx, fy, fz, fw⟩ := hp
  obtain ⟨gx, gy, gz, gw⟩ := hq
  rw [sq_norm_value] at np nq
  have half := abs_mul_le_half
  have neg : ∀ {c : Float32}, c.isFinite = true → (-c).isFinite = true := fun h => by rwa [neg_isFinite]
  have hx := near_products ⟨fw, gx⟩ ⟨fx, gw⟩ ⟨fy, gz⟩ ⟨fz, neg gy⟩ (by
    rw [toReal_neg, mul_neg, abs_neg]
    linarith [half (toReal p.w) (toReal q.x), half (toReal p.x) (toReal q.w), half (toReal p.y) (toReal q.z),
      half (toReal p.z) (toReal q.y)])
  have hy := near_products ⟨fw, gy⟩ ⟨fx, neg gz⟩ ⟨fy, gw⟩ ⟨fz, gx⟩ (by
    rw [toReal_neg, mul_neg, abs_neg]
    linarith [half (toReal p.w) (toReal q.y), half (toReal p.x) (toReal q.z), half (toReal p.y) (toReal q.w),
      half (toReal p.z) (toReal q.x)])
  have hz := near_products ⟨fw, gz⟩ ⟨fx, gy⟩ ⟨fy, neg gx⟩ ⟨fz, gw⟩ (by
    rw [toReal_neg, mul_neg, abs_neg]
    linarith [half (toReal p.w) (toReal q.z), half (toReal p.x) (toReal q.y), half (toReal p.y) (toReal q.x),
      half (toReal p.z) (toReal q.w)])
  have hw := near_products ⟨fw, gw⟩ ⟨fx, neg gx⟩ ⟨fy, neg gy⟩ ⟨fz, neg gz⟩ (by
    rw [toReal_neg, toReal_neg, toReal_neg, mul_neg, mul_neg, mul_neg, abs_neg, abs_neg, abs_neg]
    linarith [half (toReal p.w) (toReal q.w), half (toReal p.x) (toReal q.x), half (toReal p.y) (toReal q.y),
      half (toReal p.z) (toReal q.z)])
  refine ⟨⟨hx.1, hy.1, hz.1, hw.1⟩, ?_⟩
  have hnorm : ‖(p * q).value - p.value * q.value‖ ≤ 2 * (1 / 2 ^ 22) := by
    apply norm_le_two_mul
    · convert hw.2 using 2
      rw [Quaternion.re_sub, Quaternion.re_mul]
      simp only [value, mul_def, toReal_neg]
      ring
    · convert hx.2 using 2
      rw [Quaternion.imI_sub, Quaternion.imI_mul]
      simp only [value, mul_def, toReal_neg]
      ring
    · convert hy.2 using 2
      rw [Quaternion.imJ_sub, Quaternion.imJ_mul]
      simp only [value, mul_def, toReal_neg]
      ring
    · convert hz.2 using 2
      rw [Quaternion.imK_sub, Quaternion.imK_mul]
      simp only [value, mul_def, toReal_neg]
      ring
  linarith

/-- The square of the length is computed to within four units. -/
theorem near_dot (hq : q.IsFinite) (nq : ‖q.value‖ ^ 2 ≤ 9 / 8) : Near (1 / 2 ^ 22) (q.dot q) (‖q.value‖ ^ 2) := by
  obtain ⟨fx, fy, fz, fw⟩ := hq
  rw [sq_norm_value] at nq
  have half := abs_mul_le_half
  have h := near_products ⟨fx, fx⟩ ⟨fz, fz⟩ ⟨fy, fy⟩ ⟨fw, fw⟩ (by
    linarith [half (toReal q.x) (toReal q.x), half (toReal q.y) (toReal q.y), half (toReal q.z) (toReal q.z),
      half (toReal q.w) (toReal q.w)])
  rw [sq_norm_value]
  refine ⟨h.1, le_trans (le_of_eq ?_) h.2⟩
  rw [dot]
  congr 1
  ring

/-- The length is computed to within seven units. -/
theorem near_length (hq : q.IsFinite) (h : |‖q.value‖ - 1| ≤ 1 / 2 ^ 17) : Near (7 / 2 ^ 24) (q.dot q).sqrt ‖q.value‖ := by
  obtain ⟨N, hN⟩ : ∃ N, N = ‖q.value‖ := ⟨_, rfl⟩
  obtain ⟨hN1, hN2⟩ := abs_le.mp h
  rw [← hN] at hN1 hN2
  obtain ⟨hdot, hD⟩ := near_dot hq (by rw [← hN]; nlinarith)
  rw [← hN] at hD
  obtain ⟨hD1, hD2⟩ := abs_le.mp hD
  have hpos : 0 ≤ toReal (q.dot q) := by nlinarith
  obtain ⟨r, hr⟩ : ∃ r, r = √(toReal (q.dot q)) := ⟨_, rfl⟩
  have hr0 : 0 ≤ r := hr ▸ Real.sqrt_nonneg _
  have hr2 : r ^ 2 = toReal (q.dot q) := hr ▸ Real.sq_sqrt hpos
  have hroot : |r - N| ≤ 5 / 2 ^ 24 := by
    rw [abs_le]
    constructor <;> nlinarith
  have hrounded := rounded_sqrt hdot hpos
  rw [← hr] at hrounded
  obtain ⟨hfin, hnear⟩ := hrounded.near (M := 9 / 8)
    (by rw [abs_of_nonneg hr0]; linarith [(abs_le.mp hroot).2]) (by norm_num)
  rw [← hN]
  refine ⟨hfin, (abs_sub_le _ r _).trans ?_⟩
  linarith

/-- What is hardly shorter or longer than one is brought to length one within twelve units. -/
theorem norm_value_normalize_sub_le (hq : q.IsFinite) (h : |‖q.value‖ - 1| ≤ 1 / 2 ^ 17) :
    q.normalize.IsFinite ∧ ‖q.normalize.value - (‖q.value‖⁻¹ : ℝ) • q.value‖ ≤ 3 / 2 ^ 22 := by
  obtain ⟨N, hN⟩ : ∃ N, N = ‖q.value‖ := ⟨_, rfl⟩
  obtain ⟨n, hn⟩ : ∃ n, n = (q.dot q).sqrt := ⟨_, rfl⟩
  obtain ⟨hfin, hlen⟩ := near_length hq h
  obtain ⟨hN1, hN2⟩ := abs_le.mp h
  rw [← hn] at hfin hlen
  rw [← hN] at hlen hN1 hN2
  obtain ⟨hlen1, hlen2⟩ := abs_le.mp hlen
  have hN0 : 0 < N := by linarith
  have hpos : 0 < toReal n := by linarith
  have hcomponent : ∀ {c : Float32}, c.isFinite = true → |toReal c| ≤ N →
      Near (1 / 2 ^ 23) (c / n) ((toReal n)⁻¹ * toReal c) := by
    intro c hc hle
    have hquot : |toReal c / toReal n| ≤ 9 / 8 := by
      rw [abs_div, abs_of_pos hpos, div_le_iff₀ hpos]
      linarith
    rw [inv_mul_eq_div]
    exact ((rounded_div hc hfin hpos.ne').near hquot (by norm_num)).mono (by norm_num)
  obtain ⟨bw, bx, by', bz⟩ := abs_le_norm q.value
  rw [← hN] at bw bx by' bz
  have cx := hcomponent hq.1 bx
  have cy := hcomponent hq.2.1 by'
  have cz := hcomponent hq.2.2.1 bz
  have cw := hcomponent hq.2.2.2 bw
  have hnorm : q.normalize = ⟨q.x / n, q.y / n, q.z / n, q.w / n⟩ := by
    rw [hn]
    rfl
  have hdivide : ‖value ⟨q.x / n, q.y / n, q.z / n, q.w / n⟩ - (toReal n)⁻¹ • q.value‖ ≤ 2 * (1 / 2 ^ 23) :=
    norm_le_two_mul cw.2 cx.2 cy.2 cz.2
  have hscale : ‖(toReal n)⁻¹ • q.value - N⁻¹ • q.value‖ ≤ 8 / 2 ^ 24 := by
    have hfactor : ((toReal n)⁻¹ - N⁻¹) * N = (N - toReal n) / toReal n := by
      field_simp
    calc ‖(toReal n)⁻¹ • q.value - N⁻¹ • q.value‖ = |((toReal n)⁻¹ - N⁻¹) * N| := by
          rw [← sub_smul, norm_smul, ← hN, Real.norm_eq_abs, abs_mul, abs_of_pos hN0]
      _ = |toReal n - N| / toReal n := by rw [hfactor, abs_div, abs_of_pos hpos, abs_sub_comm]
      _ ≤ 8 / 2 ^ 24 := by
          rw [div_le_iff₀ hpos]
          linarith
  rw [hnorm, ← hN]
  refine ⟨⟨cx.1, cy.1, cz.1, cw.1⟩, (norm_sub_le_norm_sub_add_norm_sub _ ((toReal n)⁻¹ • q.value) _).trans ?_⟩
  linarith

/-! ## From the bind rotation to the bind rotation -/

/-- In the real quaternions: following a rotation of length one back and another one forth, from that other one. -/
theorem mul_star_mul_sub (a s : Quaternion ℝ) :
    a * star s * a - a = a * star (s - a) * a + (‖a‖ ^ 2 - 1) • a := by
  have hself : a * star a * a = (‖a‖ ^ 2) • a := by
    rw [Quaternion.self_mul_star, Quaternion.normSq_eq_norm_mul_self, ← sq, Quaternion.coe_mul_eq_smul]
  rw [star_sub, mul_sub, sub_mul, hself, sub_smul, one_smul]
  abel

section Retarget

variable {a s : Quat Float32}

/-- The two products of retargeting are within seventeen units of the exact ones. -/
theorem norm_value_products_sub_le (ha : a.IsUnit) (hs : s.IsUnit) : (a * s.conj * a).IsFinite ∧
    ‖(a * s.conj * a).value - a.value * star s.value * a.value‖ ≤ 17 / 2 ^ 24 := by
  obtain ⟨la1, la2⟩ := abs_le.mp ha.abs_norm_sub_one_le.2
  obtain ⟨ls1, ls2⟩ := abs_le.mp hs.abs_norm_sub_one_le.2
  have ha0 := norm_nonneg a.value
  have hconj : ‖s.conj.value‖ = ‖s.value‖ := by rw [value_conj, Quaternion.norm_star]
  obtain ⟨fp, hp⟩ := norm_value_mul_sub_le (p := a) (q := s.conj) ha.finite (IsFinite.conj hs.finite) (by nlinarith)
    (by rw [hconj]; nlinarith [norm_nonneg s.value])
  rw [value_conj] at hp
  have hexact : ‖a.value * star s.value‖ = ‖a.value‖ * ‖s.value‖ := by rw [norm_mul, Quaternion.norm_star]
  have hlen : ‖(a * s.conj).value‖ ≤ 1 + 1 / 2 ^ 19 := by
    have h := norm_le_norm_add_norm_sub' (a * s.conj).value (a.value * star s.value)
    rw [hexact] at h
    nlinarith [norm_nonneg s.value]
  obtain ⟨fq, hq⟩ := norm_value_mul_sub_le (q := a) fp ha.finite (by nlinarith [norm_nonneg (a * s.conj).value])
    (by nlinarith)
  refine ⟨fq, (norm_sub_le_norm_sub_add_norm_sub _ ((a * s.conj).value * a.value) _).trans ?_⟩
  have hright : ‖(a * s.conj).value * a.value - a.value * star s.value * a.value‖ ≤ 1 / 2 ^ 21 * (1 + 9 / 2 ^ 24) := by
    rw [← sub_mul, norm_mul]
    exact mul_le_mul hp (by linarith) ha0 (by positivity)
  linarith

/-- Bringing to length one what has that length up to forty-three units moves it by little more. -/
theorem norm_value_normalize_sub_self_le {q : Quat Float32} (hq : q.IsFinite) (h : |‖q.value‖ - 1| ≤ 43 / 2 ^ 24) :
    q.normalize.IsFinite ∧ ‖q.normalize.value - q.value‖ ≤ 55 / 2 ^ 24 := by
  obtain ⟨fr, hr⟩ := norm_value_normalize_sub_le hq (h.trans (by norm_num))
  have hpos : 0 < ‖q.value‖ := by linarith [(abs_le.mp h).1]
  have hmove : ‖‖q.value‖⁻¹ • q.value - q.value‖ ≤ 43 / 2 ^ 24 := by
    have hfactor : (‖q.value‖⁻¹ - 1) * ‖q.value‖ = 1 - ‖q.value‖ := by
      field_simp
    calc ‖‖q.value‖⁻¹ • q.value - q.value‖ = |(‖q.value‖⁻¹ - 1) * ‖q.value‖| := by
          nth_rewrite 3 [← one_smul ℝ q.value]
          rw [← sub_smul, norm_smul, Real.norm_eq_abs, abs_mul, abs_of_pos hpos]
      _ = |‖q.value‖ - 1| := by rw [hfactor, abs_sub_comm]
      _ ≤ 43 / 2 ^ 24 := h
  refine ⟨fr, (norm_sub_le_norm_sub_add_norm_sub _ (‖q.value‖⁻¹ • q.value) _).trans ?_⟩
  linarith

/-- The bind rotation `a`, retargeted from a skeleton that binds the joint at `s`, misses `a` by as much as `s` differs from it. -/
theorem abs_norm_retarget_sub_le (ha : a.IsUnit) (hs : s.IsUnit) : (a * s.conj * a).normalize.IsFinite ∧
    |‖(a * s.conj * a).normalize.value - a.value‖ - ‖s.value - a.value‖| ≤ 1 / 2 ^ 17 := by
  obtain ⟨A, hA⟩ : ∃ A, A = a.value := ⟨_, rfl⟩
  obtain ⟨S, hS⟩ : ∃ S, S = s.value := ⟨_, rfl⟩
  obtain ⟨hA2, hA1⟩ := ha.abs_norm_sub_one_le
  obtain ⟨-, hS1⟩ := hs.abs_norm_sub_one_le
  obtain ⟨fq, hq⟩ := norm_value_products_sub_le ha hs
  rw [← hA] at hA1 hA2
  rw [← hS] at hS1
  rw [← hA, ← hS] at hq
  rw [← hA, ← hS]
  obtain ⟨la1, la2⟩ := abs_le.mp hA1
  obtain ⟨ls1, ls2⟩ := abs_le.mp hS1
  obtain ⟨l1, l2⟩ := abs_le.mp hA2
  -- the product has length one, nearly, and so it is hardly moved by the last step
  have hexact : ‖A * star S * A‖ = ‖A‖ ^ 2 * ‖S‖ := by
    rw [norm_mul, norm_mul, Quaternion.norm_star]
    ring
  have hone : |‖(a * s.conj * a).value‖ - 1| ≤ 43 / 2 ^ 24 := by
    have hdiff := (abs_norm_sub_norm_le (a * s.conj * a).value (A * star S * A)).trans hq
    rw [hexact] at hdiff
    obtain ⟨d1, d2⟩ := abs_le.mp hdiff
    rw [abs_le]
    constructor <;> nlinarith [norm_nonneg S]
  obtain ⟨fr, hr⟩ := norm_value_normalize_sub_self_le fq hone
  obtain ⟨R, hR⟩ : ∃ R, R = (a * s.conj * a).normalize.value := ⟨_, rfl⟩
  rw [← hR] at hr ⊢
  refine ⟨fr, ?_⟩
  -- what is left is the difference of the bind rotations, turned, and the part by which `a` is not of length one
  have hrest : ‖R - A - A * star (S - A) * A‖ ≤ 89 / 2 ^ 24 := by
    have hsplit : R - A - A * star (S - A) * A = (R - (a * s.conj * a).value) + ((a * s.conj * a).value - A * star S * A) +
        (‖A‖ ^ 2 - 1) • A := by
      rw [eq_sub_of_add_eq' (mul_star_mul_sub A S).symm]
      abel
    have hscale : ‖(‖A‖ ^ 2 - 1) • A‖ ≤ 1 / 2 ^ 20 * (1 + 9 / 2 ^ 24) := by
      rw [norm_smul, Real.norm_eq_abs]
      exact mul_le_mul hA2 (by linarith) (norm_nonneg _) (by positivity)
    rw [hsplit]
    refine (norm_add₃_le).trans ?_
    linarith
  have hturned : ‖A * star (S - A) * A‖ = ‖A‖ ^ 2 * ‖S - A‖ := by
    rw [norm_mul, norm_mul, Quaternion.norm_star]
    ring
  have hlong : ‖S - A‖ ≤ 2 + 18 / 2 ^ 24 := (norm_sub_le S A).trans (by linarith)
  have hgap : |‖A‖ ^ 2 * ‖S - A‖ - ‖S - A‖| ≤ 1 / 2 ^ 20 * (2 + 18 / 2 ^ 24) := by
    rw [← sub_one_mul, abs_mul, abs_of_nonneg (norm_nonneg (S - A))]
    exact mul_le_mul hA2 hlong (norm_nonneg _) (by positivity)
  have hdiff := (abs_norm_sub_norm_le (R - A) (A * star (S - A) * A)).trans hrest
  rw [hturned] at hdiff
  refine (abs_sub_le _ (‖A‖ ^ 2 * ‖S - A‖) _).trans ?_
  linarith

end Retarget

end Quat

end Gait
