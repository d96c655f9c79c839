import Gait.Binary32.Dyadic
import Gait.Proofs.Binary32.Nearest

/-!
# The parts of a binary32 number

A finite number is a sign, a mantissa and an exponent, and these are unique if they are canonical: the mantissa has twenty-four
bits, or fewer under the least exponent. Unpacking gives canonical parts, and packing canonical parts gives the number back that
has them, or infinity if the exponent is too large. `toReal` is what a finite number is worth; on numbers other than zero it can
be undone.
-/

namespace Gait

namespace Binary32

open Float.Model (UnpackedFloat Format)
open Float.Model.UnpackedFloat (Sign)

/-! ## Signs -/

/-- One under a sign. -/
def unit : Sign → ℤ
  | .positive => 1
  | .negative => -1

theorem abs_unit (s : Sign) : |unit s| = 1 := by cases s <;> rfl

theorem unit_mul_self (s : Sign) : unit s * unit s = 1 := by cases s <;> rfl

theorem unit_neg (s : Sign) : unit (-s) = -unit s := by cases s <;> rfl

theorem unit_mul (s t : Sign) : unit (s * t) = unit s * unit t := by cases s <;> cases t <;> rfl

theorem unit_div (s t : Sign) : unit (s / t) = unit s * unit t := by cases s <;> cases t <;> rfl

theorem apply_eq_unit_mul (s : Sign) (n : ℤ) : s.apply n = unit s * n := by cases s <;> simp [Sign.apply, unit]

/-! ## Canonical parts -/

/-- The mantissa has twenty-four bits, or fewer under the least exponent. -/
def Canonical : UnpackedFloat → Prop
  | .finite _ m e _ => m < 2 ^ 24 ∧ -149 ≤ e ∧ (2 ^ 23 ≤ m ∨ e = -149)
  | _ => True

/-- The exponent is not too large for a finite number. -/
def Bounded : UnpackedFloat → Prop
  | .finite _ _ e _ => e ≤ 104
  | _ => True

/-- The signed multiple of a power of two; zero for what has none. -/
noncomputable def value : UnpackedFloat → ℝ
  | .finite s m e _ => unit s * m * 2 ^ e
  | _ => 0

@[simp] theorem value_finite (s : Sign) (m : ℕ) (e : ℤ) (h : 0 < m) :
    value (.finite s m e h) = unit s * m * 2 ^ e := rfl

@[simp] theorem value_zero (s : Sign) : value (.zero s) = 0 := rfl

/-- Finite parts are those of a zero or a multiple of a power of two. -/
theorem isFinite_cases {u : UnpackedFloat} (h : u.isFinite = true) :
    (∃ s, u = .zero s) ∨ ∃ s m e hm, u = .finite s m e hm := by
  cases u with
  | zero s => exact Or.inl ⟨s, rfl⟩
  | finite s m e hm => exact Or.inr ⟨s, m, e, hm, rfl⟩
  | _ => exact absurd h (by simp [UnpackedFloat.isFinite])

theorem abs_value_finite (s : Sign) (m : ℕ) (e : ℤ) (h : 0 < m) : |value (.finite s m e h)| = m * 2 ^ e := by
  have hs : |(unit s : ℝ)| = 1 := by exact_mod_cast abs_unit s
  rw [value_finite, abs_mul, abs_mul, hs, one_mul, abs_of_nonneg (by positivity), abs_of_nonneg (by positivity)]

theorem value_ne_zero (s : Sign) (m : ℕ) (e : ℤ) (h : 0 < m) : value (.finite s m e h) ≠ 0 := by
  rw [← abs_pos, abs_value_finite]
  positivity

/-- What has a value has it on the grid. -/
theorem Canonical.grid {u : UnpackedFloat} (h : Canonical u) : Grid (value u) := by
  cases u with
  | finite s m e hm =>
    refine ⟨unit s * m, e, ?_, h.2.1, by push_cast; rfl⟩
    rw [abs_mul, abs_unit, one_mul, abs_of_nonneg (by positivity)]
    exact_mod_cast h.1.le
  | _ => exact grid_zero

/-- The exponent of canonical parts is that of the last place of the value. -/
theorem Canonical.ulpExp_eq {s : Sign} {m : ℕ} {e : ℤ} {hm : 0 < m} (h : Canonical (.finite s m e hm)) :
    ulpExp (value (.finite s m e hm)) = e := by
  obtain ⟨hlt, hle, hlow⟩ := h
  refine Binary32.ulpExp_eq hle ?_ ?_
  · rcases hlow with hlow | hlow
    · left
      have hlow' : (2 : ℝ) ^ 23 ≤ m := by exact_mod_cast hlow
      rw [abs_value_finite, zpow_add₀ (by norm_num), mul_comm]
      exact mul_le_mul_of_nonneg_right (by exact_mod_cast hlow') (by positivity)
    · exact Or.inr ⟨hlow, value_ne_zero s m e hm⟩
  · have hlt' : (m : ℝ) < 2 ^ 24 := by exact_mod_cast hlt
    rw [abs_value_finite, zpow_add₀ (by norm_num), mul_comm]
    exact mul_lt_mul_of_pos_left (by exact_mod_cast hlt') (by positivity)

/-- Canonical parts are told apart by their values, zeros aside. -/
theorem Canonical.value_injective {s t : Sign} {m n : ℕ} {e f : ℤ} {hm : 0 < m} {hn : 0 < n}
    (hu : Canonical (.finite s m e hm)) (hv : Canonical (.finite t n f hn))
    (h : value (.finite s m e hm) = value (.finite t n f hn)) : s = t ∧ m = n ∧ e = f := by
  have he : e = f := by rw [← hu.ulpExp_eq, ← hv.ulpExp_eq, h]
  subst he
  simp only [value_finite] at h
  have hsm : (unit s * m : ℝ) = unit t * n := mul_right_cancel₀ (by positivity) h
  have hsm' : unit s * (m : ℤ) = unit t * n := by exact_mod_cast hsm
  cases s <;> cases t <;> simp only [unit] at hsm' <;> refine ⟨?_, ?_, rfl⟩ <;> first | rfl | omega

/-! ## Packing -/

section Packing

open Float.Model.UnpackedFloat

/-- The parts that the three fields of a word stand for. -/
def assemble (s : Sign) (e : BitVec 8) (m : BitVec 23) : UnpackedFloat :=
  if e = -1#8 then (if m = 0#23 then .infinity s else .notANumber)
  else if e = 0#8 then
    if h : m.toNat = 0 then .zero s else .finite s m.toNat (-149) (Nat.pos_of_ne_zero h)
  else .finite s (2 ^ 23 + m.toNat) (e.toNat - 150) (by positivity)

/-- The implicit bit stands before the others. -/
theorem toNat_implicit_append (m : BitVec 23) : (1#1 ++ m).toNat = 2 ^ 23 + m.toNat := by
  rw [BitVec.toNat_append, ← Nat.shiftLeft_add_eq_or_of_lt m.isLt]
  rfl

theorem unpack_eq_assemble (b : BitVec 32) : unpack Format.binary32 b =
    assemble (Sign.ofBitVec (@unpackSign Format.binary32 b)) (@unpackExponent Format.binary32 b)
      (@unpackMantissa Format.binary32 b) := by
  unfold unpack assemble
  simp only [toNat_implicit_append]
  by_cases h1 : @unpackExponent Format.binary32 b = -1#8
  · rw [if_pos h1, if_pos h1]
  · rw [if_neg h1, if_neg h1]
    by_cases h0 : @unpackExponent Format.binary32 b = 0#8
    · rw [if_pos h0, if_pos h0]
      by_cases hm : @unpackMantissa Format.binary32 b = 0#23
      · rw [dif_pos hm, dif_pos (by rw [hm]; rfl)]
      · have hm' : (@unpackMantissa Format.binary32 b).toNat ≠ 0 := fun h => hm (BitVec.eq_of_toNat_eq h)
        rw [dif_neg hm, dif_neg hm', UnpackedFloat.finite.injEq]
        refine ⟨rfl, rfl, ?_⟩
        rw [h0]
        rfl
    · rw [if_neg h0, if_neg h0]
      rfl

theorem ofBitVec_toBitVec (s : Sign) : Sign.ofBitVec s.toBitVec = s := by cases s <;> rfl

theorem unpackSign_packComponents (s : Sign) (e : BitVec 8) (m : BitVec 23) :
    unpackSign (packComponents Format.binary32 s e m) = s.toBitVec := by
  ext i hi
  obtain rfl : i = 0 := by omega
  have h : (s.toBitVec ++ e ++ m).getLsbD 31 = s.toBitVec[0] := by
    rw [BitVec.getLsbD_append, BitVec.getLsbD_append]
    rfl
  simp only [unpackSign, packComponents, BitVec.getElem_cast, BitVec.extractLsb, BitVec.getElem_extractLsb']
  exact h

theorem unpack_packComponents (s : Sign) (e : BitVec 8) (m : BitVec 23) :
    unpack Format.binary32 (packComponents Format.binary32 s e m) = assemble s e m := by
  rw [unpack_eq_assemble, unpackMantissa_packComponents, unpackExponent_packComponents, unpackSign_packComponents,
    ofBitVec_toBitVec]

/-- The fields of a word stand for canonical parts with an exponent that is not too large. -/
theorem canonical_assemble (s : Sign) (e : BitVec 8) (m : BitVec 23) :
    Canonical (assemble s e m) ∧ Bounded (assemble s e m) := by
  have hm := m.isLt
  have he := e.isLt
  unfold assemble
  split_ifs with h1 h2 h3 h4
  · exact ⟨trivial, trivial⟩
  · exact ⟨trivial, trivial⟩
  · exact ⟨trivial, trivial⟩
  · refine ⟨⟨by omega, le_rfl, Or.inr rfl⟩, ?_⟩
    show (-149 : ℤ) ≤ 104
    norm_num
  · have h1' : e.toNat ≠ 255 := fun h => h1 (BitVec.eq_of_toNat_eq h)
    have h3' : e.toNat ≠ 0 := fun h => h3 (BitVec.eq_of_toNat_eq h)
    refine ⟨⟨by omega, by omega, Or.inl (by omega)⟩, ?_⟩
    show (e.toNat : ℤ) - 150 ≤ 104
    omega

theorem toBitVec_ofBitVec (b : BitVec 1) : (Sign.ofBitVec b).toBitVec = b := by
  rcases BitVec.eq_zero_or_eq_one b with rfl | rfl <;> rfl

/-- A word is made of its three fields. -/
theorem packComponents_fields (b : BitVec 32) :
    packComponents Format.binary32 (Sign.ofBitVec (@unpackSign Format.binary32 b)) (@unpackExponent Format.binary32 b)
      (@unpackMantissa Format.binary32 b) = b := by
  have h : ∀ b : BitVec 32, (b.extractLsb' 31 1 ++ b.extractLsb' 23 8 ++ b.extractLsb' 0 23 : BitVec 32) = b := by
    intro b
    rw [BitVec.extractLsb'_append_extractLsb'_eq_extractLsb' (by rfl : 31 = 23 + 8),
      BitVec.extractLsb'_append_extractLsb'_eq_extractLsb' (by rfl : 23 = 0 + 23)]
    exact BitVec.extractLsb'_eq_self
  unfold packComponents
  rw [toBitVec_ofBitVec]
  exact h b

/-- The three ways to pack a finite number: as infinity, with twenty-four bits, and with fewer. -/
theorem pack_finite (s : Sign) (m : ℕ) (e : ℤ) (hm : 0 < m) : pack Format.binary32 (.finite s m e hm) =
    if 255 ≤ (e + 150).toNat then packedInfinity Format.binary32 s
    else if m.log2 = 23 then packComponents Format.binary32 s (BitVec.ofNat 8 (e + 150).toNat) (BitVec.ofNat 23 m)
    else packComponents Format.binary32 s 0#8 (BitVec.ofNat 23 m) := by
  have hbias : e + Format.binary32.exponentBias + Format.binary32.mantissaBitsWithoutImplicit = e + 150 := by
    show e + (127 : ℕ) + (23 : ℕ) = e + 150
    omega
  have hover : (2 ^ Format.binary32.exponentBits ≤ (e + 150).toNat + 1) = (255 ≤ (e + 150).toNat) := by
    show (256 ≤ (e + 150).toNat + 1) = _
    rw [eq_iff_iff]
    omega
  have hbits : (m.log2 + 1 = Format.binary32.mantissaBits) = (m.log2 = 23) := by
    show (m.log2 + 1 = 24) = _
    rw [eq_iff_iff]
    omega
  unfold pack
  simp only [hbias, hover, hbits]

/-- Packing gives the fields back, except for those of a number that is none. -/
theorem pack_assemble (s : Sign) (e : BitVec 8) (m : BitVec 23) (h : e = -1#8 → m = 0#23) :
    pack Format.binary32 (assemble s e m) = packComponents Format.binary32 s e m := by
  have hm := m.isLt
  have he := e.isLt
  unfold assemble
  split_ifs with h1 h2 h3 h4
  · rw [h1, h2]
    rfl
  · exact absurd (h h1) h2
  · have h4' : m = 0#23 := BitVec.eq_of_toNat_eq h4
    rw [h3, h4']
    rfl
  · have hlog : m.toNat.log2 < 23 := (Nat.log2_lt h4).mpr hm
    rw [pack_finite, if_neg (by norm_num), if_neg (by omega), h3, BitVec.ofNat_toNat, BitVec.setWidth_eq]
  · have h1' : e.toNat ≠ 255 := fun h => h1 (BitVec.eq_of_toNat_eq h)
    have hbias : ((e.toNat : ℤ) - 150 + 150).toNat = e.toNat := by omega
    have hne : 2 ^ 23 + m.toNat ≠ 0 := by omega
    have hlo := (Nat.le_log2 hne).mpr (Nat.le_add_right (2 ^ 23) m.toNat)
    have hhi := (Nat.log2_lt hne).mpr (by omega : 2 ^ 23 + m.toNat < 2 ^ 24)
    have hmant : BitVec.ofNat 23 (2 ^ 23 + m.toNat) = m := by
      apply BitVec.eq_of_toNat_eq
      rw [BitVec.toNat_ofNat]
      omega
    rw [pack_finite, hbias, if_neg (by omega), if_pos (by omega), hmant, BitVec.ofNat_toNat, BitVec.setWidth_eq]

/-- Canonical parts with an exponent that is not too large are those of some fields. -/
theorem exists_assemble {s : Sign} {m : ℕ} {e : ℤ} {hm : 0 < m} (hc : Canonical (.finite s m e hm))
    (hb : Bounded (.finite s m e hm)) : ∃ f : BitVec 8, ∃ k : BitVec 23, f ≠ -1#8 ∧ .finite s m e hm = assemble s f k := by
  obtain ⟨hlt, hle, hlow⟩ := hc
  have hb : e ≤ 104 := hb
  unfold assemble
  rcases Nat.lt_or_ge m (2 ^ 23) with hlt' | hge
  · obtain rfl : e = -149 := hlow.resolve_left (by omega)
    have hk : (BitVec.ofNat 23 m).toNat = m := by
      rw [BitVec.toNat_ofNat]
      omega
    refine ⟨0#8, BitVec.ofNat 23 m, by decide, ?_⟩
    simp only [hk, dif_neg hm.ne']
    rfl
  · have hf : (BitVec.ofNat 8 (e + 150).toNat).toNat = (e + 150).toNat := by
      rw [BitVec.toNat_ofNat]
      omega
    have hk : (BitVec.ofNat 23 m).toNat = m - 2 ^ 23 := by
      rw [BitVec.toNat_ofNat]
      omega
    have hf1 : BitVec.ofNat 8 (e + 150).toNat ≠ -1#8 := by
      intro h
      rw [h] at hf
      have hf : 255 = (e + 150).toNat := hf
      omega
    have hf0 : BitVec.ofNat 8 (e + 150).toNat ≠ 0#8 := by
      intro h
      rw [h] at hf
      have hf : 0 = (e + 150).toNat := hf
      omega
    refine ⟨BitVec.ofNat 8 (e + 150).toNat, BitVec.ofNat 23 m, hf1, ?_⟩
    rw [if_neg hf1, if_neg hf0, UnpackedFloat.finite.injEq, hf, hk]
    exact ⟨rfl, by omega, by omega⟩

/-- Canonical parts with an exponent that is not too large are the parts of the packed number. -/
theorem unpack_pack {u : UnpackedFloat} (hc : Canonical u) (hb : Bounded u) :
    unpack Format.binary32 (pack Format.binary32 u) = u := by
  cases u with
  | notANumber => rfl
  | infinity s => cases s <;> rfl
  | zero s => cases s <;> rfl
  | finite s m e hm =>
    obtain ⟨f, k, hf, heq⟩ := exists_assemble hc hb
    rw [heq, pack_assemble s f k fun h => absurd h hf, unpack_packComponents]

/-- A finite number with too large an exponent is packed as infinity. -/
theorem unpack_pack_of_large (s : Sign) (m : ℕ) {e : ℤ} (hm : 0 < m) (h : 104 < e) :
    unpack Format.binary32 (pack Format.binary32 (.finite s m e hm)) = .infinity s := by
  rw [pack_finite, if_pos (by omega)]
  cases s <;> rfl

end Packing

/-- The parts of a number are canonical. -/
theorem canonical_parts (x : Float32) : Canonical (parts x) := by
  unfold parts Float32.Model.unpack
  rw [unpack_eq_assemble]
  exact (canonical_assemble _ _ _).1

theorem bounded_parts (x : Float32) : Bounded (parts x) := by
  unfold parts Float32.Model.unpack
  rw [unpack_eq_assemble]
  exact (canonical_assemble _ _ _).2

/-- The parts of the number that canonical parts make. -/
theorem parts_pack {u : UnpackedFloat} (hc : Canonical u) (hb : Bounded u) : parts ⟨Float32.Model.pack u⟩ = u :=
  unpack_pack hc hb

theorem parts_pack_of_large (s : Sign) (m : ℕ) {e : ℤ} (hm : 0 < m) (h : 104 < e) :
    parts ⟨Float32.Model.pack (.finite s m e hm)⟩ = .infinity s :=
  unpack_pack_of_large s m hm h

/-- A number is made of its parts. -/
theorem pack_parts (x : Float32) : ⟨Float32.Model.pack (parts x)⟩ = x := by
  obtain ⟨⟨bits, hvalid⟩⟩ := x
  have hbits : Float.Model.UnpackedFloat.pack Format.binary32 (Float.Model.UnpackedFloat.unpack Format.binary32 bits.toBitVec) =
      bits.toBitVec := by
    by_cases h : @Float.Model.UnpackedFloat.unpackExponent Format.binary32 bits.toBitVec = -1#8 →
        @Float.Model.UnpackedFloat.unpackMantissa Format.binary32 bits.toBitVec = 0#23
    · rw [unpack_eq_assemble, pack_assemble _ _ _ h, packComponents_fields]
    · -- the one word that stands for no number
      rw [Classical.not_imp] at h
      rw [hvalid.eq_packedNaN h.1 h.2]
      rfl
  unfold parts Float32.Model.pack Float32.Model.unpack
  simp only [hbits]

/-- Numbers are told apart by their parts. -/
theorem parts_injective {x y : Float32} (h : parts x = parts y) : x = y := by
  rw [← pack_parts x, ← pack_parts y, h]

/-! ## The value of a number -/

/-- What a finite number is worth; zero for the others. -/
noncomputable def toReal (x : Float32) : ℝ := value (parts x)

/-- A number is finite if its parts are those of a zero or a multiple of a power of two. -/
theorem isFinite_iff {x : Float32} :
    x.isFinite = true ↔ (∃ s, parts x = .zero s) ∨ ∃ s m e hm, parts x = .finite s m e hm := by
  constructor
  · exact isFinite_cases
  · show _ → (parts x).isFinite = true
    rintro (⟨s, h⟩ | ⟨s, m, e, hm, h⟩) <;> rw [h] <;> rfl

theorem isFinite_of_parts {x : Float32} {s : Sign} {m : ℕ} {e : ℤ} {hm : 0 < m} (h : parts x = .finite s m e hm) :
    x.isFinite = true :=
  isFinite_iff.mpr (Or.inr ⟨s, m, e, hm, h⟩)

theorem toReal_of_parts {x : Float32} {s : Sign} {m : ℕ} {e : ℤ} {hm : 0 < m} (h : parts x = .finite s m e hm) :
    toReal x = unit s * m * 2 ^ e := by
  rw [toReal, h, value_finite]

/-- A positive number has a positive mantissa. -/
theorem parts_of_pos {x : Float32} (hx : x.isFinite = true) (h0 : 0 < toReal x) :
    ∃ m e hm, parts x = .finite .positive m e hm := by
  rcases isFinite_iff.mp hx with ⟨s, h⟩ | ⟨s, m, e, hm, h⟩
  · rw [toReal, h, value_zero] at h0
    exact absurd h0 (lt_irrefl _)
  · cases s with
    | positive => exact ⟨m, e, hm, h⟩
    | negative =>
      have hpos : (0 : ℝ) < m * 2 ^ e := by positivity
      rw [toReal_of_parts h, unit, mul_assoc] at h0
      push_cast at h0
      linarith

theorem grid_toReal (x : Float32) : Grid (toReal x) := (canonical_parts x).grid

/-- Finite numbers other than zero are told apart by their values. -/
theorem eq_of_toReal_eq {x y : Float32} (h : toReal x = toReal y) (h0 : toReal x ≠ 0) : x = y := by
  have hx := canonical_parts x
  have hy := canonical_parts y
  apply parts_injective
  unfold toReal at h h0
  cases hpx : parts x with
  | finite s m e hm =>
    cases hpy : parts y with
    | finite t n f hn =>
      rw [hpx] at hx h
      rw [hpy] at hy h
      obtain ⟨rfl, rfl, rfl⟩ := hx.value_injective hy h
      rfl
    | _ => rw [hpy] at h; exact absurd h h0
  | _ => rw [hpx] at h0; exact absurd rfl h0

/-- The largest finite number. -/
noncomputable def largest : ℝ := (2 ^ 24 - 1) * 2 ^ 104

theorem abs_toReal_le (x : Float32) : |toReal x| ≤ largest := by
  have hc := canonical_parts x
  have hb := bounded_parts x
  unfold toReal largest
  cases hp : parts x with
  | finite s m e hm =>
    rw [hp] at hc hb
    have he : e ≤ 104 := hb
    have hm' : m + 1 ≤ 2 ^ 24 := hc.1
    have hm'' : (m : ℝ) + 1 ≤ 2 ^ 24 := by exact_mod_cast hm'
    have hpow : (2 : ℝ) ^ e ≤ 2 ^ (104 : ℤ) := zpow_le_zpow_right₀ (by norm_num) he
    rw [abs_value_finite]
    exact mul_le_mul (by linarith) (by exact_mod_cast hpow) (by positivity) (by norm_num)
  | _ => simp [value]; norm_num

end Binary32

end Gait
