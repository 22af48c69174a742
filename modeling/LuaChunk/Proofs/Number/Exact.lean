import Mathlib
import LuaChunk.Number.Binary64

set_option autoImplicit false

namespace LuaChunk.Double

@[simp] theorem value_of (x : Float) : (of x).value = x := Float.ofBits_toBits x

theorem of_value_or (x : Double) : of x.value = x ∨ x.value = Binary64.nan := by
  obtain ⟨bits⟩ := x
  have hpack := @Float.Model.UnpackedFloat.pack_unpack .binary64 bits.toBitVec (by decide)
  split at hpack
  · exact .inr (Float.toBits_inj.1 (UInt64.toBitVec_inj.1 hpack))
  · exact .inl (congrArg mk (UInt64.toBitVec_inj.1 hpack))

theorem of_value {x : Double} (h : x.value ≠ Binary64.nan) : of x.value = x :=
  (of_value_or x).resolve_right h

theorem of_value_of_read {x : Double} (h : Binary64.read x ≠ .nan) : of x.value = x :=
  of_value fun hx => h (by rw [hx]; decide)

end LuaChunk.Double

namespace LuaChunk.Binary64

variable {x : Float} {negative : Bool} {m num den : Nat} {e : Int}

theorem ofBits_toBits (x : Float) : ofBits x.toBits.toNat = x := by
  have hbits : x.toBits.toNat.toUInt64 = x.toBits := UInt64.ofNat_toNat
  rw [ofBits, hbits, Float.ofBits_toBits]

/-- A mantissa and an exponent as a float has them. -/
structure Fits (m : Nat) (e : Int) : Prop where
  mantissa : m < 2 * hiddenBit
  least : -1074 ≤ e
  most : e ≤ 971
  leading : hiddenBit ≤ m ∨ e = -1074

theorem pack_small (hm : m < hiddenBit) : pack negative m e = ofBits (signBit negative + m) := by
  have hne : m ≠ 2 * hiddenBit := by omega
  unfold pack
  rw [if_neg hne]
  exact if_pos hm

theorem pack_large (hm : hiddenBit ≤ m) (hlt : m < 2 * hiddenBit) (he : e ≤ 971) :
    pack negative m e = ofBits
      (signBit negative + (e + 1075).toNat * hiddenBit + (m - hiddenBit)) := by
  unfold pack
  rw [if_neg (Nat.ne_of_lt hlt)]
  exact (if_neg (Nat.not_lt.2 hm)).trans (if_neg (Int.not_lt.2 he))

theorem bits_eq {bits : Nat} (h : bits < 2 ^ 64) : signBit (decide (0x8000000000000000 ≤ bits))
    + bits / hiddenBit % 0x800 * hiddenBit + bits % hiddenBit = bits := by
  unfold signBit hiddenBit
  by_cases hsign : 0x8000000000000000 ≤ bits
  · rw [decide_eq_true hsign, if_pos rfl]
    omega
  · rw [decide_eq_false hsign, if_neg Bool.false_ne_true]
    omega

theorem read_finite (h : read x = .finite negative m e) : Fits m e ∧ pack negative m e = x := by
  have hparts := bits_eq x.toBits.toNat_lt
  have hx := ofBits_toBits x
  unfold read at h
  generalize x.toBits.toNat = bits at h hparts hx
  have hpos : 0 < hiddenBit := by decide
  have hfraction : bits % hiddenBit < hiddenBit := Nat.mod_lt _ hpos
  have hfield : bits / hiddenBit % 0x800 < 0x800 := Nat.mod_lt _ (by decide)
  dsimp only at h
  split at h
  · split at h <;> cases h
  · split at h
    · rename_i hnone
      cases h
      refine ⟨⟨by omega, Int.le_refl _, by decide, .inr rfl⟩, ?_⟩
      rw [hnone, Nat.zero_mul, Nat.add_zero] at hparts
      rw [pack_small hfraction, hparts, hx]
    · cases h
      refine ⟨⟨by omega, by omega, by omega, .inl (Nat.le_add_left ..)⟩, ?_⟩
      rw [pack_large (Nat.le_add_left ..) (by omega) (by omega), Nat.add_sub_cancel]
      have hexp : ((bits / hiddenBit % 0x800 : Nat) - 1075 + 1075 : Int).toNat =
          bits / hiddenBit % 0x800 := by omega
      rw [hexp, hparts, hx]

theorem read_infinite (h : read x = .infinite negative) : infinity negative = x := by
  have hparts := bits_eq x.toBits.toNat_lt
  have hx := ofBits_toBits x
  unfold read at h
  generalize x.toBits.toNat = bits at h hparts hx
  dsimp only at h
  split at h
  · rename_i hfield
    split at h
    · rename_i hfraction
      cases h
      rw [hfield, hfraction, Nat.add_zero] at hparts
      rw [infinity, hparts, hx]
    · cases h
  · split at h <;> cases h

/-- The number `m · 2 ^ e`. -/
def value (m : Nat) (e : Int) : ℚ := m * 2 ^ e

theorem two_zpow_pos (e : Int) : (0 : ℚ) < 2 ^ e := by positivity

theorem cast_hiddenBit : (hiddenBit : ℚ) = 2 ^ (52 : Int) := by
  rw [hiddenBit]
  norm_num

theorem value_lt {b : Int} (h : m < 2 * hiddenBit) (hb : e + 53 = b) : value m e < 2 ^ b := by
  have hm : (m : ℚ) < 2 ^ (53 : Int) := by
    have hcast : (m : ℚ) < 2 * hiddenBit := by exact_mod_cast h
    rw [cast_hiddenBit] at hcast
    calc (m : ℚ) < 2 * 2 ^ (52 : Int) := hcast
      _ = 2 ^ (53 : Int) := by norm_num
  rw [value, ← hb, add_comm, zpow_add₀ two_ne_zero]
  exact mul_lt_mul_of_pos_right hm (two_zpow_pos e)

theorem le_value {b : Int} (h : hiddenBit ≤ m) (hb : e + 52 = b) : 2 ^ b ≤ value m e := by
  have hm : (2 : ℚ) ^ (52 : Int) ≤ m := by
    rw [← cast_hiddenBit]
    exact_mod_cast h
  rw [value, ← hb, add_comm, zpow_add₀ two_ne_zero]
  exact mul_le_mul_of_nonneg_right hm (two_zpow_pos e).le

theorem ratio_bounds (hnum : num ≠ 0) (hden : den ≠ 0) :
    (2 : ℚ) ^ ((num.log2 : Int) - den.log2 - 1) < num / den ∧
    (num / den : ℚ) < 2 ^ ((num.log2 : Int) - den.log2 + 1) := by
  have hd : (0 : ℚ) < den := by exact_mod_cast Nat.pos_of_ne_zero hden
  have hnlow : (2 : ℚ) ^ (num.log2 : Int) ≤ num := by exact_mod_cast Nat.log2_self_le hnum
  have hdlow : (2 : ℚ) ^ (den.log2 : Int) ≤ den := by exact_mod_cast Nat.log2_self_le hden
  have hnhigh : (num : ℚ) < 2 ^ ((num.log2 : Int) + 1) := by exact_mod_cast Nat.lt_log2_self
  have hdhigh : (den : ℚ) < 2 ^ ((den.log2 : Int) + 1) := by exact_mod_cast Nat.lt_log2_self
  constructor
  · rw [lt_div_iff₀ hd]
    calc (2 : ℚ) ^ ((num.log2 : Int) - den.log2 - 1) * den
        < 2 ^ ((num.log2 : Int) - den.log2 - 1) * 2 ^ ((den.log2 : Int) + 1) :=
          mul_lt_mul_of_pos_left hdhigh (two_zpow_pos _)
      _ = 2 ^ (num.log2 : Int) := by rw [← zpow_add₀ two_ne_zero]; congr 1; ring
      _ ≤ num := hnlow
  · rw [div_lt_iff₀ hd]
    calc (num : ℚ) < 2 ^ ((num.log2 : Int) + 1) := hnhigh
      _ = 2 ^ ((num.log2 : Int) - den.log2 + 1) * 2 ^ (den.log2 : Int) := by
        rw [← zpow_add₀ two_ne_zero]; congr 1; ring
      _ ≤ 2 ^ ((num.log2 : Int) - den.log2 + 1) * den :=
        mul_le_mul_of_nonneg_left hdlow (two_zpow_pos _).le

theorem inUnits_spec (num : Nat) (hden : den ≠ 0) (e : Int) : (inUnits num den e).2 ≠ 0 ∧
    ((inUnits num den e).1 / (inUnits num den e).2 : ℚ) = num / den / 2 ^ e := by
  have hd : (den : ℚ) ≠ 0 := by exact_mod_cast hden
  unfold inUnits
  split
  · rename_i he
    obtain ⟨k, rfl⟩ := Int.eq_ofNat_of_zero_le he
    have hpow : Nat.pow 2 (k : Int).toNat = 2 ^ k := rfl
    refine ⟨Nat.mul_ne_zero hden (by rw [hpow]; positivity), ?_⟩
    rw [hpow]
    push_cast
    rw [zpow_natCast]
    field_simp
  · rename_i he
    obtain ⟨k, hk⟩ := Int.eq_ofNat_of_zero_le (show 0 ≤ -e by omega)
    refine ⟨hden, ?_⟩
    have hpow : Nat.pow 2 (-e).toNat = 2 ^ k := by rw [hk]; rfl
    rw [hpow, show e = -(k : Int) by omega, zpow_neg, zpow_natCast]
    push_cast
    field_simp

theorem roundDiv_exact {n d : Nat} (hd : d ≠ 0) (h : (n / d : ℚ) = m) : roundDiv n d = m := by
  have hd' : (d : ℚ) ≠ 0 := by exact_mod_cast hd
  have hn : n = m * d := by
    rw [div_eq_iff hd'] at h
    exact_mod_cast h
  have hpos := Nat.pos_of_ne_zero hd
  unfold roundDiv
  rw [hn, Nat.mul_div_cancel _ hpos, Nat.mul_mod_left]
  exact if_pos hpos

theorem exponent_unique {v : ℚ} {f : Int} (hlt : v < 2 ^ (e + 53))
    (hle : e = -1074 ∨ 2 ^ (e + 52) ≤ v) (he : -1074 ≤ e)
    (hlt' : v < 2 ^ (f + 53)) (hle' : f = -1074 ∨ 2 ^ (f + 52) ≤ v) (hf : -1074 ≤ f) : e = f := by
  rcases lt_trichotomy e f with h | h | h
  · have hv := hle'.resolve_left (by omega)
    exact absurd (hv.trans_lt hlt) (not_lt.2 (zpow_le_zpow_right₀ one_le_two (by omega)))
  · exact h
  · have hv := hle.resolve_left (by omega)
    exact absurd (hv.trans_lt hlt') (not_lt.2 (zpow_le_zpow_right₀ one_le_two (by omega)))

def chosen (num den : Nat) : Int :=
  let guess := max ((num.log2 : Int) - den.log2 - 53) (-1074)
  let u := inUnits num den guess
  if 2 * hiddenBit ≤ u.1 / u.2 then guess + 1 else guess

theorem ofRatio_eq (hnum : num ≠ 0) (hden : den ≠ 0) : ofRatio negative num den =
    pack negative (roundDiv (inUnits num den (chosen num den)).1
      (inUnits num den (chosen num den)).2) (chosen num den) := by
  unfold ofRatio
  rw [if_neg (by simp [hnum, hden])]
  rfl

/-- With the exponent that is chosen a quotient has as many bits as a mantissa, or the exponent is
least. -/
theorem chosen_spec (hnum : num ≠ 0) (hden : den ≠ 0) : -1074 ≤ chosen num den ∧
    (num / den : ℚ) < 2 ^ (chosen num den + 53) ∧
    (chosen num den = -1074 ∨ (2 : ℚ) ^ (chosen num den + 52) ≤ num / den) := by
  obtain ⟨hlow, hhigh⟩ := ratio_bounds hnum hden
  unfold chosen
  dsimp only
  generalize hg : max ((num.log2 : Int) - den.log2 - 53) (-1074) = guess
  obtain ⟨hu, hunits⟩ := inUnits_spec num hden guess
  generalize inUnits num den guess = u at hu hunits ⊢
  have hpos := two_zpow_pos guess
  have hlt : (num / den : ℚ) < 2 ^ (guess + 54) :=
    hhigh.trans_le (zpow_le_zpow_right₀ one_le_two (by omega))
  have hcut : 2 * hiddenBit ≤ u.1 / u.2 ↔ (2 : ℚ) ^ (guess + 53) ≤ num / den := by
    have hbig : ((2 * hiddenBit : Nat) : ℚ) = 2 ^ (53 : Int) := by
      rw [Nat.cast_mul, cast_hiddenBit]
      norm_num
    rw [Nat.le_div_iff_mul_le (Nat.pos_of_ne_zero hu), ← Nat.cast_le (α := ℚ), Nat.cast_mul, hbig,
      ← le_div_iff₀ (by exact_mod_cast Nat.pos_of_ne_zero hu), hunits, le_div_iff₀ hpos,
        ← zpow_add₀ two_ne_zero, add_comm guess]
  split
  · rename_i hmore
    refine ⟨by omega, ?_, .inr ?_⟩
    · rwa [show guess + 1 + 53 = guess + 54 by ring]
    · rw [show guess + 1 + 52 = guess + 53 by ring]
      exact hcut.1 hmore
  · rename_i hless
    refine ⟨by omega, not_le.1 fun h => hless (hcut.2 h), ?_⟩
    by_cases hleast : guess = -1074
    · exact .inl hleast
    · refine .inr (le_trans ?_ hlow.le)
      exact zpow_le_zpow_right₀ one_le_two (by omega)

theorem ofRatio_exact (hfits : Fits m e) (hnum : num ≠ 0) (hden : den ≠ 0)
    (hv : (num / den : ℚ) = value m e) :
    ofRatio negative num den = pack negative m e := by
  obtain ⟨hleast, hlt, hle⟩ := chosen_spec hnum hden
  have he : chosen num den = e := by
    refine exponent_unique hlt hle hleast ?_ ?_ hfits.least
    · rw [hv]
      exact value_lt hfits.mantissa rfl
    · rcases hfits.leading with hm | he
      · rw [hv]
        exact .inr (le_value hm rfl)
      · exact .inl he
  obtain ⟨hu, hunits⟩ := inUnits_spec num hden e
  have hm : roundDiv (inUnits num den e).1 (inUnits num den e).2 = m := by
    refine roundDiv_exact hu ?_
    rw [hunits, hv, value, mul_div_assoc, div_self (two_zpow_pos e).ne', mul_one]
  rw [ofRatio_eq hnum hden, he, hm]

theorem value_pos (hm : m ≠ 0) (e : Int) : 0 < value m e :=
  mul_pos (by exact_mod_cast Nat.pos_of_ne_zero hm) (two_zpow_pos e)

theorem value_bounds (hm : m ≠ 0) (e : Int) : (2 : ℚ) ^ (e + m.log2) ≤ value m e ∧
    value m e < 2 ^ (e + m.log2 + 1) := by
  have hlow : (2 : ℚ) ^ (m.log2 : Int) ≤ m := by exact_mod_cast Nat.log2_self_le hm
  have hhigh : (m : ℚ) < 2 ^ ((m.log2 : Int) + 1) := by exact_mod_cast Nat.lt_log2_self
  constructor
  · rw [value, add_comm, zpow_add₀ two_ne_zero]
    exact mul_le_mul_of_nonneg_right hlow (two_zpow_pos e).le
  · rw [value, add_assoc, add_comm, zpow_add₀ two_ne_zero]
    exact mul_lt_mul_of_pos_right hhigh (two_zpow_pos e)

theorem ofScaled_exact {k : Nat} {f : Int} (hread : read x = .finite negative m e) (hm : m ≠ 0)
    (hv : value k f = value m e) :
    ofScaled negative k f = x := by
  obtain ⟨hfits, hpack⟩ := read_finite hread
  have hk : k ≠ 0 := by
    rintro rfl
    have hpos := value_pos hm e
    rw [← hv, value, Nat.cast_zero, zero_mul] at hpos
    exact lt_irrefl _ hpos
  obtain ⟨hlow, hhigh⟩ := value_bounds hk f
  have hmost : f + k.log2 < 1024 := by
    have hlt : value m e < 2 ^ (1024 : Int) :=
      (value_lt hfits.mantissa rfl).trans_le
        (zpow_le_zpow_right₀ one_le_two (by have := hfits.most; omega))
    rw [← hv] at hlt
    exact (zpow_lt_zpow_iff_right₀ one_lt_two).1 (hlow.trans_lt hlt)
  have hleast : -1074 < f + k.log2 + 1 := by
    have hle : (2 : ℚ) ^ (-1074 : Int) ≤ value m e :=
      le_trans (zpow_le_zpow_right₀ one_le_two (by have := hfits.least; omega))
        (value_bounds hm e).1
    rw [← hv] at hle
    exact (zpow_lt_zpow_iff_right₀ one_lt_two).1 (hle.trans_lt hhigh)
  obtain ⟨hden, hunits⟩ := inUnits_spec k one_ne_zero (-f)
  have hratio : ((inUnits k 1 (-f)).1 / (inUnits k 1 (-f)).2 : ℚ) = value m e := by
    rw [hunits, ← hv, value, Nat.cast_one, div_one, zpow_neg, div_inv_eq_mul]
  have hnum : (inUnits k 1 (-f)).1 ≠ 0 := by
    intro hzero
    rw [hzero, Nat.cast_zero, zero_div] at hratio
    exact (value_pos hm e).ne hratio
  unfold ofScaled
  rw [if_neg hk, if_neg (by omega), if_neg (by omega)]
  exact (ofRatio_exact hfits hnum hden hratio).trans hpack

theorem zero_of_read (h : read x = .finite negative 0 e) : zero negative = x := by
  obtain ⟨-, hpack⟩ := read_finite h
  rw [← hpack, pack_small (by decide), Nat.add_zero, zero]

theorem unpack_zero : (0 : Float).toModel.unpack = .zero .positive := by
  rfl

theorem unpack_negativeZero : (zero true).toModel.unpack = .zero .negative := by
  rfl

theorem eq_of_unpack {y : Float} (h : x.toModel.unpack = y.toModel.unpack) : x = y := by
  have hbits := (Float.Model.UnpackedFloat.unpack_inj_of_valid x.toModel.valid y.toModel.valid).1 h
  exact Float.toBits_inj.1 (UInt64.toBitVec_inj.1 hbits)

theorem eq_zero_of_beq (h : (x == 0) = true) : x = 0 ∨ x = zero true := by
  have hunpack : x.toModel.unpack.beq (0 : Float).toModel.unpack = true := h
  rw [Float.Model.UnpackedFloat.beq_iff_ne_notANumber_and_eq] at hunpack
  obtain ⟨-, -, heq | ⟨-, hzero⟩ | ⟨hneg, -⟩⟩ := hunpack
  · exact .inl (eq_of_unpack heq)
  · rw [unpack_zero] at hzero
    cases hzero
  · exact .inr (eq_of_unpack (hneg.trans unpack_negativeZero.symm))

theorem eq_of_beq {y : Float} (h : (x == y) = true) : x = y ∨ (x = 0 ∧ y = zero true) ∨
    (x = zero true ∧ y = 0) := by
  have hunpack : x.toModel.unpack.beq y.toModel.unpack = true := h
  rw [Float.Model.UnpackedFloat.beq_iff_ne_notANumber_and_eq] at hunpack
  obtain ⟨-, -, heq | ⟨hx, hy⟩ | ⟨hx, hy⟩⟩ := hunpack
  · exact .inl (eq_of_unpack heq)
  · exact .inr
      (.inl ⟨eq_of_unpack (hx.trans unpack_zero.symm),
      eq_of_unpack (hy.trans unpack_negativeZero.symm)⟩)
  · exact .inr (.inr ⟨eq_of_unpack (hx.trans unpack_negativeZero.symm),
      eq_of_unpack (hy.trans unpack_zero.symm)⟩)

theorem ne_nan_of_beq {y : Float} (h : (x == y) = true) : x ≠ nan ∧ y ≠ nan := by
  have hunpack : x.toModel.unpack.beq y.toModel.unpack = true := h
  rw [Float.Model.UnpackedFloat.beq_iff_ne_notANumber_and_eq] at hunpack
  refine ⟨?_, ?_⟩ <;> rintro rfl
  · exact hunpack.1 rfl
  · exact hunpack.2.1 rfl
theorem value_of_whole {whole : Nat} (h : wholePart m e = (whole, false)) :
    (whole / (1 : Nat) : ℚ) = value m e := by
  rw [Nat.cast_one, div_one]
  unfold wholePart at h
  split at h
  · rename_i he
    cases h
    obtain ⟨k, rfl⟩ := Int.eq_ofNat_of_zero_le he
    simp [value]
  · rename_i he
    simp only [Prod.mk.injEq, bne_eq_false_iff_eq] at h
    obtain ⟨rfl, hmod⟩ := h
    obtain ⟨k, rfl⟩ : ∃ k : Nat, e = -k := ⟨(-e).toNat, by omega⟩
    simp only [neg_neg, Int.toNat_natCast, Nat.pow_eq] at hmod ⊢
    rw [Nat.cast_div (Nat.dvd_of_mod_eq_zero hmod) (by positivity), value, zpow_neg, zpow_natCast]
    push_cast
    rfl

theorem zero_positive : zero false = 0 := eq_of_unpack rfl

theorem ofInt_toInt? {z : Int} (h : toInt? x = some z) : ofInt z = x ∨ ofInt z = 0 ∧
    x = zero true := by
  unfold toInt? at h
  split at h
  · rename_i negative m e hread
    obtain ⟨⟨whole, fraction⟩, hw⟩ : ∃ p, wholePart m e = p := ⟨_, rfl⟩
    rw [hw] at h
    cases fraction with
    | true => cases h
    | false =>
      have hv := value_of_whole hw
      obtain rfl : (if negative then -(whole : Int) else whole) = z := Option.some.inj h
      by_cases hm : m = 0
      · -- a zero
        subst hm
        obtain rfl : whole = 0 := by
          rw [value, Nat.cast_zero, zero_mul, Nat.cast_one, div_one] at hv
          exact_mod_cast hv
        have hx := zero_of_read hread
        have hzero : ofInt (if negative then -((0 : Nat) : Int) else ((0 : Nat) : Int)) = 0 := by
          cases negative <;> exact zero_positive
        rw [hzero, ← hx]
        cases negative with
        | false => exact .inl zero_positive.symm
        | true => exact .inr ⟨rfl, rfl⟩
      · have hpos : whole ≠ 0 := by
          rintro rfl
          rw [Nat.cast_zero, zero_div] at hv
          exact (value_pos hm e).ne hv
        obtain ⟨hfits, hpack⟩ := read_finite hread
        have hsign : decide ((if negative then -(whole : Int) else whole) < 0) = negative := by
          cases negative with
          | false => simp
          | true => simpa using Nat.pos_of_ne_zero hpos
        have habs : (if negative then -(whole : Int) else whole).natAbs = whole := by
          cases negative <;> simp
        refine .inl ?_
        rw [ofInt, hsign, habs]
        exact (ofRatio_exact hfits hpos one_ne_zero hv).trans hpack
  · cases h

theorem ofInt_toInt64? {n : Int64} (h : toInt64? x = some n) : ofInt n.toInt = x ∨
    ofInt n.toInt = 0 ∧ x = zero true := by
  unfold toInt64? at h
  split at h
  · rename_i z hz
    split at h
    · rename_i hrange
      cases h
      simp only [Bool.and_eq_true, decide_eq_true_eq] at hrange
      rw [Int64.toInt_ofInt_of_le (by omega) (by omega)]
      exact ofInt_toInt? hz
    · cases h
  · cases h

end LuaChunk.Binary64

namespace LuaChunk.Narrow

open Binary64 (value read read_finite)

variable {x : Float} {negative : Bool} {m : Nat} {e : Int} {f : Format} {bits : Nat}

theorem value_oddPart (fuel m : Nat) (e : Int) :
    value (oddPart fuel m e).1 (oddPart fuel m e).2 = value m e := by
  induction fuel generalizing m e with
  | zero => rfl
  | succ fuel ih =>
    rw [oddPart]
    split
    · rename_i heven
      obtain ⟨k, rfl⟩ : ∃ k, m = 2 * k := ⟨m / 2, by simp at heven; omega⟩
      rw [Nat.mul_div_cancel_left _ (by decide), ih, value, value, zpow_add_one₀ two_ne_zero]
      push_cast
      ring
    · rfl

theorem value_mul_pow (k j : Nat) (g : Int) : value (k * Nat.pow 2 j) g = value k (g + j) := by
  have hpow : Nat.pow 2 j = 2 ^ j := rfl
  rw [hpow, value, value, zpow_add₀ two_ne_zero, zpow_natCast]
  push_cast
  ring

/-- What a format writes a number as: an exponent, which is zero for the least numbers, and a
fraction. -/
theorem encodeFinite_spec (hf : 1 ≤ f.precision) (hm : m ≠ 0)
    (h : encodeFinite? f negative m e = some bits) :
    ∃ exponent fraction, bits = f.join negative exponent fraction ∧ exponent ≤ 2 * f.maxExponent ∧
      fraction < Nat.pow 2 (f.precision - 1) ∧
      value m e = if exponent = 0 then value fraction (2 - f.maxExponent - f.precision)
        else value (fraction + Nat.pow 2 (f.precision - 1))
          (2 - f.maxExponent - f.precision + exponent - 1) := by
  unfold encodeFinite? at h
  rw [if_neg hm] at h
  have hvalue := value_oddPart 64 m e
  generalize oddPart 64 m e = u at h hvalue
  obtain ⟨k, g⟩ := u
  dsimp only at h hvalue
  have hk : k ≠ 0 := by
    rintro rfl
    have hpos := Binary64.value_pos hm e
    rw [← hvalue, value, Nat.cast_zero, zero_mul] at hpos
    exact lt_irrefl _ hpos
  have hlow : Nat.pow 2 k.log2 ≤ k := Nat.log2_self_le hk
  have hhigh : k < Nat.pow 2 (k.log2 + 1) := Nat.lt_log2_self
  have hadd : ∀ a b, Nat.pow 2 (a + b) = Nat.pow 2 a * Nat.pow 2 b := fun a b => Nat.pow_add 2 a b
  split at h
  · cases h
  rename_i hmost
  split at h
  · rename_i hleast
    split at h
    · rename_i hsize
      have hdown : Nat.pow 2 (f.precision - 1) ≤ k * Nat.pow 2 (f.precision - (k.log2 + 1)) := by
        rw [show f.precision - 1 = k.log2 + (f.precision - (k.log2 + 1)) by omega, hadd]
        exact Nat.mul_le_mul_right _ hlow
      have hup : k * Nat.pow 2 (f.precision - (k.log2 + 1)) < Nat.pow 2 (f.precision - 1) +
          Nat.pow 2 (f.precision - 1) := by
        have htwice : Nat.pow 2 (f.precision - 1) + Nat.pow 2 (f.precision - 1) =
            Nat.pow 2 (k.log2 + 1) * Nat.pow 2 (f.precision - (k.log2 + 1)) := by
          rw [← hadd, show k.log2 + 1 + (f.precision - (k.log2 + 1)) = f.precision - 1 +
            1 by omega, hadd]
          exact (Nat.mul_two _).symm
        rw [htwice]
        exact Nat.mul_lt_mul_of_pos_right hhigh (Nat.two_pow_pos _)
      refine ⟨_, _, (Option.some.inj h).symm, by omega, by omega, ?_⟩
      rw [if_neg (by omega), Nat.sub_add_cancel hdown, value_mul_pow, ← hvalue]
      congr 1
      omega
    · cases h
  · rename_i hleast
    split at h
    · rename_i hunit
      refine ⟨_, _, (Option.some.inj h).symm, Nat.zero_le _, ?_, ?_⟩
      · obtain ⟨j, hj⟩ := Int.eq_ofNat_of_zero_le
          (show 0 ≤ g - (1 - (f.maxExponent : Int) - f.precision + 1) by omega)
        rw [hj]
        calc k * Nat.pow 2 (j : Int).toNat < Nat.pow 2 (k.log2 + 1) * Nat.pow 2 j :=
              Nat.mul_lt_mul_of_pos_right hhigh (Nat.two_pow_pos _)
          _ = Nat.pow 2 (k.log2 + 1 + j) := (hadd _ _).symm
          _ ≤ Nat.pow 2 (f.precision - 1) := Nat.pow_le_pow_right (by decide) (by omega)
      · rw [if_pos rfl, value_mul_pow, ← hvalue]
        congr 1
        omega
    · cases h

theorem fields_join (negative : Bool) {exponent fraction : Nat}
    (hexp : exponent < 2 * (f.maxExponent + 1))
    (hfraction : fraction < Nat.pow 2 (f.precision - 1)) :
    f.join negative exponent fraction % Nat.pow 2 (f.precision - 1) = fraction ∧
    f.join negative exponent fraction / Nat.pow 2 (f.precision - 1) % (2 * (f.maxExponent + 1)) =
      exponent ∧
    decide (2 * (f.maxExponent + 1) ≤ f.join negative exponent fraction / Nat.pow 2
      (f.precision - 1)) = negative := by
  have hpos : 0 < Nat.pow 2 (f.precision - 1) := Nat.two_pow_pos _
  have hdiv : f.join negative exponent fraction / Nat.pow 2 (f.precision - 1) =
      (if negative then 2 * (f.maxExponent + 1) else 0) + exponent := by
    rw [Format.join, Nat.mul_comm, Nat.mul_add_div hpos, Nat.div_eq_of_lt hfraction, Nat.add_zero]
  rw [hdiv]
  refine ⟨?_, ?_, ?_⟩
  · rw [Format.join, Nat.mul_comm, Nat.mul_add_mod, Nat.mod_eq_of_lt hfraction]
  · cases negative with
    | false => rw [if_neg Bool.false_ne_true, Nat.zero_add, Nat.mod_eq_of_lt hexp]
    | true => rw [if_pos rfl, Nat.add_mod_left, Nat.mod_eq_of_lt hexp]
  · cases negative with
    | false => rw [if_neg Bool.false_ne_true, Nat.zero_add, decide_eq_false (Nat.not_le.2 hexp)]
    | true => rw [if_pos rfl, decide_eq_true (Nat.le_add_right ..)]

theorem decode_join {exponent fraction : Nat} (hexp : exponent ≤ 2 * f.maxExponent)
    (hfraction : fraction < Nat.pow 2 (f.precision - 1)) : decode f
    (f.join negative exponent fraction) =
      Double.of (if exponent = 0 then
        Binary64.ofScaled negative fraction (2 - f.maxExponent - f.precision)
      else Binary64.ofScaled negative (fraction + Nat.pow 2 (f.precision - 1))
        (2 - f.maxExponent - f.precision + exponent - 1)) := by
  obtain ⟨hmod, hfield, hsign⟩ :=
    fields_join negative (show exponent < 2 * (f.maxExponent + 1) by omega) hfraction
  unfold decode
  dsimp only
  rw [hmod, hfield, hsign, if_neg (by omega), apply_ite Double.of]

theorem join_lt {exponent fraction : Nat} (hexp : exponent ≤ 2 * f.maxExponent)
    (hfraction : fraction < Nat.pow 2 (f.precision - 1)) :
    f.join negative exponent fraction < 4 * (f.maxExponent + 1) * Nat.pow 2 (f.precision - 1) := by
  have hsign : (if negative then 2 * (f.maxExponent + 1) else 0) ≤ 2 * (f.maxExponent + 1) := by
    split <;> omega
  unfold Format.join
  dsimp only
  generalize (if negative then 2 * (f.maxExponent + 1) else 0) = sign at hsign ⊢
  calc (sign + exponent) * Nat.pow 2 (f.precision - 1) + fraction
      < (sign + exponent) * Nat.pow 2 (f.precision - 1) + Nat.pow 2 (f.precision - 1) := by omega
    _ = (sign + exponent + 1) * Nat.pow 2 (f.precision - 1) := (Nat.succ_mul ..).symm
    _ ≤ 4 * (f.maxExponent + 1) * Nat.pow 2 (f.precision - 1) := Nat.mul_le_mul_right _ (by omega)

theorem decode_encode (hf : 1 ≤ f.precision) (h : encode? f x = some bits) : decode f bits = x ∧
    bits < 4 * (f.maxExponent + 1) * Nat.pow 2 (f.precision - 1) := by
  unfold encode? at h
  split at h
  · rename_i negative m e hread
    by_cases hm : m = 0
    · subst hm
      obtain rfl : f.join negative 0 0 = bits := Option.some.inj h
      refine ⟨?_, join_lt (Nat.zero_le _) (Nat.two_pow_pos _)⟩
      rw [decode_join (Nat.zero_le _) (Nat.two_pow_pos _), if_pos rfl]
      exact congrArg Double.of (Binary64.zero_of_read hread)
    · obtain ⟨exponent, fraction, rfl, hexp, hfraction, hvalue⟩ := encodeFinite_spec hf hm h
      refine ⟨?_, join_lt hexp hfraction⟩
      rw [decode_join hexp hfraction]
      refine congrArg Double.of ?_
      split
      · rename_i hzero
        rw [if_pos hzero] at hvalue
        exact Binary64.ofScaled_exact hread hm hvalue.symm
      · rename_i hzero
        rw [if_neg hzero] at hvalue
        exact Binary64.ofScaled_exact hread hm hvalue.symm
  · cases h

end LuaChunk.Narrow
