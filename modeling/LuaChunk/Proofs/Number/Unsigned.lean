import LuaChunk.Proofs.Number.Exact
import LuaChunk.Proofs.Source.Quoted

/-!
The signs of numerals. A numeral without a sign denotes a float that is no NaN and has no sign
either: digits only add up and shift, and rounding keeps the sign. What is written in digits is
followed through the unpacked form of floats, since its operations go by cases of the sign.
-/

set_option autoImplicit false

namespace LuaChunk.Binary64

open Float.Model Float.Model.UnpackedFloat

def isUnsigned : UnpackedFloat → Bool
  | .infinity .positive | .zero .positive | .finite .positive _ _ _ => true
  | _ => false

def Unsigned (x : Float) : Prop := isUnsigned x.toModel.unpack = true

/-- A float that is neither a NaN nor the negative zero. -/
def Regular (x : Float) : Prop := x.isNaN = false ∧ x ≠ zero true

instance (x : Float) : Decidable (Unsigned x) := inferInstanceAs (Decidable (_ = true))

theorem unsigned_unpack {b : BitVec Format.binary64.numBits} (hs : unpackSign b = 0#1)
    (hn : unpackExponent b = -1#_ → unpackMantissa b = 0#_) : isUnsigned
    (UnpackedFloat.unpack Format.binary64 b) = true := by
  have hsign : Sign.ofBitVec (unpackSign b) = .positive := by rw [hs]; rfl
  unfold UnpackedFloat.unpack
  dsimp only
  rw [hsign]
  split
  · rename_i he
    rw [if_pos (hn he)]
    rfl
  · split
    · split <;> rfl
    · rfl

theorem exponent_ne {n : Nat} (h : ¬ 2 ^ Format.binary64.exponentBits ≤ n + 1) :
    BitVec.ofNat Format.binary64.exponentBits n ≠ -1#_ := by
  intro he
  replace h : n + 1 < 2048 := not_le.1 h
  have hn := congrArg BitVec.toNat he
  rw [BitVec.toNat_ofNat, show (-BitVec.ofNat Format.binary64.exponentBits 1).toNat =
    2047 by decide] at hn
  replace hn : n % 2048 = 2047 := hn
  omega

theorem unsigned_pack {u : UnpackedFloat} (h : isUnsigned u = true) :
    isUnsigned (Float.Model.pack u).unpack = true := by
  show isUnsigned (UnpackedFloat.unpack Format.binary64 (UnpackedFloat.pack Format.binary64 u)) =
      true
  have hcomponents : ∀ e m, (e = -1#_ → m = 0#_) →
      isUnsigned (UnpackedFloat.unpack Format.binary64
        (packComponents Format.binary64 .positive e m)) = true := by
    intro e m hm
    refine unsigned_unpack (unpackSign_packComponents _ _ _) ?_
    rw [unpackExponent_packComponents, unpackMantissa_packComponents]
    exact hm
  match u with
  | .infinity .positive | .zero .positive => exact hcomponents _ _ fun _ => rfl
  | .finite .positive m e hm =>
    unfold UnpackedFloat.pack
    dsimp only
    split
    · exact hcomponents _ _ fun _ => rfl
    · rename_i hsmall
      split
      · exact hcomponents _ _ fun he => (exponent_ne hsmall he).elim
      · exact hcomponents _ _ fun he => absurd he (by decide)

theorem unsigned_round (m : Nat) (e : Int) (a : Accuracy) :
    isUnsigned (roundWithAccuracy Format.binary64 .positive m e a) = true := by
  unfold roundWithAccuracy
  dsimp only
  split <;> rfl

theorem unsigned_normalize {m : Int} (hm : 0 ≤ m) (e : Int) :
    isUnsigned (UnpackedFloat.normalize Format.binary64 m e .positive) = true := by
  unfold UnpackedFloat.normalize
  split
  · rename_i h
    rw [compare_lt_iff_lt] at h
    omega
  · rfl
  · exact unsigned_round _ _ _

theorem unsigned_add {u v : UnpackedFloat} (hu : isUnsigned u = true) (hv : isUnsigned v = true) :
    isUnsigned (UnpackedFloat.add Format.binary64 u v) = true := by
  match u, v with
  | .infinity .positive, .infinity .positive | .infinity .positive, .zero .positive
  | .infinity .positive, .finite .positive .. | .zero .positive, .infinity .positive
  | .zero .positive, .zero .positive | .zero .positive, .finite .positive ..
  | .finite .positive .., .infinity .positive | .finite .positive .., .zero .positive => rfl
  | .finite .positive m e _, .finite .positive n f _ =>
    exact unsigned_normalize (Int.add_nonneg (Int.natCast_nonneg _) (Int.natCast_nonneg _)) _

theorem unsigned_mul {u : UnpackedFloat} (hu : isUnsigned u = true) {m : Nat} {e : Int}
    (hm : 0 < m) :
    isUnsigned (UnpackedFloat.mul Format.binary64 u (.finite .positive m e hm)) = true := by
  match u with
  | .infinity .positive | .zero .positive => rfl
  | .finite .positive .. => exact unsigned_round _ _ _

theorem Unsigned.add {x y : Float} (hx : Unsigned x) (hy : Unsigned y) : Unsigned (x + y) :=
  unsigned_pack (unsigned_add hx hy)

theorem unsigned_digit {d : Nat} (h : d < 16) : Unsigned (Float.ofNat d) := by
  revert d
  decide

def isPositive : UnpackedFloat → Bool
  | .finite .positive _ _ _ => true
  | _ => false

theorem unpack_sixteen : ∃ m e hm, (16 : Float).toModel.unpack = .finite .positive m e hm := by
  have h : isPositive (16 : Float).toModel.unpack = true := by decide
  match (16 : Float).toModel.unpack, h with
  | .finite .positive m e hm, _ => exact ⟨m, e, hm, rfl⟩

theorem Unsigned.sixteenfold {x : Float} (hx : Unsigned x) : Unsigned (x * 16) := by
  obtain ⟨m, e, hm, h⟩ := unpack_sixteen
  have hmul : (x * 16).toModel =
      Float.Model.pack (UnpackedFloat.mul Format.binary64 x.toModel.unpack
      (16 : Float).toModel.unpack) := rfl
  rw [Unsigned, hmul, h]
  exact unsigned_pack (unsigned_mul hx hm)

theorem Unsigned.regular {x : Float} (hx : Unsigned x) : Regular x := by
  refine ⟨?_, ?_⟩
  · show UnpackedFloat.isNaN x.toModel.unpack = false
    unfold Unsigned at hx
    match x.toModel.unpack, hx with
    | .infinity .positive, _ | .zero .positive, _ | .finite .positive .., _ => rfl
  · rintro rfl
    revert hx
    decide

theorem regular_of_guard {x : Float} (h : ¬ (x.isNaN || x == 0) = true) : Regular x := by
  rw [Bool.or_eq_true, not_or, Bool.not_eq_true] at h
  refine ⟨h.1, ?_⟩
  rintro rfl
  exact h.2 (by decide)

theorem Regular.of_value {x : Double} (hx : Regular x) : Double.of x.value = x := by
  refine Double.of_value fun h => ?_
  have hnan := hx.1
  rw [h] at hnan
  exact absurd hnan (by decide)

theorem Regular.eq_of_beq {x y : Double} (hx : Regular x) (hy : Regular y)
    (h : (x.value == y.value) = true) : x = y := by
  rw [← hx.of_value, ← hy.of_value]
  obtain heq | ⟨-, hz⟩ | ⟨hz, -⟩ := Binary64.eq_of_beq h
  · rw [heq]
  · exact absurd hz hy.2
  · exact absurd hz hx.2

theorem Regular.ofInt_toInt64? {x : Float} {n : Int64} (hx : Regular x) (h : toInt64? x = some n) :
    ofInt n.toInt = x :=
  (Binary64.ofInt_toInt64? h).resolve_right fun hz => hx.2 hz.2

theorem unsigned_ofBits {n : Nat} (h : n ≤ 2047 * hiddenBit) : Unsigned (ofBits n) := by
  have hsize : n < 2 ^ 63 := lt_of_le_of_lt h (by decide)
  have hbits : (n.toUInt64.toBitVec : BitVec Format.binary64.numBits) = BitVec.ofNat 64 n := rfl
  have hfields : ∀ start width, (BitVec.extractLsb' start width (BitVec.ofNat 64 n)).toNat =
      n / 2 ^ start % 2 ^ width := by
    intro start width
    rw [BitVec.extractLsb'_toNat, BitVec.toNat_ofNat,
      Nat.mod_eq_of_lt (Nat.lt_trans hsize (by decide)), Nat.shiftRight_eq_div_pow]
  refine unsigned_pack (unsigned_unpack ?_ fun he => ?_)
  · rw [unpackSign_def, hbits]
    refine BitVec.eq_of_toNat_eq ((hfields 63 1).trans ?_)
    rw [Nat.div_eq_of_lt hsize]
    rfl
  · rw [unpackExponent_def, hbits] at he
    rw [unpackMantissa_def, hbits]
    have hexponent : n / 2 ^ 52 % 2 ^ 11 = 2047 :=
      (hfields 52 11).symm.trans (congrArg BitVec.toNat he)
    refine BitVec.eq_of_toNat_eq ((hfields 0 52).trans ?_)
    show n / 1 % 2 ^ 52 = 0
    unfold hiddenBit at h
    omega

theorem unsigned_zero : Unsigned (zero false) := unsigned_ofBits (by decide)

theorem unsigned_infinity : Unsigned (infinity false) := unsigned_ofBits (by decide)

theorem unsigned_packed {m : Nat} {e : Int} (hm : m ≤ 2 * hiddenBit) (he : -1074 ≤ e) :
    Unsigned (pack false m e) := by
  have hfinite : ∀ {m : Nat} {e : Int}, m < 2 * hiddenBit → -1074 ≤ e →
      Unsigned (pack false m e) := by
    intro m e hm he
    by_cases hsmall : m < hiddenBit
    · rw [pack_small hsmall]
      refine unsigned_ofBits ?_
      rw [signBit, if_neg Bool.false_ne_true]
      omega
    · by_cases hlarge : e ≤ 971
      · rw [pack_large (Nat.le_of_not_lt hsmall) hm hlarge]
        refine unsigned_ofBits ?_
        obtain ⟨k, hk⟩ : ∃ k : Nat, (e + 1075).toNat = k ∧ k ≤ 2046 := ⟨_, rfl, by omega⟩
        rw [signBit, if_neg Bool.false_ne_true, hk.1]
        have := Nat.mul_le_mul_right hiddenBit hk.2
        omega
      · unfold pack
        rw [if_neg (Nat.ne_of_lt hm)]
        dsimp only
        rw [if_neg hsmall, if_pos (by omega)]
        exact unsigned_infinity
  by_cases hm' : m = 2 * hiddenBit
  · -- the mantissa was rounded up to one bit more
    have hcarry : pack false m e = pack false hiddenBit (e + 1) := by
      subst hm'
      rfl
    rw [hcarry]
    exact hfinite (by decide) (by omega)
  · exact hfinite (by omega) he

theorem roundDiv_le {num den : Nat} (hden : den ≠ 0) {m : Nat} (h : num < m * den) :
    roundDiv num den ≤ m := by
  have hq : num / den < m := (Nat.div_lt_iff_lt_mul (Nat.pos_of_ne_zero hden)).2 h
  unfold roundDiv
  dsimp only
  split
  · omega
  · split
    · omega
    · split <;> omega

theorem unsigned_ofRatio (num den : Nat) : Unsigned (ofRatio false num den) := by
  by_cases hnum : num = 0
  · rw [ofRatio, if_pos (by simp [hnum])]
    exact unsigned_zero
  by_cases hden : den = 0
  · rw [ofRatio, if_pos (by simp [hden])]
    exact unsigned_zero
  obtain ⟨hleast, hlt, -⟩ := chosen_spec hnum hden
  obtain ⟨hu, hunits⟩ := inUnits_spec num hden (chosen num den)
  rw [ofRatio_eq hnum hden]
  generalize inUnits num den (chosen num den) = u at hu hunits ⊢
  refine unsigned_packed (roundDiv_le hu ?_) hleast
  have hpos : (0 : ℚ) < u.2 := by exact_mod_cast Nat.pos_of_ne_zero hu
  have hratio : (u.1 / u.2 : ℚ) < 2 * hiddenBit := by
    rw [hunits, div_lt_iff₀ (two_zpow_pos _), cast_hiddenBit]
    calc (num / den : ℚ) < 2 ^ (chosen num den + 53) := hlt
      _ = 2 * 2 ^ (52 : Int) * 2 ^ chosen num den := by
        rw [zpow_add₀ two_ne_zero]
        norm_num
        ring
  rw [div_lt_iff₀ hpos] at hratio
  exact_mod_cast hratio

theorem unsigned_ofScaled (m : Nat) (e : Int) : Unsigned (ofScaled false m e) := by
  unfold ofScaled
  split
  · exact unsigned_zero
  · split
    · exact unsigned_infinity
    · split
      · exact unsigned_zero
      · exact unsigned_ofRatio _ _

theorem unpackSign_of_unsigned {b : BitVec Format.binary64.numBits}
    (h : isUnsigned (UnpackedFloat.unpack Format.binary64 b) = true) : unpackSign b = 0#1 := by
  by_contra hne
  have hsign : Sign.ofBitVec (unpackSign b) = .negative := if_neg hne
  unfold UnpackedFloat.unpack at h
  dsimp only at h
  rw [hsign] at h
  split at h
  · split at h <;> cases h
  · split at h
    · split at h <;> cases h
    · cases h

theorem Unsigned.toBits_lt {x : Float} (hx : Unsigned x) : x.toBits.toNat < 2 ^ 63 := by
  have hsign := congrArg BitVec.toNat (unpackSign_of_unsigned hx)
  rw [unpackSign_def] at hsign
  have hdiv : x.toBits.toNat / 2 ^ 63 % 2 ^ 1 = 0 := by
    rw [← Nat.shiftRight_eq_div_pow]
    exact (BitVec.extractLsb'_toNat ..).symm.trans hsign
  have := x.toBits.toNat_lt
  omega

theorem Unsigned.scale {x : Float} (hx : Unsigned x) (k : Int) : Unsigned (scale x k) := by
  have hbits := hx.toBits_lt
  unfold Binary64.scale
  split
  · rename_i negative m e hread
    obtain rfl : negative = false := by
      have hsmall : decide (0x8000000000000000 ≤ x.toBits.toNat) = false :=
        decide_eq_false (Nat.not_le.2 hbits)
      unfold read at hread
      dsimp only at hread
      rw [hsmall] at hread
      split at hread
      · split at hread <;> cases hread
      · split at hread <;> cases hread <;> rfl
    exact unsigned_ofScaled _ _
  · exact hx

end LuaChunk.Binary64

namespace LuaChunk.Numeral

open Binary64 (Unsigned)

theorem unsigned_toFloat (digits : Nat) (exponent : Int) :
    Unsigned (Decimal.toFloat false digits exponent) := by
  unfold Decimal.toFloat
  split
  · exact Binary64.unsigned_zero
  · split
    · exact Binary64.unsigned_infinity
    · split
      · exact Binary64.unsigned_zero
      · exact Binary64.unsigned_ofRatio _ _

theorem unsigned_readDecimal {s : Bytes} {x : Float} (h : readDecimal false s = some x) :
    Unsigned x := by
  unfold readDecimal at h
  dsimp only at h
  -- with and without a point
  split at h <;>
    · split at h
      · cases h
      · split at h
        · cases h
          exact unsigned_toFloat _ _
        · split at h
          · obtain ⟨e, -, rfl⟩ := Option.map_eq_some_iff.1 h
            exact unsigned_toFloat _ _
          · cases h

theorem value_push (h : HexDigits) (d : Nat) :
    (h.push d).value = h.value ∨ (h.push d).value = h.value * 16 + Float.ofNat d := by
  unfold HexDigits.push
  dsimp only
  repeat' split
  all_goals first | exact .inl rfl | exact .inr rfl

theorem unsigned_push {h : HexDigits} (hv : Unsigned h.value) {d : Nat} (hd : d < 16) :
    Unsigned (h.push d).value := by
  obtain heq | heq := value_push h d
  · rwa [heq]
  · rw [heq]
    exact hv.sixteenfold.add (Binary64.unsigned_digit hd)

theorem unsigned_readDigits {s rest : Bytes} {h h' : HexDigits} (hv : Unsigned h.value)
    (hr : h.read s = some (h', rest)) :
    Unsigned h'.value := by
  induction s generalizing h with
  | nil =>
    cases hr
    exact hv
  | cons b s ih =>
    rw [HexDigits.read] at hr
    split at hr
    · split at hr
      · cases hr
      · exact ih (h := { h with point := true }) hv hr
    · split at hr
      · rename_i d hd
        have hlt := Numeral.hexValue_lt b
        rw [hexValue, hd] at hlt
        exact ih (unsigned_push hv hlt) hr
      · cases hr
        exact hv

theorem unsigned_start : Unsigned ({} : HexDigits).value :=
  Binary64.unsigned_digit (show 0 < 16 by decide)

theorem unsigned_readHexFloat {s : Bytes} {x : Float} (h : readHexFloat false s = some x) :
    Unsigned x := by
  unfold readHexFloat at h
  split at h
  · cases h
  · rename_i digits rest hr
    have hv : Unsigned digits.value := unsigned_readDigits unsigned_start hr
    dsimp only at h
    split at h
    · cases h
    · split at h
      · cases h
        exact hv.scale _
      · split at h
        · obtain ⟨e, -, rfl⟩ := Option.map_eq_some_iff.1 h
          exact hv.scale _
        · cases h

theorem unsigned_read {s : Bytes} {x : Double} (hs : (sign (trimBlank s)).1 = false)
    (h : read s = some (.float x)) :
    Unsigned x := by
  unfold read at h
  split at h
  · cases h
  · obtain ⟨y, hy, hyx⟩ := Option.map_eq_some_iff.1 h
    cases hyx
    rw [Double.value_of]
    unfold readFloat at hy
    generalize sign (trimBlank s) = p at hs hy
    obtain ⟨negative, body⟩ := p
    obtain rfl : negative = false := hs
    dsimp only at hy
    split at hy
    · exact unsigned_readHexFloat hy
    · exact unsigned_readDecimal hy

end LuaChunk.Numeral
