import LuaChunk.Value

/-!
Integer arithmetic. The operators on 64-bit integers are compared with those of the integers and
with bit patterns: sums, differences, products, negations and floored quotients are taken modulo
2^64, remainders are exact, and a shift moves the bits of the pattern by a signed count of any size.
-/

set_option autoImplicit false

namespace LuaChunk

/-- The bit of a 64-bit pattern at a position, counted from the lowest one. Beyond both ends there
are none. -/
def bitAt (x : Int64) (i : Int) : Bool := decide (0 ≤ i) && x.toBitVec.getLsbD i.toNat

section

variable {x y : Int64} {i : Int}

theorem bitAt_natCast (x : Int64) (i : Nat) : bitAt x i = x.toBitVec.getLsbD i := by
  simp [bitAt]

theorem bitAt_of_neg (x : Int64) (h : i < 0) : bitAt x i = false := by
  simp [bitAt, Int.not_le.2 h]

theorem bitAt_of_ge (x : Int64) (h : 64 ≤ i) : bitAt x i = false := by
  rw [bitAt, BitVec.getLsbD_of_ge _ _ (by omega), Bool.and_false]

theorem bitAt_zero (i : Int) : bitAt 0 i = false := by
  simp [bitAt]

theorem eq_of_bitAt (h : ∀ i : Nat, i < 64 → bitAt x i = bitAt y i) : x = y := by
  apply Int64.toBitVec_inj.1
  apply BitVec.eq_of_getLsbD_eq
  intro i hi
  rw [← bitAt_natCast, ← bitAt_natCast]
  exact h i hi

theorem bitAt_and (x y : Int64) (i : Int) : bitAt (x &&& y) i = (bitAt x i && bitAt y i) := by
  simp only [bitAt, Int64.toBitVec_and, BitVec.getLsbD_and]
  cases decide (0 ≤ i) <;> rfl

theorem bitAt_or (x y : Int64) (i : Int) : bitAt (x ||| y) i = (bitAt x i || bitAt y i) := by
  simp only [bitAt, Int64.toBitVec_or, BitVec.getLsbD_or]
  cases decide (0 ≤ i) <;> rfl

theorem bitAt_xor (x y : Int64) (i : Int) : bitAt (x ^^^ y) i = (bitAt x i ^^ bitAt y i) := by
  simp only [bitAt, Int64.toBitVec_xor, BitVec.getLsbD_xor]
  cases decide (0 ≤ i) <;> rfl

theorem bitAt_not (x : Int64) {i : Nat} (h : i < 64) : bitAt (~~~x) i = !bitAt x i := by
  rw [bitAt_natCast, bitAt_natCast, Int64.toBitVec_not, BitVec.getLsbD_not]
  simp [h]

end

namespace Number

theorem toInt_opposite (y : Int64) :
    (-y).toInt = -y.toInt ∨ y.toInt = -9223372036854775808 ∧ (-y).toInt = -9223372036854775808 := by
  have hlow := y.le_toInt
  have hhigh := y.toInt_lt
  rw [Int64.toInt_neg]
  by_cases h : y.toInt = -9223372036854775808
  · right
    rw [h]
    decide
  · left
    apply Int.bmod_eq_of_le <;> omega

theorem toNat_toUInt64 {y : Int64} (h : 0 ≤ y.toInt) : y.toUInt64.toNat = y.toInt.toNat := by
  have hlow : y.toBitVec.toInt = y.toBitVec.toNat := by
    apply BitVec.toInt_eq_toNat_of_msb
    rw [BitVec.msb_eq_toInt]
    exact decide_eq_false (Int.not_lt.2 h)
  show y.toBitVec.toNat = y.toBitVec.toInt.toNat
  omega

theorem bitAt_shiftLeft (x y : Int64) {i : Nat} (hi : i < 64) :
    bitAt (shiftLeft x y) i = bitAt x (i - y.toInt) := by
  have hneg : (y < 0) ↔ y.toInt < 0 := Int64.lt_iff_toInt_lt
  have hfar : (y ≤ -64) ↔ y.toInt ≤ -64 := Int64.le_iff_toInt_le
  have hlong : (64 ≤ y) ↔ 64 ≤ y.toInt := Int64.le_iff_toInt_le
  unfold shiftLeft
  simp only [hneg, hfar, hlong]
  split
  · split
    · rw [bitAt_zero, bitAt_of_ge x (by omega)]
    · -- to the right by fewer than 64 places
      have hcount : (-y).toInt = -y.toInt := (toInt_opposite y).resolve_right (by omega)
      have hn : (-y).toUInt64.toNat = (-y.toInt).toNat := by
        rw [toNat_toUInt64 (by omega), hcount]
      have hmod : ((-y).toUInt64.toBitVec % 64).toNat = (-y.toInt).toNat := by
        rw [BitVec.toNat_umod]
        change (-y).toUInt64.toNat % 64 = _
        omega
      rw [bitAt_natCast, show (i : Int) - y.toInt =
        ((-y.toInt).toNat + i : Nat) by omega, bitAt_natCast]
      show (x.toUInt64 >>> (-y).toUInt64).toBitVec.getLsbD i = _
      rw [UInt64.toBitVec_shiftRight, BitVec.ushiftRight_eq', BitVec.getLsbD_ushiftRight, hmod]
      rfl
  · split
    · rw [bitAt_zero, bitAt_of_neg x (by omega)]
    · -- to the left by fewer than 64 places
      have hn : y.toUInt64.toNat = y.toInt.toNat := toNat_toUInt64 (by omega)
      have hmod : (y.toUInt64.toBitVec % 64).toNat = y.toInt.toNat := by
        rw [BitVec.toNat_umod]
        change y.toUInt64.toNat % 64 = _
        omega
      rw [bitAt_natCast]
      show (x.toUInt64 <<< y.toUInt64).toBitVec.getLsbD i = _
      rw [UInt64.toBitVec_shiftLeft, BitVec.shiftLeft_eq', BitVec.getLsbD_shiftLeft, hmod]
      by_cases hlt : i < y.toInt.toNat
      · rw [bitAt_of_neg x (by omega), decide_eq_true hlt]
        simp only [Bool.not_true, Bool.and_false, Bool.false_and]
      · rw [show (i : Int) - y.toInt =
          (i - y.toInt.toNat : Nat) by omega, bitAt_natCast, decide_eq_true hi,
          decide_eq_false hlt]
        simp only [Bool.not_false, Bool.true_and]
        rfl

/-- A shift by the opposite count goes the other way, also where the opposite count does not fit. -/
theorem bitAt_shiftRight (x y : Int64) {i : Nat} (hi : i < 64) :
    bitAt (shiftLeft x (-y)) i = bitAt x (i + y.toInt) := by
  rw [bitAt_shiftLeft x (-y) hi]
  rcases toInt_opposite y with h | ⟨h, h'⟩
  · rw [h, Int.sub_neg]
  · rw [bitAt_of_ge x (by omega), bitAt_of_neg x (by omega)]

theorem shiftLeft_far {x y : Int64} (h : 64 ≤ y.toInt.natAbs) : shiftLeft x y = 0 := by
  apply eq_of_bitAt
  intro i hi
  rw [bitAt_shiftLeft x y hi, bitAt_zero]
  rcases Int.natAbs_eq y.toInt with h' | h'
  · exact bitAt_of_neg x (by omega)
  · exact bitAt_of_ge x (by omega)

theorem xor_neg_iff (x y : Int64) : x ^^^ y < 0 ↔ ¬ (x.toInt < 0 ↔ y.toInt < 0) := by
  have hsign (z : Int64) : z.toBitVec.msb = decide (z.toInt < 0) := BitVec.msb_eq_toInt
  rw [Int64.lt_iff_toBitVec_slt, show (0 : Int64).toBitVec = 0#64 from rfl, BitVec.slt_zero_eq_msb,
    Int64.toBitVec_xor,
    BitVec.msb_xor, hsign, hsign]
  by_cases hx : x.toInt < 0 <;> by_cases hy : y.toInt < 0 <;> simp [hx, hy]

theorem fmod_eq {a b : Int} (hb : b ≠ 0) :
    a.fmod b = if a.tmod b ≠ 0 ∧ ¬ (a.tmod b < 0 ↔ b < 0) then a.tmod b + b else a.tmod b := by
  have hlow := Int.emod_nonneg a hb
  have hhigh := Int.emod_lt a hb
  rw [Int.tmod_eq_emod, Int.fmod_eq_emod]
  simp only [Int.dvd_iff_emod_eq_zero]
  split <;> split <;> split <;> omega

theorem fdiv_eq {a b : Int} (hb : b ≠ 0) :
    a.fdiv b = if a.tmod b ≠ 0 ∧ ¬ (a < 0 ↔ b < 0) then a.tdiv b - 1 else a.tdiv b := by
  have hsign : b.sign = if b < 0 then -1 else 1 := by
    split
    · exact Int.sign_eq_neg_one_of_neg ‹_›
    · exact Int.sign_eq_one_of_pos (by omega)
  rw [Int.fdiv_eq_tdiv, hsign]
  simp only [Int.dvd_iff_tmod_eq_zero]
  by_cases hd : a.tmod b = 0
  · simp [hd]
  · rw [if_neg hd]
    split <;> split <;> split <;> omega

variable {x y : Int64}

theorem intDiv_eq (hy : y ≠ 0) : intDiv x y = .ofInt (x.toInt.fdiv y.toInt) := by
  have hne : y.toInt ≠ 0 := fun h => hy (Int64.toInt_inj.1 h)
  unfold intDiv
  split
  · rename_i h
    subst h
    rw [show (-1 : Int64).toInt = -1 from rfl, ← Int.neg_fdiv_neg, Int.neg_neg, Int.fdiv_one,
      Int64.ofInt_neg,
      Int64.ofInt_toInt]
  · rename_i h
    have hquotient : x / y = .ofInt (x.toInt.tdiv y.toInt) := by
      rw [← Int64.toInt_div_of_ne_right x y h, Int64.ofInt_toInt]
    have hzero : x % y ≠ 0 ↔ x.toInt.tmod y.toInt ≠ 0 := by
      rw [← Int64.toInt_mod]
      exact not_congr Int64.toInt_inj.symm
    simp only [Bool.and_eq_true, decide_eq_true_eq, hzero, xor_neg_iff]
    rw [fdiv_eq hne, hquotient]
    split
    · rw [Int64.ofInt_sub]
      rfl
    · rfl

theorem toInt_intMod (hy : y ≠ 0) : (intMod x y).toInt = x.toInt.fmod y.toInt := by
  have hne : y.toInt ≠ 0 := fun h => hy (Int64.toInt_inj.1 h)
  unfold intMod
  split
  · rename_i h
    subst h
    rw [show (-1 : Int64).toInt = -1 from rfl, fmod_eq (by decide), Int.tmod_neg, Int.tmod_one]
    rfl
  · have hzero : x % y ≠ 0 ↔ x.toInt.tmod y.toInt ≠ 0 := by
      rw [← Int64.toInt_mod]
      exact not_congr Int64.toInt_inj.symm
    simp only [Bool.and_eq_true, decide_eq_true_eq, hzero, xor_neg_iff, Int64.toInt_mod]
    rw [fmod_eq hne]
    split
    · -- the signs of the remainder and of the divisor differ, so their sum is no larger than either
      rename_i h
      have hlow := y.le_toInt
      have hhigh := y.toInt_lt
      have hr := (x % y).le_toInt
      have hr' := (x % y).toInt_lt
      rw [Int64.toInt_mod] at hr hr'
      rw [Int64.toInt_add, Int64.toInt_mod]
      apply Int.bmod_eq_of_le <;> omega
    · exact Int64.toInt_mod ..

end Number

/-- What the operators give for two integers. -/
structure IntegerResults (x y : Int64) (result : ArithOp → Int64) : Prop where
  add : result .add = .ofInt (x.toInt + y.toInt)
  sub : result .sub = .ofInt (x.toInt - y.toInt)
  mul : result .mul = .ofInt (x.toInt * y.toInt)
  unm : result .unm = .ofInt (-x.toInt)
  idiv : y ≠ 0 → result .idiv = .ofInt (x.toInt.fdiv y.toInt)
  mod : y ≠ 0 → (result .mod).toInt = x.toInt.fmod y.toInt
  division : y ≠ 0 → x = result .idiv * y + result .mod
  remainder : y ≠ 0 → (result .mod = 0 ∨ (result .mod).toInt.sign = y.toInt.sign) ∧
    (result .mod).toInt.natAbs < y.toInt.natAbs
  wraps : x = Int64.minValue → y = -1 → result .idiv = Int64.minValue
  shl : ∀ i : Nat, i < 64 → bitAt (result .shl) i = bitAt x (i - y.toInt)
  shr : ∀ i : Nat, i < 64 → bitAt (result .shr) i = bitAt x (i + y.toInt)
  far : 64 ≤ y.toInt.natAbs → result .shl = 0 ∧ result .shr = 0
  band : ∀ i, bitAt (result .band) i = (bitAt x i && bitAt y i)
  bor : ∀ i, bitAt (result .bor) i = (bitAt x i || bitAt y i)
  bxor : ∀ i, bitAt (result .bxor) i = (bitAt x i ^^ bitAt y i)
  bnot : ∀ i : Nat, i < 64 → bitAt (result .bnot) i = !bitAt x i

namespace Number

variable {x y : Int64}

theorem fmod_bounds {a b : Int} (hb : b ≠ 0) : (a.fmod b = 0 ∨ (a.fmod b).sign = b.sign) ∧
    (a.fmod b).natAbs < b.natAbs := by
  rcases Int.lt_or_gt_of_ne hb with h | h
  · have hlow := Int.neg_fmod_neg a b ▸ Int.fmod_lt_of_pos (-a) (b := -b) (by omega)
    have hhigh := Int.neg_fmod_neg a b ▸ Int.fmod_nonneg_of_pos (-a) (b := -b) (by omega)
    refine ⟨?_, by omega⟩
    by_cases hz : a.fmod b = 0
    · exact .inl hz
    · right
      rw [Int.sign_eq_neg_one_of_neg h, Int.sign_eq_neg_one_of_neg (by omega)]
  · have hlow := Int.fmod_nonneg_of_pos a h
    have hhigh := Int.fmod_lt_of_pos a h
    refine ⟨?_, by omega⟩
    by_cases hz : a.fmod b = 0
    · exact .inl hz
    · right
      rw [Int.sign_eq_one_of_pos h, Int.sign_eq_one_of_pos (by omega)]

theorem intArith_results (x y : Int64) : IntegerResults x y (intArith · x y) where
  add := by rw [Int64.ofInt_add, Int64.ofInt_toInt, Int64.ofInt_toInt]; rfl
  sub := by rw [Int64.ofInt_sub, Int64.ofInt_toInt, Int64.ofInt_toInt]; rfl
  mul := by rw [Int64.ofInt_mul, Int64.ofInt_toInt, Int64.ofInt_toInt]; rfl
  unm := by rw [Int64.ofInt_neg, Int64.ofInt_toInt]; rfl
  idiv := intDiv_eq
  mod := toInt_intMod
  division hy := by
    symm
    calc intDiv x y * y + intMod x y
        = .ofInt (x.toInt.fdiv y.toInt) * .ofInt y.toInt + .ofInt (x.toInt.fmod y.toInt) := by
          rw [intDiv_eq hy, Int64.ofInt_toInt y, ← toInt_intMod hy, Int64.ofInt_toInt]
      _ = .ofInt (x.toInt.fmod y.toInt + y.toInt * x.toInt.fdiv y.toInt) := by
          rw [← Int64.ofInt_mul, ← Int64.ofInt_add, Int.mul_comm, Int.add_comm]
      _ = x := by rw [Int.fmod_add_mul_fdiv, Int64.ofInt_toInt]
  remainder hy := by
    have hb := fmod_bounds (a := x.toInt) (b := y.toInt) fun h => hy (Int64.toInt_inj.1 h)
    rw [← toInt_intMod hy] at hb
    exact ⟨hb.1.imp_left fun h => Int64.toInt_inj.1 h, hb.2⟩
  wraps hx hy := by
    subst hx hy
    decide
  shl _ hi := bitAt_shiftLeft x y hi
  shr _ hi := bitAt_shiftRight x y hi
  far h := by
    refine ⟨shiftLeft_far h, shiftLeft_far ?_⟩
    rcases toInt_opposite y with h' | ⟨-, h'⟩ <;> omega
  band := bitAt_and x y
  bor := bitAt_or x y
  bxor := bitAt_xor x y
  bnot _ hi := bitAt_not x hi

end Number

open Number

/-- Two integers have an integer result for every operator but the two that are done on floats, and
a shift is the one the other way by the opposite count if that fits. -/
theorem Value.arith_integers (x y : Int64) :
    (∃ result : ArithOp → Int64, IntegerResults x y result ∧ ∀ op, op ≠ .div → op ≠ .pow →
      Value.arith op (.num (.int x)) (.num (.int y)) = some (.num (.int (result op)))) ∧
    (y ≠ Int64.minValue → (-y).toInt = -y.toInt ∧
      Value.arith .shl (.num (.int x)) (.num (.int y)) = Value.arith .shr (.num (.int x))
        (.num (.int (-y)))) := by
  constructor
  · refine ⟨(intArith · x y), intArith_results x y, ?_⟩
    intro op hdiv hpow
    cases op <;> first | rfl | exact absurd rfl hdiv | exact absurd rfl hpow
  · intro hy
    constructor
    · exact (toInt_opposite y).resolve_right fun h => hy (Int64.toInt_inj.1 h.1)
    · show some (Value.num (.int (shiftLeft x y))) = some (.num (.int (shiftLeft x (- -y))))
      rw [Int64.neg_neg]

/-- The quotient that wraps, a floored remainder, and a shift by the least count. -/
example : Value.arith .idiv (.num (.int Int64.minValue)) (.num (.int (-1))) =
  some (.num (.int Int64.minValue)) ∧
    Value.arith .mod (.num (.int (-7))) (.num (.int 3)) = some (.num (.int 2)) ∧
    Value.arith .shr (.num (.int (-1))) (.num (.int Int64.minValue)) = some (.num (.int 0)) :=
      ⟨rfl, rfl, rfl⟩

end LuaChunk
