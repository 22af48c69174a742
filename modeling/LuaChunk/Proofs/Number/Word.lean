import Mathlib
import LuaChunk.Number.Numeral

set_option autoImplicit false

namespace LuaChunk.Numeral

def signed (negative : Bool) (m : Nat) : Int := if negative then -m else m

/-- An integer by the number that its digits denote: a decimal numeral is refused outside the range,
a hexadecimal one is taken modulo `2 ^ 64`. -/
def integer? (s : Bytes) : Option Int64 :=
  let (negative, body) := sign (s.dropWhile Text.isBlank)
  match hexBody? body with
  | some body =>
    let digits := body.takeWhile isHexDigit
    if digits.isEmpty || !allBlank (body.dropWhile isHexDigit) then none
    else some (Int64.ofInt (signed negative (ofHexDigits digits)))
  | none =>
    let digits := body.takeWhile isDigit
    let n := signed negative (ofDigits digits)
    if digits.isEmpty || !allBlank (body.dropWhile isDigit) then none
    else if -2 ^ 63 ≤ n ∧ n ≤ 2 ^ 63 - 1 then some (Int64.ofInt n) else none

theorem digitValue_lt {b : UInt8} (h : isDigit b = true) : digitValue b < 10 := by
  simp only [isDigit, Bool.and_eq_true, decide_eq_true_eq, UInt8.le_iff_toNat_le] at h
  have hhigh : b.toNat ≤ 57 := h.2
  unfold digitValue
  omega

/-- The greatest value that digits may have before the sign is applied. -/
def limit (negative : Bool) : Nat := 2 ^ 63 - 1 + negative.toNat

theorem le_foldl_digits (s : Bytes) (n : Nat) :
    n ≤ s.foldl (fun a b => a * 10 + digitValue b) n := by
  induction s generalizing n with
  | nil => exact Nat.le_refl n
  | cons b s ih =>
    have hstep : n ≤ n * 10 + digitValue b := by omega
    exact Nat.le_trans hstep (ih _)

theorem guard_iff (negative : Bool) (value d : UInt64) (hd : d.toNat < 10) :
    (value ≥ leading && (value > leading || d > lastDigit negative)) = true ↔
      limit negative < value.toNat * 10 + d.toNat := by
  have hleading : leading.toNat = 922337203685477580 := rfl
  have hlast : (lastDigit negative).toNat = 7 + negative.toNat := by cases negative <;> rfl
  simp only [Bool.and_eq_true, Bool.or_eq_true, decide_eq_true_eq, ge_iff_le, gt_iff_lt,
    UInt64.le_iff_toNat_le, UInt64.lt_iff_toNat_lt, hleading, hlast, limit]
  cases negative <;> simp only [Bool.toNat_false, Bool.toNat_true] <;> omega

theorem decimalDigits_eq (negative : Bool) (s : Bytes) (value : UInt64) (empty : Bool)
    (hvalue : value.toNat ≤ limit negative) :
    decimalDigits negative value empty s =
      let n := (s.takeWhile isDigit).foldl (fun a b => a * 10 + digitValue b) value.toNat
      if n ≤ limit negative then
        some ⟨n.toUInt64, empty && (s.takeWhile isDigit).isEmpty, s.dropWhile isDigit⟩
      else none := by
  induction s generalizing value empty with
  | nil => simp [decimalDigits, hvalue]
  | cons b s ih =>
    cases hb : isDigit b with
    | false => simp [decimalDigits, hb, hvalue]
    | true =>
      have hlt := digitValue_lt hb
      have hd : (digitValue b).toUInt64.toNat = digitValue b := by
        rw [UInt64.toNat_ofNat']
        omega
      have hguard := guard_iff negative value (digitValue b).toUInt64 (by omega)
      rw [hd] at hguard
      have hlimit : limit negative ≤ 2 ^ 63 := by cases negative <;> decide
      simp only [decimalDigits, hb, if_true, List.takeWhile_cons_of_pos, List.dropWhile_cons_of_pos,
        List.foldl_cons, List.isEmpty_cons, Bool.and_false]
      split
      · rename_i hout
        have hgrows := le_foldl_digits (s.takeWhile isDigit) (value.toNat * 10 + digitValue b)
        rw [if_neg (by have := hguard.1 hout; omega)]
      · rename_i hin
        have hnext : (value * 10 + (digitValue b).toUInt64).toNat = value.toNat * 10 +
            digitValue b := by
          have hle : ¬ limit negative < value.toNat * 10 + digitValue b := fun h => hin (hguard.2 h)
          rw [UInt64.toNat_add, UInt64.toNat_mul, hd, show (10 : UInt64).toNat = 10 from rfl]
          omega
        rw [ih _ false (by rw [hnext]; exact Nat.le_of_not_lt fun h => hin (hguard.2 h)), hnext]
        simp

theorem hexDigits_eq (s : Bytes) (n : Nat) (empty : Bool) :
    hexDigits n.toUInt64 empty s =
      ⟨((s.takeWhile isHexDigit).foldl (fun a b => a * 16 + hexValue b) n).toUInt64,
        empty && (s.takeWhile isHexDigit).isEmpty, s.dropWhile isHexDigit⟩ := by
  induction s generalizing n empty with
  | nil => simp [hexDigits]
  | cons b s ih =>
    cases hb : hexValue? b with
    | none => simp [hexDigits, isHexDigit, hb]
    | some d =>
      have hnext : n.toUInt64 * 16 + d.toUInt64 = (n * 16 + d).toUInt64 := by
        simp [Nat.toUInt64]
      have hdigit : isHexDigit b = true := by rw [isHexDigit, hb]; rfl
      simp only [hexDigits, hb, hnext, ih, List.takeWhile_cons_of_pos hdigit,
        List.dropWhile_cons_of_pos hdigit, List.foldl_cons, hexValue, Option.getD_some,
          List.isEmpty_cons,
        Bool.false_and, Bool.and_false]

theorem toInt64_toUInt64 (n : Nat) : n.toUInt64.toInt64 = Int64.ofInt n :=
  Int64.toBitVec_inj.1 (by simp [Nat.toUInt64])

theorem toInt64_signed (negative : Bool) (n : Nat) :
    (if negative then 0 - n.toUInt64 else n.toUInt64).toInt64 =
      Int64.ofInt (signed negative n) := by
  cases negative
  · exact toInt64_toUInt64 n
  · have hneg : (0 - n.toUInt64).toInt64 = -n.toUInt64.toInt64 := by simp
    simp only [signed, if_true, hneg, toInt64_toUInt64, Int64.ofInt_neg]

theorem le_limit_iff (negative : Bool) (n : Nat) :
    n ≤ limit negative ↔ -2 ^ 63 ≤ signed negative n ∧ signed negative n ≤ 2 ^ 63 - 1 := by
  cases negative
  · simp only [limit, signed, Bool.toNat_false, Bool.false_eq_true, if_false]
    omega
  · simp only [limit, signed, Bool.toNat_true, if_true]
    omega

theorem readInt_eq (s : Bytes) : readInt s = integer? s := by
  unfold readInt integer?
  generalize sign (s.dropWhile Text.isBlank) = p
  obtain ⟨negative, body⟩ := p
  dsimp only
  cases hexBody? body with
  | some body =>
    have hloop := hexDigits_eq body 0 true
    rw [show (0 : Nat).toUInt64 = 0 from rfl, Bool.true_and] at hloop
    dsimp only
    rw [hloop]
    dsimp only
    rw [toInt64_signed]
    rfl
  | none =>
    have hloop := decimalDigits_eq negative body 0 true (Nat.zero_le _)
    rw [show (0 : UInt64).toNat = 0 from rfl, Bool.true_and] at hloop
    dsimp only at hloop ⊢
    rw [hloop, ← ofDigits]
    simp only [← le_limit_iff]
    by_cases hrange : ofDigits (body.takeWhile isDigit) ≤ limit negative
    · simp only [if_pos hrange, toInt64_signed]
    · simp only [if_neg hrange, ite_self]

end LuaChunk.Numeral
