import Mathlib.Algebra.Group.Nat.Defs
import LuaChunk.Text.Utf8

/-!
The scheme of UTF-8 for numbers below 2^31. The first byte of a sequence announces by its ones how
many bytes there are, each further byte starts with the bits 10, and the bits that are left carry
the number. `encode` gives the shortest sequence, and no sequence starts another one.
-/

set_option autoImplicit false

namespace LuaChunk.Utf8

/-- The first byte of `n` bytes: it starts with a zero if it stands alone, and else with `n` ones
and a zero. -/
def Announces (n : Nat) (b : UInt8) : Prop :=
  if n = 1 then b.toNat.testBit 7 = false
  else (∀ i < n, b.toNat.testBit (7 - i) = true) ∧ b.toNat.testBit (7 - n) = false

def IsTail (b : UInt8) : Prop := b.toNat.testBit 7 = true ∧ b.toNat.testBit 6 = false

/-- One to six bytes in the scheme. -/
inductive IsSequence : Bytes → Prop where
  | mk {b : UInt8} {rest : Bytes} : rest.length < 6 → Announces (rest.length + 1) b →
    (∀ t ∈ rest, IsTail t) →
    IsSequence (b :: rest)

def freeBits (n : Nat) : Nat := if n = 1 then 7 else 7 - n

/-- The number that a sequence carries: its bits from the highest to the lowest. -/
def payload : Bytes → Nat
  | [] => 0
  | b :: rest =>
    rest.foldl (fun x t => 64 * x + t.toNat % 64) (b.toNat % 2 ^ freeBits (rest.length + 1))

/-- How many bits `n` bytes carry. -/
def bitLimit : (n : Nat) → Nat
  | 1 => 7
  | 2 => 11
  | 3 => 16
  | 4 => 21
  | 5 => 26
  | _ => 31

theorem bitLimit_succ : ∀ n < 6, bitLimit (n + 1) = freeBits (n + 1) + 6 * n := by decide

theorem Announces.unique {m n : Nat} {b : UInt8} (h : Announces m b) (h' : Announces n b)
    (hm : 0 < m) (hn : 0 < n) :
    m = n := by
  have hlt : ∀ {m n : Nat}, 0 < m → m < n → Announces m b → ¬Announces n b := by
    intro m n hm hmn h h'
    unfold Announces at h h'
    rw [if_neg (by omega)] at h'
    split at h
    · have hfirst := h'.1 0 (by omega)
      rw [h] at hfirst
      cases hfirst
    · have hnext := h'.1 m hmn
      rw [h.2] at hnext
      cases hnext
  rcases Nat.lt_trichotomy m n with hmn | hmn | hmn
  · exact absurd h' (hlt hm hmn h)
  · exact hmn
  · exact absurd h (hlt hn hmn h')

theorem IsSequence.eq_of_starts {s t : Bytes} (hs : IsSequence s) (ht : IsSequence t)
    (h : s <+: t) : s = t := by
  obtain ⟨-, hb, -⟩ := hs
  obtain ⟨-, hb', -⟩ := ht
  obtain ⟨rfl, hrest⟩ := List.cons_prefix_cons.1 h
  have hlen := hb.unique hb' (Nat.succ_pos _) (Nat.succ_pos _)
  rw [hrest.eq_of_length (Nat.succ.inj hlen)]

theorem foldl_payload_lt (rest : Bytes) (x n : Nat) (h : x < 2 ^ n) :
    rest.foldl (fun x t => 64 * x + t.toNat % 64) x < 2 ^ (n + 6 * rest.length) := by
  induction rest generalizing x n with
  | nil => exact h
  | cons t rest ih =>
    have hnext : 64 * x + t.toNat % 64 < 2 ^ (n + 6) := by
      rw [Nat.pow_add]
      omega
    have := ih _ (n + 6) hnext
    rwa [Nat.add_assoc, Nat.add_comm 6, ← Nat.mul_succ] at this

theorem IsSequence.payload_lt {s : Bytes} (h : IsSequence s) :
    payload s < 2 ^ bitLimit s.length := by
  obtain @⟨b, rest, hlen, -, -⟩ := h
  rw [List.length_cons, bitLimit_succ _ hlen]
  exact foldl_payload_lt rest _ _ (Nat.mod_lt _ (Nat.two_pow_pos _))

def tail (x : Nat) : UInt8 := (0x80 + x % 64).toUInt8

def tails : (n x : Nat) → Bytes
  | 0, _ => []
  | n + 1, x => tail (x / 64 ^ n) :: tails n x

def announcement (n : Nat) : Nat := if n = 1 then 0 else 256 - 2 ^ (8 - n)

def sequenceOf (n x : Nat) : Bytes := (announcement (n + 1) + x / 64 ^ n).toUInt8 :: tails n x

@[simp] theorem length_tails (n x : Nat) : (tails n x).length = n := by
  induction n with
  | zero => rfl
  | succ n ih => rw [tails, List.length_cons, ih]

theorem toNat_tail (x : Nat) : (tail x).toNat = 128 + x % 64 :=
  Nat.mod_eq_of_lt (by omega)

theorem isTail_tail (x : Nat) : IsTail (tail x) := by
  have hbits : ∀ r < 64, (128 + r).testBit 7 = true ∧ (128 + r).testBit 6 = false := by decide
  unfold IsTail
  rw [toNat_tail]
  exact hbits _ (Nat.mod_lt _ (by decide))

theorem isTail_of_mem_tails {n x : Nat} {t : UInt8} (h : t ∈ tails n x) : IsTail t := by
  induction n with
  | zero => cases h
  | succ n ih =>
    rcases List.mem_cons.1 h with rfl | h
    · exact isTail_tail _
    · exact ih h

theorem foldl_tails (n x v : Nat) :
    (tails n x).foldl (fun x t => 64 * x + t.toNat % 64) v = v * 64 ^ n + x % 64 ^ n := by
  induction n generalizing v with
  | zero => simp [tails, Nat.mod_one]
  | succ n ih =>
    have hlow : (tail (x / 64 ^ n)).toNat % 64 = x / 64 ^ n % 64 := by
      rw [toNat_tail]
      omega
    rw [tails, List.foldl_cons, ih, hlow, Nat.pow_succ, Nat.mod_mul]
    grind

theorem first_byte {n q : Nat} (hn : n < 6) (hq : q < 2 ^ freeBits (n + 1)) :
    (announcement (n + 1) + q).toUInt8.toNat = announcement (n + 1) + q ∧
    Announces (n + 1) (announcement (n + 1) + q).toUInt8 ∧
      (announcement (n + 1) + q) % 2 ^ freeBits (n + 1) = q := by
  have hall : ∀ n < 6, ∀ q < 128, q < 2 ^ freeBits (n + 1) →
      (announcement (n + 1) + q).toUInt8.toNat = announcement (n + 1) + q ∧
      Announces (n + 1) (announcement (n + 1) + q).toUInt8 ∧
        (announcement (n + 1) + q) % 2 ^ freeBits (n + 1) = q := by
    unfold Announces
    decide +kernel
  have hle : freeBits (n + 1) ≤ 7 := by
    unfold freeBits
    split <;> omega
  exact hall n hn q (Nat.lt_of_lt_of_le hq (Nat.pow_le_pow_right (by decide) hle)) hq

section

variable {n x : Nat}

theorem quotient_lt (hn : n < 6) (h : x < 2 ^ bitLimit (n + 1)) :
    x / 64 ^ n < 2 ^ freeBits (n + 1) := by
  have hpow : 2 ^ (6 * n) = 64 ^ n := Nat.pow_mul 2 6 n
  rw [bitLimit_succ n hn, Nat.pow_add, hpow] at h
  exact Nat.div_lt_of_lt_mul (by rwa [Nat.mul_comm])

theorem isSequence_sequenceOf (hn : n < 6) (h : x < 2 ^ bitLimit (n + 1)) :
    IsSequence (sequenceOf n x) := by
  refine .mk ?_ ?_ fun t => isTail_of_mem_tails
  · rwa [length_tails]
  · rw [length_tails]
    exact (first_byte hn (quotient_lt hn h)).2.1

theorem payload_sequenceOf (hn : n < 6) (h : x < 2 ^ bitLimit (n + 1)) :
    payload (sequenceOf n x) = x := by
  obtain ⟨hfirst, -, hfree⟩ := first_byte hn (quotient_lt hn h)
  rw [sequenceOf, payload, length_tails, foldl_tails, hfirst, hfree]
  exact Nat.div_add_mod' x (64 ^ n)

theorem fill_byte (x : UInt32) : (0x80 ||| x &&& 0x3F).toUInt8 = tail x.toNat := by
  have hlow : (x &&& 0x3F).toNat = x.toNat % 64 := Nat.and_two_pow_sub_one_eq_mod x.toNat 6
  have hsum : (0x80 ||| x &&& 0x3F).toNat = 128 + x.toNat % 64 := by
    rw [UInt32.toNat_or, hlow]
    exact (Nat.two_pow_add_eq_or_of_lt (i := 7) (by omega) 1).symm
  rw [tail, ← hsum]
  rfl

theorem fill_first (hn : 0 < n) (hn' : n < 6) (q : UInt32) (hq : q.toNat < 2 ^ freeBits (n + 1)) :
    (~~~(2 ^ (6 - n) - 1 : Nat).toUInt32 <<< 1 ||| q).toUInt8 =
    (announcement (n + 1) + q.toNat).toUInt8 := by
  have hall : ∀ n < 6, 0 < n → ∀ q < 2 ^ freeBits (n + 1),
      (~~~(2 ^ (6 - n) - 1 : Nat).toUInt32 <<< 1 ||| q.toUInt32).toUInt8 =
      (announcement (n + 1) + q).toUInt8 := by
    decide +kernel
  have := hall n hn' hn q.toNat hq
  rwa [show q.toNat.toUInt32 = q from UInt32.ofNat_toNat] at this

theorem fill_eq (space : Nat) (hspace : space + n = 6) (h : x < 2 ^ 31)
    (hlow : 2 ^ bitLimit (n + 1) ≤ x) :
    ∃ m < 6, fill space (x / 64 ^ n).toUInt32 (2 ^ (6 - n) - 1).toUInt32 (tails n x) =
      sequenceOf m x ∧
      x < 2 ^ bitLimit (m + 1) ∧ 2 ^ bitLimit m ≤ x := by
  induction space generalizing n with
  | zero =>
    obtain rfl : n = 6 := by omega
    exact absurd h (Nat.not_lt_of_le hlow)
  | succ space ih =>
    have hn : n < 6 := by omega
    have hquot : ∀ n, (x / 64 ^ n).toUInt32.toNat = x / 64 ^ n := fun n =>
      UInt32.toNat_ofNat_of_lt (Nat.lt_of_le_of_lt (Nat.div_le_self _ _)
        (Nat.lt_trans h (by decide)))
    have hshift : (x / 64 ^ n).toUInt32 >>> 6 = (x / 64 ^ (n + 1)).toUInt32 := by
      rw [← UInt32.toNat_inj, UInt32.toNat_shiftRight, hquot, hquot, Nat.pow_succ,
        ← Nat.div_div_eq_div_mul]
      exact Nat.shiftRight_eq_div_pow _ 6
    have hhalf : ∀ n < 6, (2 ^ (6 - n) - 1 : Nat).toUInt32 >>> 1 =
        (2 ^ (6 - (n + 1)) - 1 : Nat).toUInt32 := by
      decide
    have htails : (0x80 ||| (x / 64 ^ n).toUInt32 &&& 0x3F).toUInt8 :: tails n x =
        tails (n + 1) x := by
      rw [fill_byte, hquot, tails]
    -- six turns are never needed
    have hturn : n < 5 := by
      rcases Nat.lt_or_eq_of_le (Nat.le_of_lt_succ hn) with h5 | rfl
      · exact h5
      · exact absurd h (Nat.not_lt_of_le hlow)
    have hfree : freeBits (n + 1 + 1) = 6 - (n + 1) := by
      rw [freeBits, if_neg (by omega)]
      omega
    have hpow : 2 ^ (6 * (n + 1)) = 64 ^ (n + 1) := Nat.pow_mul 2 6 (n + 1)
    have hlimit : (2 ^ (6 - (n + 1)) - 1 : Nat).toUInt32.toNat = 2 ^ (6 - (n + 1)) - 1 := by
      have : ∀ n < 6, (2 ^ (6 - (n + 1)) - 1 : Nat).toUInt32.toNat = 2 ^ (6 - (n + 1)) - 1 := by
        decide
      exact this n hn
    rw [fill, hshift, hhalf n hn, htails]
    have hfits : (x / 64 ^ (n + 1)).toUInt32 ≤ (2 ^ (6 - (n + 1)) - 1 : Nat).toUInt32 ↔
        x < 2 ^ bitLimit (n + 1 + 1) := by
      rw [UInt32.le_iff_toNat_le, hquot, hlimit, bitLimit_succ (n + 1) (by omega), hfree,
        Nat.le_sub_one_iff_lt (Nat.two_pow_pos _), Nat.div_lt_iff_lt_mul (Nat.pow_pos (by decide)),
          Nat.pow_add 2 _ (6 * (n + 1)), hpow]
    split
    next hle =>
      have hx := hfits.1 hle
      refine ⟨n + 1, by omega, ?_, hx, hlow⟩
      rw [fill_first (by omega) (by omega) _ (by rw [hquot]; exact quotient_lt (by omega) hx),
        hquot, sequenceOf]
    next hle => exact ih (by omega) (Nat.le_of_not_lt fun hx => hle (hfits.2 hx))

theorem encode_eq (h : x < 2 ^ 31) :
    ∃ n < 6, encode x = sequenceOf n x ∧ x < 2 ^ bitLimit (n + 1) ∧
      (0 < n → 2 ^ bitLimit n ≤ x) := by
  unfold encode
  split
  next hone =>
    exact ⟨0, by decide, by simp [sequenceOf, tails, announcement], hone,
      fun h => absurd h (by decide)⟩
  next hone =>
    obtain ⟨n, hn, he, hlt, hlow⟩ := fill_eq (x := x) (n := 0) 6 rfl h (Nat.le_of_not_lt hone)
    rw [Nat.pow_zero, Nat.div_one] at he
    exact ⟨n, hn, he, hlt, fun _ => hlow⟩

theorem length_encode_le (h : x < 2 ^ 31) (hn : 0 < n) (hx : x < 2 ^ bitLimit n) :
    (encode x).length ≤ n := by
  obtain ⟨k, hk, he, -, hfew⟩ := encode_eq h
  have hmono : ∀ n ≤ 6, ∀ m ≤ n, 0 < m → bitLimit m ≤ bitLimit n := by decide
  have hlen : (encode x).length = k + 1 := by rw [he, sequenceOf, List.length_cons, length_tails]
  rw [hlen]
  refine Nat.lt_of_not_le fun hmn => ?_
  exact Nat.lt_irrefl _ (Nat.lt_of_lt_of_le hx
    (Nat.le_trans (Nat.pow_le_pow_right (by decide) (hmono k (by omega) n hmn hn))
      (hfew (by omega))))

end

theorem encode_char (c : Char) : encode c.toNat = String.utf8EncodeChar c := by
  have hc : c.toNat < 0x110000 := by
    rcases c.valid with h | ⟨-, h⟩
    · exact Nat.lt_trans h (by decide)
    · exact h
  have hbyte : ∀ {a b : Nat}, a = b → a.toUInt8 = UInt8.ofNat b := by
    rintro a - rfl
    rfl
  have htail : ∀ y : Nat, tail y = UInt8.ofNat (y % 64 + 128) := fun y => hbyte (Nat.add_comm _ _)
  have hval : c.val.toNat = c.toNat := rfl
  obtain ⟨n, hn, he, hlt, hlow⟩ := encode_eq (Nat.lt_trans hc (by decide))
  rw [he, String.utf8EncodeChar.eq_1, hval, sequenceOf]
  match n, hn with
  | 0, _ =>
    have hlt : c.toNat < 0x80 := hlt
    rw [if_pos (by omega)]
    simp [announcement, tails]
  | 1, _ =>
    have hlt : c.toNat < 0x800 := hlt
    have hlow : 0x80 ≤ c.toNat := hlow (by decide)
    rw [if_neg (by omega), if_pos (by omega),
      hbyte (b := c.toNat / 64 % 32 + 192) (by simp [announcement]; omega)]
    simp [tails, htail]
  | 2, _ =>
    have hlt : c.toNat < 0x10000 := hlt
    have hlow : 0x800 ≤ c.toNat := hlow (by decide)
    rw [if_neg (by omega), if_neg (by omega), if_pos (by omega),
      hbyte (b := c.toNat / 4096 % 16 + 224) (by simp [announcement]; omega)]
    simp [tails, htail]
  | 3, _ =>
    have hlow : 0x10000 ≤ c.toNat := hlow (by decide)
    rw [if_neg (by omega), if_neg (by omega), if_neg (by omega),
      hbyte (b := c.toNat / 262144 % 8 + 240) (by simp [announcement]; omega)]
    simp [tails, htail]
  -- four bytes are enough
  | 4, _ => exact absurd (hlow (by decide)) (Nat.not_le_of_lt (Nat.lt_trans hc (by decide)))
  | 5, _ => exact absurd (hlow (by decide)) (Nat.not_le_of_lt (Nat.lt_trans hc (by decide)))

/-- For each number below 2^31 the encoding is a sequence that carries it, with as few bytes as
there can be. The encodings differ and none starts another one; those of characters are standard. -/
theorem encode_shortest {x : Nat} (h : x < 2 ^ 31) :
    IsSequence (encode x) ∧ payload (encode x) = x ∧
    (∀ n, 0 < n → n ≤ 6 → ((encode x).length ≤ n ↔ x < 2 ^ bitLimit n)) ∧
    (∀ s, IsSequence s → payload s = x → (encode x).length ≤ s.length) ∧
    (∀ y < 2 ^ 31, encode y <+: encode x → y = x) ∧
    ∀ c : Char, c.toNat = x → encode x = String.utf8EncodeChar c := by
  have hall : ∀ {y : Nat}, y < 2 ^ 31 → IsSequence (encode y) ∧ payload (encode y) = y := by
    intro y hy
    obtain ⟨n, hn, he, hlt, -⟩ := encode_eq hy
    rw [he]
    exact ⟨isSequence_sequenceOf hn hlt, payload_sequenceOf hn hlt⟩
  obtain ⟨n, hn, he, hlt, -⟩ := encode_eq h
  have hlen : (encode x).length = n + 1 := by rw [he, sequenceOf, List.length_cons, length_tails]
  have hmono : ∀ n ≤ 6, ∀ m ≤ n, 0 < m → bitLimit m ≤ bitLimit n := by decide
  refine ⟨(hall h).1, (hall h).2, fun m hm hm6 => ⟨fun hle => ?_, length_encode_le h hm⟩,
    fun s hs hp => ?_, fun y hy hpre => ?_, ?_⟩
  · rw [hlen] at hle
    exact Nat.lt_of_lt_of_le hlt
      (Nat.pow_le_pow_right (by decide) (hmono m hm6 (n + 1) hle (Nat.succ_pos n)))
  · have hpos : 0 < s.length := by
      cases hs
      exact Nat.succ_pos _
    exact length_encode_le h hpos (hp ▸ hs.payload_lt)
  · have heq := (hall hy).1.eq_of_starts (hall h).1 hpre
    rw [← (hall hy).2, heq, (hall h).2]
  · rintro c rfl
    exact encode_char c

/-- The largest number takes six bytes, and the largest character takes four. -/
theorem encode_shortest_limits :
    (2 ^ 31 - 1 < 2 ^ 31 ∧ payload (encode (2 ^ 31 - 1)) = 2 ^ 31 - 1) ∧
    encode 0x10FFFF = String.utf8EncodeChar (Char.ofNat 0x10FFFF) :=
  ⟨⟨by decide, (encode_shortest (by decide)).2.1⟩,
    (encode_shortest (by decide)).2.2.2.2.2 _ (by decide)⟩

end LuaChunk.Utf8
