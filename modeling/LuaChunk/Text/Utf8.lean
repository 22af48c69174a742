import LuaChunk.Text.Bytes

/-!
UTF-8. `Utf8.encode` writes a number below 2^31 in one to six bytes, which on code points is the
standard encoding. `Utf8.runes` reads a byte string as code points and stray bytes: a byte that
starts no well-formed sequence stands alone, so every byte string can be read.
-/

set_option autoImplicit false

namespace LuaChunk

namespace Utf8

/-- Fills a sequence from its end with six bits of `x` after the other, until what is left of `x` is
at most `limit`, the most that the first byte can carry. There is space for `space` bytes. -/
def fill : (space : Nat) → (x limit : UInt32) → Bytes → Bytes
  | 0, _, _, done => done
  | space + 1, x, limit, done =>
    let done := (0x80 ||| x &&& 0x3F).toUInt8 :: done
    let x := x >>> 6
    let limit := limit >>> 1
    if x ≤ limit then (~~~limit <<< 1 ||| x).toUInt8 :: done else fill space x limit done

/-- The shortest form: the first byte announces the length in unary, each further byte carries six
bits. -/
def encode (x : Nat) : Bytes :=
  if x < 0x80 then [x.toUInt8] else fill 6 x.toUInt32 0x3F []

/-- What stands at one place of a byte string read as UTF-8. -/
inductive Rune where
  | char (code : Nat)
  | stray (b : UInt8)
  deriving DecidableEq, Repr

/-- Whether `b` lies in the range that a continuation byte may take there. -/
def within (lo hi : Nat) (b : UInt8) : Bool := lo ≤ b.toNat && b.toNat ≤ hi

/-- The code point of a well-formed sequence of two or more bytes starting with `a`, and how many
bytes follow `a`. Overlong forms, surrogates and numbers above 0x10FFFF are not well formed. -/
def sequence (a : UInt8) (rest : Bytes) : Option (Nat × Nat) :=
  let n := a.toNat
  if 0xC2 ≤ n && n ≤ 0xDF then
    match rest with
    | b :: _ => if within 0x80 0xBF b then some ((n - 0xC0) * 64 + b.toNat % 64, 1) else none
    | [] => none
  else if 0xE0 ≤ n && n ≤ 0xEF then
    let lo := if n = 0xE0 then 0xA0 else 0x80
    let hi := if n = 0xED then 0x9F else 0xBF
    match rest with
    | b :: c :: _ =>
      if within lo hi b && within 0x80 0xBF c then
        some (((n - 0xE0) * 64 + b.toNat % 64) * 64 + c.toNat % 64, 2)
      else none
    | _ => none
  else if 0xF0 ≤ n && n ≤ 0xF4 then
    let lo := if n = 0xF0 then 0x90 else 0x80
    let hi := if n = 0xF4 then 0x8F else 0xBF
    match rest with
    | b :: c :: d :: _ =>
      if within lo hi b && within 0x80 0xBF c && within 0x80 0xBF d then
        some ((((n - 0xF0) * 64 + b.toNat % 64) * 64 + c.toNat % 64) * 64 + d.toNat % 64, 3)
      else none
    | _ => none
  else none

/-- The rune that a byte string starts with, and the bytes after it. -/
def first (a : UInt8) (rest : Bytes) : Rune × Bytes :=
  if a < 0x80 then (.char a.toNat, rest)
  else match sequence a rest with
    | some (code, n) => (.char code, rest.drop n)
    | none => (.stray a, rest)

theorem first_length_le (a : UInt8) (rest : Bytes) : (first a rest).2.length ≤ rest.length := by
  unfold first
  split
  · exact Nat.le_refl _
  · split <;> simp

def runes : Bytes → List Rune
  | [] => []
  | a :: rest => (first a rest).1 :: runes (first a rest).2
termination_by s => s.length
decreasing_by
  have := first_length_le a rest
  simp only [List.length_cons]
  omega

def Rune.isStray : Rune → Bool
  | .char _ => false
  | .stray _ => true

def valid (s : Bytes) : Bool := (runes s).all fun r => !r.isStray

def Rune.bytes : Rune → Bytes
  | .char code => encode code
  | .stray b => [b]

end Utf8

end LuaChunk
