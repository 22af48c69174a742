import LuaChunk.Text.Blank
import LuaChunk.Number.Basic

set_option autoImplicit false

namespace LuaChunk.Numeral

open LuaChunk

def isDigit (b : UInt8) : Bool := byte '0' ≤ b && b ≤ byte '9'

def digitValue (b : UInt8) : Nat := b.toNat - 48

def hexValue? (b : UInt8) : Option Nat :=
  if isDigit b then some (b.toNat - 48)
  else if byte 'a' ≤ b && b ≤ byte 'f' then some (b.toNat - 87)
  else if byte 'A' ≤ b && b ≤ byte 'F' then some (b.toNat - 55)
  else none

def isHexDigit (b : UInt8) : Bool := (hexValue? b).isSome

def hexValue (b : UInt8) : Nat := (hexValue? b).getD 0

def sign : Bytes → Bool × Bytes
  | 45 :: rest => (true, rest)
  | 43 :: rest => (false, rest)
  | s => (false, s)

def hexBody? : Bytes → Option Bytes
  | 48 :: 120 :: rest => some rest
  | 48 :: 88 :: rest => some rest
  | _ => none

def ofDigits (s : Bytes) : Nat := s.foldl (fun a b => a * 10 + digitValue b) 0

def ofHexDigits (s : Bytes) : Nat := s.foldl (fun a b => a * 16 + hexValue b) 0

def allBlank (s : Bytes) : Bool := s.all Text.isBlank

/-- What is left after the digits of an integer: their value in a word of 64 bits, whether there was
none, and the rest of the text. -/
structure Digits where
  value : UInt64
  empty : Bool
  rest : Bytes

def hexDigits (value : UInt64) (empty : Bool) : Bytes → Digits
  | [] => ⟨value, empty, []⟩
  | b :: rest => match hexValue? b with
    | some d => hexDigits (value * 16 + d.toUInt64) false rest
    | none => ⟨value, empty, b :: rest⟩

def leading : UInt64 := 922337203685477580

/-- The last digit that may follow `leading`. The least integer lies further from zero. -/
def lastDigit (negative : Bool) : UInt64 := 7 + (if negative then 1 else 0)

def decimalDigits (negative : Bool) (value : UInt64) (empty : Bool) : Bytes → Option Digits
  | [] => some ⟨value, empty, []⟩
  | b :: rest =>
    if isDigit b then
      let d := (digitValue b).toUInt64
      if value ≥ leading && (value > leading || d > lastDigit negative) then none
      else decimalDigits negative (value * 10 + d) false rest
    else some ⟨value, empty, b :: rest⟩

def readInt (s : Bytes) : Option Int64 :=
  let (negative, body) := sign (s.dropWhile Text.isBlank)
  let digits? := match hexBody? body with
    | some body => some (hexDigits 0 true body)
    | none => decimalDigits negative 0 true body
  match digits? with
  | none => none
  | some digits =>
    if digits.empty || !allBlank digits.rest then none
    else some (if negative then 0 - digits.value else digits.value).toInt64

def exponentValue (limit : Nat) (s : Bytes) : Nat :=
  s.foldl (fun e b => if e < limit then e * 10 + digitValue b else e) 0

def readExponent (limit : Nat) (s : Bytes) : Option Int :=
  let (negative, digits) := sign s
  if digits.isEmpty || !digits.all isDigit then none
  else
    let e : Int := exponentValue limit digits
    some (if negative then -e else e)

def readDecimal (negative : Bool) (s : Bytes) : Option Float :=
  let whole := s.takeWhile isDigit
  let rest := s.dropWhile isDigit
  let (fraction, rest) := match rest with
    | 46 :: rest => (rest.takeWhile isDigit, rest.dropWhile isDigit)
    | _ => ([], rest)
  let digits := whole ++ fraction
  let value := fun (e : Int) => Decimal.toFloat negative (ofDigits digits) (e - fraction.length)
  if digits.isEmpty then none
  else match rest with
    | [] => some (value 0)
    | c :: rest =>
      if c = byte 'e' || c = byte 'E' then (readExponent 10000 rest).map value else none

/-- The state of reading hexadecimal digits: the value so far, the power of sixteen that it lacks,
how many digits counted, and whether a point or a digit was seen. -/
structure HexDigits where
  value : Float := 0
  exponent : Int := 0
  significant : Nat := 0
  point : Bool := false
  seen : Bool := false

/-- Leading zeros do not count, and digits after the thirtieth only move the exponent. -/
def HexDigits.push (h : HexDigits) (d : Nat) : HexDigits :=
  let h := { h with seen := true }
  let h :=
    if 0 < h.significant || d ≠ 0 then
      if h.significant < 30 then
        { h with significant := h.significant + 1, value := h.value * 16 + Float.ofNat d }
      else { h with significant := h.significant + 1, exponent := h.exponent + 1 }
    else h
  if h.point then { h with exponent := h.exponent - 1 } else h

/-- Reads digits and at most one point; `none` on a second point. -/
def HexDigits.read (h : HexDigits) : Bytes → Option (HexDigits × Bytes)
  | [] => some (h, [])
  | b :: rest =>
    if b = byte '.' then
      if h.point then none else HexDigits.read { h with point := true } rest
    else match hexValue? b with
      | some d => HexDigits.read (h.push d) rest
      | none => some (h, b :: rest)

/-- Hexadecimal digits with at most one point, and an optional power of two. -/
def readHexFloat (negative : Bool) (s : Bytes) : Option Float :=
  match HexDigits.read {} s with
  | none => none
  | some (h, rest) =>
    let value := fun (e : Int) =>
      Binary64.scale (if negative then -h.value else h.value) (4 * h.exponent + e)
    if !h.seen then none
    else match rest with
      | [] => some (value 0)
      | c :: rest =>
        if c = byte 'p' || c = byte 'P' then (readExponent (0x100000) rest).map value else none

def trimBlank (s : Bytes) : Bytes :=
  ((s.dropWhile Text.isBlank).reverse.dropWhile Text.isBlank).reverse

def readFloat (s : Bytes) : Option Float :=
  let (negative, body) := sign (trimBlank s)
  match hexBody? body with
  | some body => readHexFloat negative body
  | none => readDecimal negative body

def read (s : Bytes) : Option Number :=
  match readInt s with
  | some n => some (.int n)
  | none => (readFloat s).map fun x => .float (.of x)

end LuaChunk.Numeral
