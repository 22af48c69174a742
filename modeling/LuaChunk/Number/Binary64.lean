/-!
Exact readings of 64-bit floats. A finite float is `mantissa · 2 ^ exponent` with a sign, and
`Binary64.ofRatio` goes back: it rounds a quotient of natural numbers to the nearest float, a tie
to the even mantissa. Whole parts, remainders and scalings are exact arithmetic between the two.
-/

set_option autoImplicit false

namespace LuaChunk

/-- A float as its 64 bits. A NaN keeps its payload here, where `Float` has a single NaN. -/
structure Double where
  bits : UInt64
  deriving DecidableEq, Repr

namespace Double

def of (x : Float) : Double := ⟨x.toBits⟩

def value (x : Double) : Float := Float.ofBits x.bits

instance : CoeTail Float Double := ⟨of⟩

instance : CoeOut Double Float := ⟨value⟩

instance (n : Nat) : OfNat Double n := ⟨of (Float.ofNat n)⟩

end Double

namespace Binary64

/-- What the bits of a float say. -/
inductive Reading where
  | nan
  | infinite (negative : Bool)
  | finite (negative : Bool) (mantissa : Nat) (exponent : Int)
  deriving DecidableEq, Repr

/-- The leading bit of a mantissa, `2 ^ 52`, which the bits of a normal float leave out. -/
def hiddenBit : Nat := 0x10000000000000

def read (x : Float) : Reading :=
  let bits := x.toBits.toNat
  let negative : Bool := 0x8000000000000000 ≤ bits
  let field : Nat := bits / hiddenBit % 0x800
  let fraction := bits % hiddenBit
  if field = 2047 then (if fraction = 0 then .infinite negative else .nan)
  else if field = 0 then .finite negative fraction (-1074)
  else .finite negative (fraction + hiddenBit) ((field : Int) - 1075)

def signBit (negative : Bool) : Nat := if negative then 0x8000000000000000 else 0

def ofBits (n : Nat) : Float := Float.ofBits n.toUInt64

def zero (negative : Bool) : Float := ofBits (signBit negative)

def infinity (negative : Bool) : Float := ofBits (signBit negative + 2047 * hiddenBit)

def nan : Float := ofBits (2047 * hiddenBit + hiddenBit / 2)

def roundDiv (num den : Nat) : Nat :=
  let q := num / den
  let twice := 2 * (num % den)
  if twice < den then q
  else if den < twice then q + 1
  else if q % 2 = 0 then q else q + 1

def inUnits (num den : Nat) (e : Int) : Nat × Nat :=
  if 0 ≤ e then (num, den * Nat.pow 2 e.toNat) else (num * Nat.pow 2 (-e).toNat, den)

/-- The float `m · 2 ^ e`, where `m` has at most 53 bits and at least 53 unless `e` is least. -/
def pack (negative : Bool) (m : Nat) (e : Int) : Float :=
  let (m, e) := if m = 2 * hiddenBit then (hiddenBit, e + 1) else (m, e)
  if m < hiddenBit then ofBits (signBit negative + m)
  else if 971 < e then infinity negative
  else ofBits (signBit negative + (e + 1075).toNat * hiddenBit + (m - hiddenBit))

/-- The float nearest to `num / den`; past the largest one it is infinite. -/
def ofRatio (negative : Bool) (num den : Nat) : Float :=
  if num = 0 || den = 0 then zero negative
  else
    let guess := max ((num.log2 : Int) - den.log2 - 53) (-1074)
    let (n, d) := inUnits num den guess
    let e := if 2 * hiddenBit ≤ n / d then guess + 1 else guess
    let (n, d) := inUnits num den e
    pack negative (roundDiv n d) e

def ofInt (n : Int) : Float := ofRatio (n < 0) n.natAbs 1

/-- The float nearest to `m · 2 ^ e`. Beyond the cut-offs the result is infinite or zero. -/
def ofScaled (negative : Bool) (m : Nat) (e : Int) : Float :=
  if m = 0 then zero negative
  else if 2000 < e then infinity negative
  else if e + m.log2 < -2000 then zero negative
  else
    let (num, den) := inUnits m 1 (-e)
    ofRatio negative num den

def scale (x : Float) (k : Int) : Float :=
  match read x with
  | .finite negative m e => ofScaled negative m (e + k)
  | _ => x

def wholePart (m : Nat) (e : Int) : Nat × Bool :=
  if 0 ≤ e then (m * Nat.pow 2 e.toNat, false)
  else (m / Nat.pow 2 (-e).toNat, m % Nat.pow 2 (-e).toNat != 0)

def floor (x : Float) : Float :=
  match read x with
  | .finite negative m e =>
    let (whole, fraction) := wholePart m e
    if m = 0 || !fraction then x
    else if negative then ofRatio true (whole + 1) 1
    else ofRatio false whole 1
  | _ => x

def toInt? (x : Float) : Option Int :=
  match read x with
  | .finite negative m e =>
    let (whole, fraction) := wholePart m e
    if fraction then none else some (if negative then -(whole : Int) else whole)
  | _ => none

def toInt64? (x : Float) : Option Int64 :=
  match toInt? x with
  | some n =>
    if -0x8000000000000000 ≤ n && n < 0x8000000000000000 then some (Int64.ofInt n) else none
  | none => none

/-- The remainder of the quotient cut towards zero; it has the sign of `x`, also when it is zero. -/
def remainder (x y : Float) : Float :=
  match read x, read y with
  | .finite negative m e, .finite _ n f =>
    if n = 0 then nan
    else
      let low := min e f
      let a := m * Nat.pow 2 (e - low).toNat
      let b := n * Nat.pow 2 (f - low).toNat
      ofScaled negative (a % b) low
  | .finite .., .infinite _ => x
  | _, _ => nan

end Binary64

end LuaChunk

namespace LuaChunk.Narrow

open LuaChunk

/-- A binary float format: how many bits a significand has, the leading one included, and the
largest exponent, which is also the exponent's offset. -/
structure Format where
  precision : Nat
  maxExponent : Nat

def half : Format := ⟨11, 15⟩

def single : Format := ⟨24, 127⟩

/-- The bits of the sign, the exponent and the fraction, side by side. -/
def Format.join (f : Format) (negative : Bool) (exponent fraction : Nat) : Nat :=
  let sign := if negative then 2 * (f.maxExponent + 1) else 0
  (sign + exponent) * Nat.pow 2 (f.precision - 1) + fraction

/-- A number without the powers of two in it, given a bound on how many there are. -/
def oddPart : (fuel : Nat) → Nat → Int → Nat × Int
  | 0, m, e => (m, e)
  | fuel + 1, m, e => if m % 2 = 0 && m ≠ 0 then oddPart fuel (m / 2) (e + 1) else (m, e)

def encodeFinite? (f : Format) (negative : Bool) (m : Nat) (e : Int) : Option Nat :=
  if m = 0 then some (f.join negative 0 0)
  else
    let (m, e) := oddPart 64 m e
    let size := m.log2 + 1
    let exponent := e + size - 1
    let least : Int := 1 - f.maxExponent
    let unit : Int := least - f.precision + 1
    if f.maxExponent < exponent then none
    else if least ≤ exponent then
      if size ≤ f.precision then
        some (f.join negative (exponent + f.maxExponent).toNat
          (m * Nat.pow 2 (f.precision - size) - Nat.pow 2 (f.precision - 1)))
      else none
    else if unit ≤ e then some (f.join negative 0 (m * Nat.pow 2 (e - unit).toNat))
    else none

def encode? (f : Format) (x : Float) : Option Nat :=
  match Binary64.read x with
  | .finite negative m e => encodeFinite? f negative m e
  | _ => none

def widenNaN (f : Format) (negative : Bool) (fraction : Nat) : Double :=
  let payload := fraction * Nat.pow 2 (53 - f.precision) ||| Binary64.hiddenBit / 2
  ⟨(Binary64.signBit negative + 2047 * Binary64.hiddenBit + payload).toUInt64⟩

/-- The float with these bits in the format. -/
def decode (f : Format) (bits : Nat) : Double :=
  let unit := Nat.pow 2 (f.precision - 1)
  let fraction := bits % unit
  let field := bits / unit % (2 * (f.maxExponent + 1))
  let negative : Bool := 2 * (f.maxExponent + 1) ≤ bits / unit
  let least : Int := 2 - f.maxExponent - f.precision
  if field = 2 * f.maxExponent + 1 then
    if fraction = 0 then Binary64.infinity negative else widenNaN f negative fraction
  else if field = 0 then Binary64.ofScaled negative fraction least
  else Binary64.ofScaled negative (fraction + unit) (least + field - 1)

end LuaChunk.Narrow
