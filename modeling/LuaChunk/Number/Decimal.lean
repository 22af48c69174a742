import LuaChunk.Text.Bytes
import LuaChunk.Number.Binary64

/-!
Decimal digits of floats, in both directions. `Decimal.ofFloat` gives the digits of a float to a
fixed number of places, a tie to the even digit; `Decimal.toFloat` gives the float nearest to a
decimal. Both work on exact quotients.
-/

set_option autoImplicit false

namespace LuaChunk

/-- The digits of a decimal, without a final zero: the value is `0.d₁d₂… · 10 ^ point`. -/
structure Decimal where
  digits : Bytes
  point : Int
  deriving DecidableEq, Repr

namespace Decimal

def shifted (num den : Nat) (k : Int) : Nat × Nat :=
  if 0 ≤ k then (num * Nat.pow 10 k.toNat, den) else (num, den * Nat.pow 10 (-k).toNat)

/-- The power of ten of the first digit of `num / den`, given a guess at most one too low. -/
def magnitude (num den : Nat) (guess : Int) : Int :=
  let (n, d) := shifted num den (-(guess + 1))
  if d ≤ n then guess + 1 else guess

def ofRatio (places num den : Nat) : Decimal :=
  if num = 0 then ⟨[], 0⟩
  else
    let bits : Int := (num.log2 : Int) - den.log2
    let low : Int := Int.fdiv ((bits - 1) * 30103) 100000 - 1
    let k := magnitude num den (magnitude num den low)
    let (n, d) := shifted num den (places - 1 - k)
    let rounded := Binary64.roundDiv n d
    let (whole, k) :=
      if rounded = Nat.pow 10 places then (Nat.pow 10 (places - 1), k + 1) else (rounded, k)
    let text := Bytes.ofNat whole
    ⟨(text.reverse.dropWhile (· == 48)).reverse, k + 1⟩

def ofFloat (places m : Nat) (e : Int) : Decimal :=
  let (num, den) := Binary64.inUnits m 1 (-e)
  ofRatio places num den

/-- The float nearest to `digits · 10 ^ exponent`. Far out of range it is infinite or zero, which
the two cut-offs decide without writing the power out. -/
def toFloat (negative : Bool) (digits : Nat) (exponent : Int) : Float :=
  if digits = 0 then Binary64.zero negative
  else if 400 < exponent then Binary64.infinity negative
  else if exponent + digits.log2 + 1 < -400 then Binary64.zero negative
  else
    let (num, den) := shifted digits 1 exponent
    Binary64.ofRatio negative num den

def exponentText (e : Int) : Bytes :=
  (if e < 0 then byte '-' else byte '+')
    :: ((if e.natAbs < 10 then [byte '0'] else []) ++ Bytes.ofNat e.natAbs)

/-- The first digit, a point and the others if there are any, and the power of ten. -/
def scientific (d : Decimal) : Bytes :=
  let mantissa := match d.digits with
    | [] => [byte '0']
    | [a] => [a]
    | a :: rest => a :: byte '.' :: rest
  mantissa ++ byte 'e' :: exponentText (d.point - 1)

/-- All digits in place, with zeros up to the point and no point after a whole number. -/
def positional (d : Decimal) : Bytes :=
  let whole := if 0 < d.point then
      (d.digits.take d.point.toNat)
        ++ List.replicate (d.point.toNat - d.digits.length) (byte '0')
    else [byte '0']
  let fraction := List.replicate (-d.point).toNat (byte '0') ++ d.digits.drop d.point.toNat
  if d.digits.length ≤ d.point then whole
  else if d.digits.isEmpty then whole
  else whole ++ byte '.' :: fraction

/-- Positional from four zeros after the point up to `places` digits before it, else scientific. -/
def general (places : Nat) (d : Decimal) : Bytes :=
  if !d.digits.isEmpty && (d.point - 1 < -4 || (places : Int) ≤ d.point - 1) then scientific d
  else positional d

end Decimal

end LuaChunk
