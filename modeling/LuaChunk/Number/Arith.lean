import LuaChunk.Number.Basic

/-!
Raw arithmetic on numbers. Integer operations wrap modulo 2^64; quotient and remainder are
floored; shifts are logical and a negative count shifts the other way.
-/

set_option autoImplicit false

namespace LuaChunk

/-- The operators, in the order in which their opcodes are laid out. -/
inductive ArithOp where
  | add | sub | mul | mod | pow | div | idiv | band | bor | bxor | shl | shr | unm | bnot
  deriving DecidableEq, Repr

namespace ArithOp

def isBitwise : ArithOp → Bool
  | .band | .bor | .bxor | .shl | .shr | .bnot => true
  | _ => false

end ArithOp

namespace Number

/-- The floored quotient; a divisor of −1 negates, so that the least integer wraps. -/
def intDiv (x y : Int64) : Int64 :=
  if y = -1 then -x
  else
    let q := x / y
    if x % y ≠ 0 && (x ^^^ y) < 0 then q - 1 else q

def intMod (x y : Int64) : Int64 :=
  if y = -1 then 0
  else
    let r := x % y
    if r ≠ 0 && (r ^^^ y) < 0 then r + y else r

/-- A logical shift to the left; 64 places or more, either way, leave nothing. -/
def shiftLeft (x y : Int64) : Int64 :=
  if y < 0 then
    if y ≤ -64 then 0 else (x.toUInt64 >>> (-y).toUInt64).toInt64
  else if 64 ≤ y then 0
  else (x.toUInt64 <<< y.toUInt64).toInt64

def intArith : ArithOp → Int64 → Int64 → Int64
  | .add, x, y => x + y
  | .sub, x, y => x - y
  | .mul, x, y => x * y
  | .mod, x, y => intMod x y
  | .idiv, x, y => intDiv x y
  | .band, x, y => x &&& y
  | .bor, x, y => x ||| y
  | .bxor, x, y => x ^^^ y
  | .shl, x, y => shiftLeft x y
  | .shr, x, y => shiftLeft x (-y)
  | .unm, x, _ => -x
  | .bnot, x, _ => ~~~x
  | .pow, _, _ => 0
  | .div, _, _ => 0

/-- The remainder of the floored quotient: zero or of the divisor's sign. -/
def floatMod (x y : Float) : Float :=
  let m := Binary64.remainder x y
  if (0 < m && y < 0) || (m < 0 && 0 < y) then m + y else m

def floatArith : ArithOp → Float → Float → Float
  | .add, x, y => x + y
  | .sub, x, y => x - y
  | .mul, x, y => x * y
  | .div, x, y => x / y
  | .pow, x, y => if y == 2 then x * x else Float.pow x y
  | .idiv, x, y => Binary64.floor (x / y)
  | .unm, x, _ => -x
  | .mod, x, y => floatMod x y
  | _, _, _ => 0

/-- Bitwise operators need integer values; division and power are done on floats; the others are
done on integers if both operands are integers. An integer division by zero is not asked for. -/
def arith (op : ArithOp) (a b : Number) : Option Number :=
  if op.isBitwise then
    match a.toInt64?, b.toInt64? with
    | some x, some y => some (.int (intArith op x y))
    | _, _ => none
  else match op, a, b with
    | .div, _, _ | .pow, _, _ => some (.float (floatArith op a.toFloat b.toFloat))
    | _, .int x, .int y => some (.int (intArith op x y))
    | _, _, _ => some (.float (floatArith op a.toFloat b.toFloat))

end Number

end LuaChunk
