import LuaChunk.Number.Decimal

set_option autoImplicit false

namespace LuaChunk

inductive Number where
  | int (n : Int64)
  | float (x : Double)
  deriving DecidableEq

namespace Number

def toFloat : Number → Float
  | .int n => Binary64.ofInt n.toInt
  | .float x => x.value

def toInt64? : Number → Option Int64
  | .int n => some n
  | .float x => Binary64.toInt64? x

def isInt : Number → Bool
  | .int _ => true
  | .float _ => false

/-- Equal kind and equal value; zeros of either sign are equal and a NaN is not equal to itself. -/
def same : Number → Number → Bool
  | .int m, .int n => m == n
  | .float x, .float y => x.value == y.value
  | _, _ => false

def floatText (x : Float) : Bytes :=
  match Binary64.read x with
  | .nan => utf8 "nan"
  | .infinite negative => if negative then utf8 "-inf" else utf8 "inf"
  | .finite negative m e =>
    let text := Decimal.general 14 (Decimal.ofFloat 14 m e)
    let whole := !text.contains (byte '.') && !text.contains (byte 'e')
    (if negative then [byte '-'] else []) ++ text ++ (if whole then utf8 ".0" else [])

def text : Number → Bytes
  | .int n => Bytes.ofInt n.toInt
  | .float x => floatText x

end Number

end LuaChunk
