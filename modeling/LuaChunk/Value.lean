import LuaChunk.Text.Quoted
import LuaChunk.Number.Arith

set_option autoImplicit false

namespace LuaChunk

inductive Value where
  | nil
  | bool (b : Bool)
  | num (n : Number)
  | str (s : Bytes)
  | unknown (tag : UInt8)
  deriving DecidableEq

def maxShortLength : Nat := 40

def isShort (s : Bytes) : Bool := s.length ≤ maxShortLength

namespace Value

def tag : Value → UInt8
  | .nil => 0
  | .bool false => 1
  | .bool true => 2
  | .num (.int _) => 3
  | .num (.float _) => 4
  | .str _ => 5
  | .unknown t => t

def kindName : UInt8 → Bytes
  | 0 => utf8 "nil"
  | 1 => utf8 "false"
  | 2 => utf8 "true"
  | 3 => utf8 "integer"
  | 4 => utf8 "float"
  | 5 => utf8 "string"
  | t => utf8 "Type(" ++ Bytes.ofNat t.toNat ++ utf8 ")"

def isNil : Value → Bool
  | .nil => true
  | _ => false

def isNumber : Value → Bool
  | .num _ => true
  | _ => false

def isUnknown : Value → Bool
  | .unknown _ => true
  | _ => false

def isShortString : Value → Bool
  | .str s => isShort s
  | _ => false

def toFloat : Value → Float
  | .num n => n.toFloat
  | _ => 0

def toInt64? : Value → Option Int64
  | .num n => n.toInt64?
  | _ => none

/-- Equality without conversions: the integer 1 and the float 1.0 differ. Texts are compared as
interned objects, so equal texts are equal only if they come from one table. -/
def rawEqual (oneTable : Bool) : Value → Value → Bool
  | .num m, .num n => m.same n
  | .str s, .str t => oneTable && s == t
  | a, b => a.tag == b.tag

/-- Arithmetic on two constants; nothing unless both are numbers with a result. -/
def arith (op : ArithOp) : Value → Value → Option Value
  | .num a, .num b => (Number.arith op a b).map .num
  | _, _ => none

def text : Value → Bytes
  | .nil => utf8 "nil"
  | .bool false => utf8 "false"
  | .bool true => utf8 "true"
  | .num n => n.text
  | .str s => Text.quoted s
  | .unknown t => utf8 "<" ++ kindName t ++ utf8 ">"

end Value

end LuaChunk
