import LuaChunk.Code.Prototype
import LuaChunk.Hash.Sha256

/-!
Fingerprints. `Prototype.serialize` writes what the machine executes and nothing else: two
functions that differ only in debug information have the same bytes. The fingerprint is the
SHA-256 digest of these bytes.

Numbers are big-endian, lists and texts have their length in front, and each part has a tag.
-/

set_option autoImplicit false

namespace LuaChunk

namespace Serial

def version : UInt8 := 1

def tagPrototype : UInt8 := 0x01
def tagCode : UInt8 := 0x02
def tagConstants : UInt8 := 0x03
def tagUpvalues : UInt8 := 0x04
def tagNested : UInt8 := 0x05
def tagNil : UInt8 := 0x10
def tagFalse : UInt8 := 0x11
def tagTrue : UInt8 := 0x12
def tagInt : UInt8 := 0x13
def tagFloat : UInt8 := 0x14
def tagString : UInt8 := 0x15

def word32 (w : UInt32) : Bytes :=
  [(w >>> 24).toUInt8, (w >>> 16).toUInt8, (w >>> 8).toUInt8, w.toUInt8]

def word64 (w : UInt64) : Bytes := word32 (w >>> 32).toUInt32 ++ word32 w.toUInt32

def count (n : Nat) : Bytes := word32 n.toUInt32

def lowByte (n : Int) : UInt8 := UInt8.ofInt n

def value : Value → Bytes
  | .nil => [tagNil]
  | .bool false => [tagFalse]
  | .bool true => [tagTrue]
  | .num (.int n) => tagInt :: word64 n.toUInt64
  | .num (.float x) => tagFloat :: word64 x.bits
  | .str s => tagString :: count s.length ++ s
  | .unknown _ => []

def upvalue (u : Upvalue) : Bytes := [if u.inStack then 1 else 0, lowByte u.index, u.kind]

def listOf {α : Type} (tag : UInt8) (write : α → Bytes) (items : List α) : Bytes :=
  tag :: count items.length ++ items.flatMap write

mutual

def prototype : Prototype → Bytes
  | { numParams, flag, maxStackSize, code, constants, nested, upvalues, .. } =>
    [tagPrototype, lowByte numParams, flag, lowByte maxStackSize]
      ++ listOf tagCode (fun i : Instruction => word32 i.word) code.toList
      ++ listOf tagConstants value constants.toList
      ++ listOf tagUpvalues upvalue upvalues.toList
      ++ (tagNested :: count nested.length ++ prototypes nested)

def prototypes : List Prototype → Bytes
  | [] => []
  | p :: rest => prototype p ++ prototypes rest

end

end Serial

namespace Prototype

def serialize (p : Prototype) : Bytes := Serial.version :: Serial.prototype p

def fingerprint (p : Prototype) : Bytes := Bytes.toHex (Sha256.digest p.serialize)

end Prototype

end LuaChunk
