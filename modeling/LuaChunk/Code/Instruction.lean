import LuaChunk.Code.Opcode

/-!
Instruction words. From the low bits up, a word holds the opcode (7 bits) and then

    A(8) k(1) B(8) C(8)      or   A(8) k(1) vB(6) vC(10)
    A(8) Bx(17)              or   A(8) sBx(17)
    Ax(25)                   or   sJ(25)

The signed operands are stored with an offset. The constructors shift and join their operands and
do not cut them: an operand that fits its field is read back as it was given.
-/

set_option autoImplicit false

namespace LuaChunk

structure Instruction where
  word : UInt32
  deriving DecidableEq, Repr, Inhabited

namespace Instruction

/-- The place of an operand in the word. -/
structure Field where
  pos : Nat
  size : Nat
  deriving DecidableEq, Repr

namespace Field

def opcode : Field := ⟨0, 7⟩
def a : Field := ⟨7, 8⟩
def k : Field := ⟨15, 1⟩
def b : Field := ⟨16, 8⟩
def c : Field := ⟨24, 8⟩
def vb : Field := ⟨16, 6⟩
def vc : Field := ⟨22, 10⟩
def bx : Field := ⟨15, 17⟩
def ax : Field := ⟨7, 25⟩
def sj : Field := ⟨7, 25⟩

def limit (f : Field) : Nat := Nat.pow 2 f.size - 1

def mask (f : Field) : UInt32 := UInt32.ofNat (f.limit <<< f.pos)

def fits (f : Field) (v : Nat) : Bool := v ≤ f.limit

end Field

def maxB : Nat := 255
def maxVC : Nat := 1023
def maxBx : Nat := 131071
def maxAx : Nat := 33554431
def maxSJ : Nat := 33554431

def offsetSBx : Int := 65535
def offsetSJ : Int := 16777215
def offsetSC : Int := 127

/-- The register number that stands for no register in a test. -/
def noRegister : Nat := 255

def get (i : Instruction) (f : Field) : Nat := i.word.toNat >>> f.pos % Nat.pow 2 f.size

def set (i : Instruction) (f : Field) (v : UInt32) : Instruction :=
  ⟨(i.word &&& ~~~f.mask) ||| ((v <<< f.pos.toUInt32) &&& f.mask)⟩

def opcode (i : Instruction) : Nat := i.get .opcode
def a (i : Instruction) : Nat := i.get .a
def b (i : Instruction) : Nat := i.get .b
def c (i : Instruction) : Nat := i.get .c
def k (i : Instruction) : Nat := i.get .k
def vb (i : Instruction) : Nat := i.get .vb
def vc (i : Instruction) : Nat := i.get .vc
def bx (i : Instruction) : Nat := i.get .bx
def ax (i : Instruction) : Nat := i.get .ax
def sbx (i : Instruction) : Int := i.bx - offsetSBx
def sj (i : Instruction) : Int := i.get .sj - offsetSJ
def sb (i : Instruction) : Int := i.b - offsetSC
def sc (i : Instruction) : Int := i.c - offsetSC

def is (i : Instruction) (op : Opcode) : Bool := i.opcode == op.number

def opcode? (i : Instruction) : Option Opcode := Opcode.ofNumber? i.opcode

def setOpcode (i : Instruction) (op : Opcode) : Instruction :=
  i.set .opcode (UInt32.ofNat op.number)
def setA (i : Instruction) (v : Nat) : Instruction := i.set .a (UInt32.ofNat v)
def setC (i : Instruction) (v : Nat) : Instruction := i.set .c (UInt32.ofNat v)
def setK (i : Instruction) (v : Nat) : Instruction := i.set .k (UInt32.ofNat v)
def setSBx (i : Instruction) (v : Int) : Instruction := i.set .bx (UInt32.ofInt (v + offsetSBx))
def setSJ (i : Instruction) (v : Int) : Instruction := i.set .sj (UInt32.ofInt (v + offsetSJ))

/-- The word of an opcode byte and operands already in their places. -/
def join (op : UInt8) (operands : List (Field × UInt32)) : Instruction :=
  ⟨operands.foldl (fun w (f, v) => w ||| (v <<< f.pos.toUInt32)) op.toUInt32⟩

def ofABCk (op : UInt8) (a b c k : UInt32) : Instruction :=
  join op [(.a, a), (.b, b), (.c, c), (.k, k)]

def ofVABCk (op : UInt8) (a b c k : UInt32) : Instruction :=
  join op [(.a, a), (.vb, b), (.vc, c), (.k, k)]

def ofABx (op : UInt8) (a bx : UInt32) : Instruction := join op [(.a, a), (.bx, bx)]

def ofAsBx (op : UInt8) (a : UInt32) (sbx : Int) : Instruction :=
  ofABx op a (UInt32.ofInt (sbx + offsetSBx))

def ofAx (op : UInt8) (ax : UInt32) : Instruction := join op [(.ax, ax)]

def ofSJ (op : UInt8) (sj : Int) (k : UInt32) : Instruction :=
  join op [(.sj, UInt32.ofInt (sj + offsetSJ)), (.k, k)]

def setAll (i : Instruction) (changes : List (Field × Nat)) : Instruction :=
  changes.foldl (fun i (f, v) => i.set f (UInt32.ofNat v)) i

def isTest (i : Instruction) : Bool := (i.opcode?.map Opcode.isTest).getD false

def setsTop (i : Instruction) : Bool :=
  match i.opcode? with
  | some op => (op.setsTop && i.c == 0) || op == .tailCall
  | none => false

/-- Whether the instruction takes the open list that the one before it left. -/
def usesTop (i : Instruction) : Bool :=
  match i.opcode? with
  | some op => op.usesTop && i.b == 0
  | none => false

end Instruction

namespace Opcode

def byteOf (op : Opcode) : UInt8 := op.number.toUInt8

/-- The instructions of an opcode, by the layout of their operands. -/
def abck (op : Opcode) (a b c k : Nat) : Instruction :=
  .ofABCk op.byteOf (UInt32.ofNat a) (UInt32.ofNat b) (UInt32.ofNat c) (UInt32.ofNat k)

def vabck (op : Opcode) (a b c k : Nat) : Instruction :=
  .ofVABCk op.byteOf (UInt32.ofNat a) (UInt32.ofNat b) (UInt32.ofNat c) (UInt32.ofNat k)

def abx (op : Opcode) (a bx : Nat) : Instruction :=
  .ofABx op.byteOf (UInt32.ofNat a) (UInt32.ofNat bx)

def asbx (op : Opcode) (a : Nat) (sbx : Int) : Instruction := .ofAsBx op.byteOf (UInt32.ofNat a) sbx

def ax (op : Opcode) (ax : Nat) : Instruction := .ofAx op.byteOf (UInt32.ofNat ax)

def sj (op : Opcode) (sj : Int) (k : Nat) : Instruction := .ofSJ op.byteOf sj (UInt32.ofNat k)

end Opcode

/-- An instruction as it is asked for: an opcode with operands of any size. -/
inductive Draft where
  | abck (op : Opcode) (a b c k : Nat)
  | vabck (op : Opcode) (a b c k : Nat)
  | abx (op : Opcode) (a bx : Nat)
  | asbx (op : Opcode) (a : Nat) (sbx : Int)
  | ax (op : Opcode) (v : Nat)
  | sj (op : Opcode) (v : Int)

namespace Draft

def word : Draft → Instruction
  | .abck op a b c k => op.abck a b c k
  | .vabck op a b c k => op.vabck a b c k
  | .abx op a bx => op.abx a bx
  | .asbx op a sbx => op.asbx a sbx
  | .ax op v => op.ax v
  | .sj op v => op.sj v 0

open Instruction in
def fits : Draft → Bool
  | .abck _ a b c k => Field.a.fits a && Field.b.fits b && Field.c.fits c && Field.k.fits k
  | .vabck _ a b c k => Field.a.fits a && Field.vb.fits b && Field.vc.fits c && Field.k.fits k
  | .abx _ a bx => Field.a.fits a && Field.bx.fits bx
  | .asbx _ a sbx =>
    Field.a.fits a && 0 ≤ sbx + offsetSBx && Field.bx.fits (sbx + offsetSBx).toNat
  | .ax _ v => Field.ax.fits v
  | .sj _ v => 0 ≤ v + offsetSJ && Field.sj.fits (v + offsetSJ).toNat

end Draft

end LuaChunk
