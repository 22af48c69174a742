import LuaChunk.Compile.ConstantPool

/-!
Expressions that are not fully coded yet. The parser reads an expression as one of these, and the
code generator decides late where its value goes: a constant may still be folded or become an
operand, a call may still yield several values, and a comparison is so far only a jump.
-/

set_option autoImplicit false

namespace LuaChunk.Compile

open LuaChunk

/-- Whether a table access names a global that is read-only, and where its name is in the pool. -/
structure GlobalAccess where
  readOnly : Bool := false
  name : Option PoolEntry := none

inductive ExpKind where
  | void
  | nil
  | true_
  | false_
  | konst (k : PoolEntry)
  | float (x : Double)
  | int (n : Int64)
  | str (s : Bytes)
  | inReg (r : Nat)
  /-- a local variable: its register and its place among the function's declarations -/
  | localVar (reg index : Nat)
  | upvalue (i : Nat)
  /-- a constant known to the compiler: its place among all declarations -/
  | constVar (i : Nat)
  | indexed (table key : Nat) (access : GlobalAccess)
  /-- a table in an upvalue, the key a short text in the pool -/
  | indexUp (table : Nat) (key : PoolEntry) (access : GlobalAccess)
  | indexInt (table key : Nat)
  /-- a table in a register, the key a short text in the pool -/
  | indexStr (table : Nat) (key : PoolEntry) (access : GlobalAccess)
  | jump (pc : Nat)
  /-- an instruction whose result register is still open -/
  | relocatable (pc : Nat)
  | call (pc : Nat)
  | vararg (pc : Nat)

/-- An expression with its lists of jumps: those taken when it is true and when it is false. -/
structure Exp where
  kind : ExpKind
  whenTrue : Option Nat := none
  whenFalse : Option Nat := none

namespace Exp

def void : Exp := ⟨.void, none, none⟩
def inReg (r : Nat) : Exp := ⟨.inReg r, none, none⟩
def str (s : Bytes) : Exp := ⟨.str s, none, none⟩
def relocatable (pc : Nat) : Exp := ⟨.relocatable pc, none, none⟩

def isVoid (e : Exp) : Bool :=
  match e.kind with
  | .void => true
  | _ => false

def hasJumps (e : Exp) : Bool := e.whenTrue != e.whenFalse

def isVariable (e : Exp) : Bool :=
  match e.kind with
  | .localVar .. | .upvalue _ | .constVar _ | .indexed .. | .indexUp .. | .indexInt ..
  | .indexStr .. => true
  | _ => false

def isIndexed (e : Exp) : Bool :=
  match e.kind with
  | .indexed .. | .indexUp .. | .indexInt .. | .indexStr .. => true
  | _ => false

def isMulti (e : Exp) : Bool :=
  match e.kind with
  | .call _ | .vararg _ => true
  | _ => false

def register? (e : Exp) : Option Nat :=
  match e.kind with
  | .inReg r => some r
  | _ => none

def numeral? (e : Exp) : Option Number :=
  if e.hasJumps then none
  else match e.kind with
    | .int n => some (.int n)
    | .float x => some (.float x)
    | _ => none

def isNumeral (e : Exp) : Bool := e.numeral?.isSome

def integer? (e : Exp) : Option Int64 :=
  match e.numeral? with
  | some (.int n) => some n
  | _ => none

def ofNumber (n : Number) : Exp :=
  match n with
  | .int n => ⟨.int n, none, none⟩
  | .float x => ⟨.float x, none, none⟩

end Exp

def ExpKind.ofValue : Value → ExpKind
  | .nil => .nil
  | .bool false => .false_
  | .bool true => .true_
  | .num (.int n) => .int n
  | .num (.float x) => .float x
  | .str s => .str s
  | .unknown _ => .nil

def fitsSC (n : Int64) : Bool := -127 ≤ n && n ≤ 128

def fitsSBx (n : Int64) : Bool := -65535 ≤ n && n ≤ 65536

def signedOperand (n : Int64) : Nat := (n.toInt + 127).toNat

/-- A number with an integer value that fits a signed operand: the operand, and whether the number
is a float. -/
def Exp.smallNumber? (e : Exp) : Option (Nat × Bool) :=
  match e.numeral? with
  | none => none
  | some n =>
    match n.toInt64? with
    | none => none
    | some i => if fitsSC i then some (signedOperand i, !n.isInt) else none

def Exp.smallInteger? (e : Exp) : Option Int64 :=
  match e.integer? with
  | some n => if fitsSC n then some n else none
  | none => none

end LuaChunk.Compile
