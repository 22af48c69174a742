import LuaChunk.Proofs.Code.Fields

set_option autoImplicit false

namespace LuaChunk

namespace Opcode

def isRegisterArith : Opcode → Bool
  | .add | .sub | .mul | .mod | .pow | .div | .idiv | .band | .bor | .bxor | .shl | .shr => true
  | _ => false

def isConstantArith : Opcode → Bool
  | .addK | .subK | .mulK | .modK | .powK | .divK | .idivK | .bandK | .borK | .bxorK => true
  | _ => false

def isIntegerArith : Opcode → Bool
  | .addI | .shrI | .shlI => true
  | _ => false

def fallback? (op : Opcode) : Option Opcode :=
  if op.isRegisterArith then some .mmBin
  else if op.isConstantArith then some .mmBinK
  else if op.isIntegerArith then some .mmBinI
  else none

def isReturn : Opcode → Bool
  | .ret | .ret0 | .ret1 => true
  | _ => false

end Opcode

namespace Instruction

def lastRegister (i : Instruction) : List Nat := if i.k = 0 then [i.c] else []

def readsOf (i : Instruction) : Opcode → List Nat
  | .move | .unm | .bnot | .not | .len | .getI | .getField | .testSet => [i.b]
  | .addI | .shrI | .shlI | .addK | .subK | .mulK | .modK | .powK | .divK | .idivK | .bandK | .borK
  | .bxorK => [i.b]
  | .add | .sub | .mul | .mod | .pow | .div | .idiv | .band | .bor | .bxor | .shl | .shr
  | .getTable | .getVarg => [i.b, i.c]
  | .setUpval | .tbc | .test | .eqK | .eqI | .ltI | .leI | .gtI | .geI | .errNNil | .ret1
  | .mmBinI | .mmBinK => [i.a]
  | .eq | .lt | .le | .mmBin => [i.a, i.b]
  | .setTabUp => i.lastRegister
  | .setTable => i.a :: i.b :: i.lastRegister
  | .setI | .setField => i.a :: i.lastRegister
  | .self => i.b :: i.lastRegister
  | .concat => List.range' i.a i.b
  | .call | .tailCall => List.range' i.a (max i.b 1)
  | .ret => List.range' i.a (i.b - 1)
  | .forPrep | .forLoop | .tforCall => [i.a, i.a + 1, i.a + 2]
  | .tforPrep => [i.a + 3]
  | .tforLoop => [i.a + 2]
  | .setList => List.range' i.a (i.vb + 1)
  | _ => []

def reads (i : Instruction) : List Nat := (i.opcode?.map i.readsOf).getD []

def writesOf (i : Instruction) : Opcode → List Nat
  | .loadNil => List.range' i.a (i.b + 1)
  | .self => [i.a, i.a + 1]
  | .call | .vararg => List.range' i.a (i.c - 1)
  | .tforCall => List.range' (i.a + 4) i.c
  | .tailCall => []
  | op => if op.setsA && !op.isTest then [i.a] else []

/-- The registers that the instruction writes before control goes on to the next one. -/
def writes (i : Instruction) : List Nat := (i.opcode?.map i.writesOf).getD []

def flowOf (pc : Nat) (i : Instruction) : Opcode → List (Nat × List Nat)
  | .jmp => [(((pc : Int) + 1 + i.sj).toNat, [])]
  | .testSet => [(pc + 1, [i.a]), (pc + 2, [])]
  | .eq | .lt | .le | .eqK | .eqI | .ltI | .leI | .gtI | .geI | .test =>
    [(pc + 1, []), (pc + 2, [])]
  | .lFalseSkip => [(pc + 2, [i.a])]
  | .forPrep => [(pc + 1, [i.a + 3]), (pc + 2 + i.bx, [])]
  | .forLoop => [(pc + 1, []), (pc + 1 - i.bx, [i.a + 3])]
  | .tforPrep => [(pc + 1 + i.bx, [])]
  | .tforLoop => [(pc + 1, []), (pc + 1 - i.bx, [i.a])]
  | .ret | .ret0 | .ret1 | .tailCall => []
  | op => [(pc + 1, i.writesOf op)]

/-- Where control can go from the instruction at `pc`, and what has been written on the way. -/
def flow (pc : Nat) (i : Instruction) : List (Nat × List Nat) :=
  (i.opcode?.map (i.flowOf pc)).getD []

/-- The registers that the instruction uses, those of its implied ranges included. -/
def registersOf (i : Instruction) : Opcode → List Nat
  | .testSet => [i.a, i.b]
  | .call => List.range' i.a (max i.b 1) ++ List.range' i.a (i.c - 1)
  | .ret => if i.b = 0 then [i.a] else List.range' i.a (i.b - 1)
  | .vararg => i.a :: List.range' i.a (i.c - 1)
  | .forPrep | .forLoop | .tforPrep => List.range' i.a 4
  | .tforCall => List.range' i.a 7 ++ List.range' (i.a + 4) i.c
  | .tforLoop => [i.a, i.a + 2]
  | op => i.readsOf op ++ i.writesOf op

def registers (i : Instruction) : List Nat := (i.opcode?.map i.registersOf).getD []

end Instruction

namespace Opcode

/-- Whether control goes on to the next instruction, which may be any. -/
def isPlain : Opcode → Bool
  | .loadKX | .lFalseSkip | .newTable | .setList | .jmp | .extraArg | .ret | .ret0 | .ret1
  | .tailCall | .forPrep | .forLoop | .tforPrep | .tforLoop => false
  | op => !op.isTest && op.fallback?.isNone

end Opcode

namespace Instruction

section

variable {i : Instruction} {op : Opcode}

theorem reads_eq (h : i.opcode? = some op) : i.reads = i.readsOf op := by simp [reads, h]

theorem writes_eq (h : i.opcode? = some op) : i.writes = i.writesOf op := by simp [writes, h]

theorem flow_eq (h : i.opcode? = some op) (pc : Nat) : i.flow pc = i.flowOf pc op := by
  simp [flow, h]

theorem registers_eq (h : i.opcode? = some op) : i.registers = i.registersOf op := by
  simp [registers, h]

theorem flow_plain (h : i.opcode? = some op) (hp : op.isPlain = true) (pc : Nat) :
    i.flow pc = [(pc + 1, i.writes)] := by
  rw [flow_eq h, writes_eq h]
  cases op <;> first | rfl | exact absurd hp (by decide)

theorem is_iff : i.is op = true ↔ i.opcode? = some op := by
  unfold is opcode?
  constructor
  · intro h
    rw [beq_iff_eq.1 h, Opcode.ofNumber?_number]
  · intro h
    rw [beq_iff_eq]
    exact Opcode.ofNumber?_eq_some h

end

end Instruction

end LuaChunk
