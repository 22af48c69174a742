import LuaChunk.Compile.Emit
import LuaChunk.Compile.Exp

set_option autoImplicit false

namespace LuaChunk.Compile

open LuaChunk

def variableAt (i : Nat) : M Variable := do
  match (← get).vars[i]? with
  | some v => pure v
  | none => broken .indexInRange

/-- A declaration of the function by its place among the function's declarations. -/
def ownVariable (i : Nat) : M Variable := do variableAt ((← get).fn.firstVar + i)

def freeExp (e : Exp) : M Unit :=
  match e.register? with
  | some r => freeRegister r
  | none => pure ()

def freeExps (e₁ e₂ : Exp) : M Unit :=
  match e₁.register?, e₂.register? with
  | some r₁, some r₂ => freeRegisters r₁ r₂
  | some r, none => freeRegister r
  | none, some r => freeRegister r
  | none, none => pure ()

/-- Sets how many results a call or vararg expression has; `none` stands for any number. -/
def setReturns (e : Exp) (count : Option Nat) : M Unit := do
  let operand := match count with
    | some n => n + 1
    | none => 0
  match e.kind with
  | .call pc => setAt pc [(.c, operand)]
  | .vararg pc =>
    setAt pc [(.c, operand), (.a, ← freeReg)]
    reserve 1
  | _ => pure ()

def setOneReturn (e : Exp) : M Exp := do
  match e.kind with
  | .call pc => return { e with kind := .inReg (← instructionAt pc).a }
  | .vararg pc =>
    setAt pc [(.c, 2)]
    return { e with kind := .relocatable pc }
  | _ => return e

def dischargeVars (e : Exp) : M Exp := do
  let relocated := fun (pc : Nat) => { e with kind := .relocatable pc }
  match e.kind with
  | .constVar i => return { e with kind := .ofValue (← variableAt i).value }
  | .localVar r _ => return { e with kind := .inReg r }
  | .upvalue i => relocated <$> emitABC .getUpval 0 i 0
  | .indexUp table key _ => relocated <$> emitABC .getTabUp 0 table key.index [key.value]
  | .indexInt table key =>
    freeRegister table
    relocated <$> emitABC .getI 0 table key
  | .indexStr table key _ =>
    freeRegister table
    relocated <$> emitABC .getField 0 table key.index [key.value]
  | .indexed table key _ =>
    freeRegisters table key
    relocated <$> emitABC .getTable 0 table key
  | .call _ | .vararg _ => setOneReturn e
  | _ => return e

def loadInt (reg : Nat) (n : Int64) : M Unit := do
  if fitsSBx n then discard (emit (.asbx .loadI reg n.toInt)) else emitK reg (← intK n)

def loadFloat (reg : Nat) (x : Double) : M Unit := do
  let whole? := match Binary64.toInt64? x with
    | some n => if fitsSBx n then some n else none
    | none => none
  match whole? with
  | some n =>
    let load := Draft.asbx .loadF reg n.toInt
    noteFloat x (.load load.word)
    discard (emit load)
  | none => emitK reg (← floatK x)

/-- Puts the value into a register, its jumps left aside. A comparison stays a jump. -/
def dischargeTo (e : Exp) (reg : Nat) : M Exp := do
  let e ← dischargeVars e
  let done := { e with kind := .inReg reg }
  match e.kind with
  | .nil => loadNil reg 1; return done
  | .false_ => discard (emitABC .loadFalse reg 0 0); return done
  | .true_ => discard (emitABC .loadTrue reg 0 0); return done
  | .str s => emitK reg (← stringK s); return done
  | .konst k => emitK reg k; return done
  | .float x => loadFloat reg x; return done
  | .int n => loadInt reg n; return done
  | .relocatable pc => setAt pc [(.a, reg)]; return done
  | .inReg r =>
    if r ≠ reg then discard (emitABC .move reg r 0)
    return done
  | _ => return e

def dischargeToAny (e : Exp) : M Exp := do
  match e.kind with
  | .inReg _ => return e
  | _ =>
    reserve 1
    dischargeTo e ((← freeReg) - 1)

def loadBool (reg : Nat) (op : Opcode) : M Nat := do
  discard markTarget
  emitABC op reg 0 0

/-- Emits loads of false and true for the jumps of an expression that have no value of their own;
the result is the positions of the loads. -/
def loadBools (e : Exp) (reg : Nat) : M (Option Nat × Option Nat) := do
  let needed ← if ← needsValue e.whenTrue then pure true else needsValue e.whenFalse
  if needed then
    let past ← match e.kind with
      | .jump _ => pure none
      | _ => some <$> jump
    let ifFalse ← loadBool reg .lFalseSkip
    let ifTrue ← loadBool reg .loadTrue
    patchToHere past
    return (some ifFalse, some ifTrue)
  else return (none, none)

def toRegister (e : Exp) (reg : Nat) : M Unit := do
  let e ← dischargeTo e reg
  let e ← match e.kind with
    | .jump pc => pure { e with whenTrue := ← appendJumps e.whenTrue (some pc) }
    | _ => pure e
  if e.hasJumps then
    let (ifFalse, ifTrue) ← loadBools e reg
    let final ← markTarget
    patchValues e.whenFalse final reg ifFalse
    patchValues e.whenTrue final reg ifTrue

def toNextRegister (e : Exp) : M Nat := do
  let e ← dischargeVars e
  freeExp e
  reserve 1
  let r := (← freeReg) - 1
  toRegister e r
  return r

/-- Puts the value into some register; a value without jumps stays where it is. -/
def toAnyRegister (e : Exp) : M Nat := do
  let e ← dischargeVars e
  match e.kind with
  | .inReg r =>
    if !e.hasJumps then return r
    else if (← activeRegisters) ≤ r then
      toRegister e r
      return r
    else toNextRegister e
  | _ => toNextRegister e

def toRegisterOrUpvalue (e : Exp) : M Exp := do
  match e.kind with
  | .upvalue _ => if e.hasJumps then return .inReg (← toAnyRegister e) else return e
  | _ => return .inReg (← toAnyRegister e)

def toValue (e : Exp) : M Exp := do
  if e.hasJumps then return .inReg (← toAnyRegister e) else dischargeVars e

def toConstant? (e : Exp) : M (Option PoolEntry) := do
  if e.hasJumps then return none
  let constant? ← match e.kind with
    | .true_ => some <$> boolK true
    | .false_ => some <$> boolK false
    | .nil => some <$> nilK
    | .int n => some <$> intK n
    | .float x => some <$> floatK x
    | .str s => some <$> stringK s
    | .konst k => pure (some k)
    | _ => pure none
  match constant? with
  | some k => return if k.index ≤ Instruction.maxB then some k else none
  | none => return none

/-- An operand: a constant of the pool or a register. -/
inductive Operand where
  | konst (k : PoolEntry)
  | reg (r : Nat)

namespace Operand

def number : Operand → Nat
  | .konst k => k.index
  | .reg r => r

def flag : Operand → Nat
  | .konst _ => 1
  | .reg _ => 0

def toExp : Operand → Exp
  | .konst k => ⟨.konst k, none, none⟩
  | .reg r => .inReg r

/-- The constant that an operand stands for, if it is one. -/
def meant : Operand → List Value
  | .konst k => [k.value]
  | .reg _ => []

end Operand

def toOperand (e : Exp) : M Operand := do
  match ← toConstant? e with
  | some k => return .konst k
  | none => return .reg (← toAnyRegister e)

/-- Emits an instruction with a value as its last operand, and frees the value. The constants that
the other operands stand for are given. -/
def emitWithOperand (op : Opcode) (a b : Nat) (e : Exp) (meant : List Value := []) : M Unit := do
  let operand ← toOperand e
  discard (emitABCk op a b operand.number operand.flag (meant ++ operand.meant))
  freeExp operand.toExp

def storeTo (v e : Exp) : M Unit := do
  match v.kind with
  | .localVar r _ =>
    freeExp e
    toRegister e r
  | .upvalue i =>
    let r ← toAnyRegister e
    discard (emitABC .setUpval r i 0)
    freeExp (.inReg r)
  | .indexUp table key _ => emitWithOperand .setTabUp table key.index e [key.value]
  | .indexInt table key => emitWithOperand .setI table key e
  | .indexStr table key _ => emitWithOperand .setField table key.index e [key.value]
  | .indexed table key _ => emitWithOperand .setTable table key e
  | _ => broken .storeToVariable

/-- Emits a method look-up: the method and its receiver go into two registers in a row. -/
def emitSelf (e : Exp) (name : Bytes) : M Nat := do
  let object ← toAnyRegister e
  freeExp (.inReg object)
  let base ← freeReg
  reserve 2
  emitWithOperand .self base object (.str name)
  return base

def shortKey? (k : Exp) : M (Option PoolEntry) := do
  match k.kind with
  | .konst i =>
    if k.hasJumps || Instruction.maxB < i.index then return none
    match ← ofFn (·.pool.values[i.index]?) with
    | some v => return if v.isShortString then some i else none
    | none => broken .indexInRange
  | _ => return none

/-- Records that a table is loaded after a comparison whose outcome has no value yet. -/
def noteLoad (key : Exp) : M Unit :=
  match key.kind with
  | .jump _ => modify fun s => { s with lateLoad := true }
  | _ => pure ()

def index (t k : Exp) : M Exp := do
  let k ← match k.kind with
    | .str s => pure { k with kind := .konst (← stringK s) }
    | _ => pure k
  let name? ← match k.kind with
    | .konst i =>
      match ← ofFn (·.pool.values[i.index]?) with
      | some (.str _) => pure (some i)
      | some _ => pure none
      | none => broken .indexInRange
    | _ => pure none
  let access : GlobalAccess := { name := name? }
  let of := fun (kind : ExpKind) => Exp.mk kind none none
  match t.kind, ← shortKey? k with
  | .upvalue u, some key => return of (.indexUp u key access)
  | kind, short? =>
    let table ← match kind with
      | .upvalue _ =>
        noteLoad k
        toAnyRegister t
      | .localVar r _ => pure r
      | .inReg r => pure r
      | _ => broken .indexInRange
    match short?, k.integer? with
    | some key, _ => return of (.indexStr table key access)
    | none, some n =>
      if 0 ≤ n && n ≤ 255 then return of (.indexInt table n.toInt.toNat)
      else return of (.indexed table (← toAnyRegister k) access)
    | none, none => return of (.indexed table (← toAnyRegister k) access)

end LuaChunk.Compile
