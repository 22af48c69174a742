import LuaChunk.Compile.Discharge

set_option autoImplicit false

namespace LuaChunk.Compile

open LuaChunk

inductive UnaryOp where
  | minus | bnot | not | len
  deriving DecidableEq, Repr

inductive BinaryOp where
  | arith (op : ArithOp)
  | concat
  | eq | lt | le | ne | gt | ge
  | and | or
  deriving DecidableEq, Repr

namespace BinaryOp

def priority : BinaryOp → Nat × Nat
  | .arith .add | .arith .sub => (10, 10)
  | .arith .mul | .arith .mod | .arith .div | .arith .idiv => (11, 11)
  | .arith .pow => (14, 13)
  | .arith .band => (6, 6)
  | .arith .bor => (4, 4)
  | .arith .bxor => (5, 5)
  | .arith .shl | .arith .shr => (7, 7)
  | .arith .unm | .arith .bnot => (0, 0)
  | .concat => (9, 8)
  | .eq | .lt | .le | .ne | .gt | .ge => (3, 3)
  | .and => (2, 2)
  | .or => (1, 1)

end BinaryOp

def unaryPriority : Nat := 12

def arithOpcode : ArithOp → Opcode
  | .add => .add
  | .sub => .sub
  | .mul => .mul
  | .mod => .mod
  | .pow => .pow
  | .div => .div
  | .idiv => .idiv
  | .band => .band
  | .bor => .bor
  | .bxor => .bxor
  | .shl => .shl
  | .shr => .shr
  | .unm => .unm
  | .bnot => .bnot

def arithConstantOpcode? : ArithOp → Option Opcode
  | .add => some .addK
  | .sub => some .subK
  | .mul => some .mulK
  | .mod => some .modK
  | .pow => some .powK
  | .div => some .divK
  | .idiv => some .idivK
  | .band => some .bandK
  | .bor => some .borK
  | .bxor => some .bxorK
  | _ => none

def arithEvent : ArithOp → Event
  | .add => .add
  | .sub => .sub
  | .mul => .mul
  | .mod => .mod
  | .pow => .pow
  | .div => .div
  | .idiv => .idiv
  | .band => .band
  | .bor => .bor
  | .bxor => .bxor
  | .shl => .shl
  | .shr => .shr
  | .unm => .unm
  | .bnot => .bnot

def foldable (op : ArithOp) (a b : Number) : Bool :=
  if op.isBitwise then a.toInt64?.isSome && b.toInt64?.isSome
  else match op with
    | .div | .idiv | .mod => b.toFloat != 0
    | _ => true

/-- The result of an operation on two constants. A NaN or a zero of a float operation is left to
run time, so that no constant is a NaN or a negative zero. -/
def fold? (op : ArithOp) (e₁ e₂ : Exp) : Option Exp :=
  match e₁.numeral?, e₂.numeral? with
  | some a, some b =>
    if foldable op a b then
      match Number.arith op a b with
      | some (.int n) => some (.ofNumber (.int n))
      | some (.float x) =>
        if x.value.isNaN || x.value == 0 then none else some (.ofNumber (.float x))
      | none => none
    else none
  | _, _ => none

def negateCondition (pc : Nat) : M Unit := do
  let control ← ofFn fun f => JumpList.control f.code pc
  let i ← instructionAt control
  setAt control [(.k, 1 - i.k)]

def jumpOn (e : Exp) (cond : Bool) : M Nat := do
  let plain := do
    let e ← dischargeToAny e
    freeExp e
    match e.register? with
    | some r => testJump .testSet Instruction.noRegister r 0 cond.toNat
    | none => broken .indexInRange
  match e.kind with
  | .relocatable pc =>
    let i ← instructionAt pc
    if i.is .not then
      removeLast
      testJump .test i.b 0 0 (!cond).toNat
    else plain
  | _ => plain

/-- Goes on if the value is true and jumps if it is not: the jumps are in the list of the result
for the value false. -/
def goIfTrue (e : Exp) : M Exp := do
  let e ← dischargeVars e
  let pc ← match e.kind with
    | .jump pc =>
      negateCondition pc
      pure (some pc)
    | .konst _ | .float _ | .int _ | .str _ | .true_ => pure none
    | _ => some <$> jumpOn e false
  let whenFalse ← appendJumps e.whenFalse pc
  patchToHere e.whenTrue
  return { e with whenTrue := none, whenFalse }

def goIfFalse (e : Exp) : M Exp := do
  let e ← dischargeVars e
  let pc ← match e.kind with
    | .jump pc => pure (some pc)
    | .nil | .false_ => pure none
    | _ => some <$> jumpOn e true
  let whenTrue ← appendJumps e.whenTrue pc
  patchToHere e.whenFalse
  return { e with whenTrue, whenFalse := none }

def emitNot (e : Exp) : M Exp := do
  let kind ← match e.kind with
    | .nil | .false_ => pure .true_
    | .konst _ | .float _ | .int _ | .str _ | .true_ => pure .false_
    | .jump pc =>
      negateCondition pc
      pure (.jump pc)
    | .relocatable _ | .inReg _ =>
      let v ← dischargeToAny e
      freeExp v
      match v.register? with
      | some r => ExpKind.relocatable <$> emitABC .not 0 r 0
      | none => broken .notOfValue
    | _ => broken .notOfValue
  let e : Exp := ⟨kind, e.whenFalse, e.whenTrue⟩
  removeValues e.whenFalse
  removeValues e.whenTrue
  return e

def emitUnary (op : Opcode) (e : Exp) (line : Nat) : M Exp := do
  let r ← toAnyRegister e
  freeExp (.inReg r)
  let pc ← emitABC op 0 r 0
  fixLine line
  return .relocatable pc

def applyUnary (op : UnaryOp) (e : Exp) (line : Nat) : M Exp := do
  let e ← dischargeVars e
  let zero := Exp.ofNumber (.int 0)
  match op with
  | .minus =>
    match fold? .unm e zero with
    | some e => return e
    | none => emitUnary .unm e line
  | .bnot =>
    match fold? .bnot e zero with
    | some e => return e
    | none => emitUnary .bnot e line
  | .len => emitUnary .len e line
  | .not => emitNot e

/-- Emits an arithmetic instruction and its fallback: `e₁` goes into a register, the number of the
second operand is given, and the constant that it stands for, if it is one. -/
def emitArith (op : Opcode) (e₁ e₂ : Exp) (operand : Nat) (flip : Bool) (line : Nat)
    (fallback : Opcode) (event : Event) (meant : List Value := []) : M Exp := do
  let r ← toAnyRegister e₁
  let pc ← emitABC op 0 r operand meant
  freeExps (.inReg r) e₂
  fixLine line
  discard (emitABCk fallback r operand event.number flip.toNat meant)
  fixLine line
  return .relocatable pc

def emitArithRegisters (op : ArithOp) (e₁ e₂ : Exp) (line : Nat) : M Exp := do
  let r ← toAnyRegister e₂
  emitArith (arithOpcode op) e₁ (.inReg r) r false line .mmBin (arithEvent op)

def emitArithInteger (op : Opcode) (e₁ e₂ : Exp) (n : Int64) (flip : Bool) (line : Nat)
    (event : Event) : M Exp :=
  emitArith op e₁ e₂ (signedOperand n) flip line .mmBinI event

/-- The form with a small integer subtracted or shifted by: it is added or shifted by negated, and
the fallback sees the integer as it was written. None if the integer does not fit. -/
def emitArithNegated? (op : Opcode) (e₁ e₂ : Exp) (line : Nat) (event : Event) :
    M (Option Exp) := do
  match e₂.integer? with
  | none => return none
  | some n =>
    if fitsSC n && fitsSC (-n) then
      let e ← emitArith op e₁ e₂ (signedOperand (-n)) false line .mmBinI event
      setLast [(.b, signedOperand n)]
      return some e
    else return none

/-- The form with a constant if the second operand is one, else the form with two registers.
`flip` says that the operands stand in reverse. -/
def emitArithConstant (op : ArithOp) (e₁ e₂ : Exp) (useConstant flip : Bool) (line : Nat) :
    M Exp := do
  let constant? ← if useConstant then toConstant? e₂ else pure none
  match constant?, arithConstantOpcode? op with
  | some k, some opcode =>
    emitArith opcode e₁ (Operand.toExp (.konst k)) k.index flip line .mmBinK (arithEvent op)
      [k.value]
  | _, _ =>
    if flip then emitArithRegisters op e₂ e₁ line else emitArithRegisters op e₁ e₂ line

/-- Addition or multiplication: a number on the left goes to the right. -/
def emitCommutative (op : ArithOp) (e₁ e₂ : Exp) (line : Nat) : M Exp := do
  let flip := e₁.isNumeral
  let (e₁, e₂) := if flip then (e₂, e₁) else (e₁, e₂)
  match op, e₂.smallInteger? with
  | .add, some n => emitArithInteger .addI e₁ e₂ n flip line .add
  | _, _ => emitArithConstant op e₁ e₂ e₂.isNumeral flip line

def emitBitwise (op : ArithOp) (e₁ e₂ : Exp) (line : Nat) : M Exp := do
  let flip := e₁.integer?.isSome
  let (e₁, e₂) := if flip then (e₂, e₁) else (e₁, e₂)
  emitArithConstant op e₁ e₂ e₂.integer?.isSome flip line

/-- `..`, with both operands in neighbouring registers. A concatenation that ends in the right
operand is extended. -/
def emitConcat (r₁ r₂ line : Nat) : M Exp := do
  let fresh := do
    discard (emitABC .concat r₁ 2 0)
    freeExp (.inReg r₂)
    fixLine line
  match ← previous? with
  | some prev =>
    if prev.is .concat then
      freeExp (.inReg r₂)
      setLast [(.a, r₁), (.b, prev.b + 1)]
    else fresh
  | none => fresh
  return .inReg r₁

def emitOrder (orEqual : Bool) (e₁ e₂ : Exp) : M Exp := do
  let pick := fun (strict weak : Opcode) => if orEqual then weak else strict
  let comparison := fun (op : Opcode) (v₁ v₂ : Exp) (r operand : Nat) (isFloat : Bool) => do
    freeExps v₁ v₂
    return Exp.mk (.jump (← testJump op r operand isFloat.toNat 1)) none none
  match e₂.smallNumber?, e₁.smallNumber? with
  | some (n, isFloat), _ =>
    let r ← toAnyRegister e₁
    comparison (pick .ltI .leI) (.inReg r) e₂ r n isFloat
  | none, some (n, isFloat) =>
    let r ← toAnyRegister e₂
    comparison (pick .gtI .geI) e₁ (.inReg r) r n isFloat
  | none, none =>
    let r₁ ← toAnyRegister e₁
    let r₂ ← toAnyRegister e₂
    comparison (pick .lt .le) (.inReg r₁) (.inReg r₂) r₁ r₂ false

def emitEqual (equal : Bool) (e₁ e₂ : Exp) : M Exp := do
  let (e₁, e₂) := if e₁.register?.isSome then (e₁, e₂) else (e₂, e₁)
  let r ← toAnyRegister e₁
  let comparison :=
    fun (op : Opcode) (v₂ : Exp) (operand : Nat) (isFloat : Bool) (meant : List Value) => do
    freeExps (.inReg r) v₂
    return Exp.mk (.jump (← testJump op r operand isFloat.toNat equal.toNat meant)) none none
  match e₂.smallNumber? with
  | some (n, isFloat) => comparison .eqI e₂ n isFloat []
  | none =>
    match ← toOperand e₂ with
    | .konst k => comparison .eqK (Operand.toExp (.konst k)) k.index false [k.value]
    | .reg r₂ => comparison .eq (.inReg r₂) r₂ false []

/-- Prepares the left operand before the right one is read. Numbers stay as they are: they may
still be folded or become operands. -/
def prepareLeft (op : BinaryOp) (e : Exp) : M Exp := do
  let e ← dischargeVars e
  match op with
  | .and => goIfTrue e
  | .or => goIfFalse e
  | .concat => return .inReg (← toNextRegister e)
  | .arith _ => if e.isNumeral then return e else return .inReg (← toAnyRegister e)
  | .eq | .ne => if e.isNumeral then return e else return (← toOperand e).toExp
  | .lt | .le | .gt | .ge =>
    if e.smallNumber?.isSome then return e else return .inReg (← toAnyRegister e)

def emitShiftLeft (e₁ e₂ : Exp) (line : Nat) : M Exp := do
  match e₁.smallInteger? with
  | some n => emitArithInteger .shlI e₂ e₁ n true line .shl
  | none =>
    match ← emitArithNegated? .shrI e₁ e₂ line .shl with
    | some e => return e
    | none => emitArithRegisters .shl e₁ e₂ line

def emitArithmetic (op : ArithOp) (e₁ e₂ : Exp) (line : Nat) : M Exp := do
  match op with
  | .add | .mul => emitCommutative op e₁ e₂ line
  | .sub =>
    match ← emitArithNegated? .addI e₁ e₂ line .sub with
    | some e => return e
    | none => emitArithConstant op e₁ e₂ e₂.isNumeral false line
  | .band | .bor | .bxor => emitBitwise op e₁ e₂ line
  | .shl => emitShiftLeft e₁ e₂ line
  | .shr =>
    match e₂.smallInteger? with
    | some n => emitArithInteger .shrI e₁ e₂ n false line .shr
    | none => emitArithRegisters op e₁ e₂ line
  | _ => emitArithConstant op e₁ e₂ e₂.isNumeral false line

def applyBinary (op : BinaryOp) (e₁ e₂ : Exp) (line : Nat) : M Exp := do
  let e₂ ← dischargeVars e₂
  match op with
  | .arith op =>
    match fold? op e₁ e₂ with
    | some e => return e
    | none => emitArithmetic op e₁ e₂ line
  | .and => return { e₂ with whenFalse := ← appendJumps e₂.whenFalse e₁.whenFalse }
  | .or => return { e₂ with whenTrue := ← appendJumps e₂.whenTrue e₁.whenTrue }
  | .concat =>
    let r₂ ← toNextRegister e₂
    match e₁.register? with
    | some r₁ => emitConcat r₁ r₂ line
    | none => broken .indexInRange
  | .eq => emitEqual true e₁ e₂
  | .ne => emitEqual false e₁ e₂
  | .lt => emitOrder false e₁ e₂
  | .le => emitOrder true e₁ e₂
  | .gt => emitOrder false e₂ e₁
  | .ge => emitOrder true e₂ e₁

end LuaChunk.Compile
