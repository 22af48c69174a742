import LuaChunk.Compile.State

set_option autoImplicit false

namespace LuaChunk.Compile

open LuaChunk

def noteFits (fits : Bool) : M Unit := modify fun s => { s with spilled := s.spilled || !fits }

/-- The registers and names of the first `n` of a function's declarations, as far as they have
registers. -/
def placesOf (vars : Array Variable) (firstVar : Nat) : Nat → List (Nat × Option Bytes)
  | 0 => []
  | n + 1 =>
    match vars[firstVar + n]? with
    | some v =>
      if v.kind.inRegister then placesOf vars firstVar n ++ [(v.reg, v.name)] else placesOf vars
        firstVar n
    | none => placesOf vars firstVar n

def State.places (s : State) : List (Nat × Option Bytes) :=
  placesOf s.vars s.fn.firstVar s.fn.active

/-- Appends an instruction, with the line of the last token that was passed and the constants that
it is emitted for. -/
def emit (d : Draft) (meant : List Value := []) : M Nat := do
  noteFits d.fits
  let line := (← get).lexer.lastLine
  let places := (← get).places
  let pc ← here
  modifyFn fun f => { f with
    code := f.code.push d.word, lines := f.lines.record line, scopes := f.scopes.push places,
    meant := f.meant.push meant }
  return pc

def emitABCk (op : Opcode) (a b c k : Nat) (meant : List Value := []) : M Nat :=
  emit (.abck op a b c k) meant

def emitABC (op : Opcode) (a b c : Nat) (meant : List Value := []) : M Nat :=
  emitABCk op a b c 0 meant

def emitABx (op : Opcode) (a bx : Nat) (meant : List Value := []) : M Nat :=
  emit (.abx op a bx) meant

def fixLine (line : Nat) : M Unit := do
  if ← ofFn (·.lines.canRemove) then
    modifyFn fun f => { f with lines := f.lines.fixLast line }
  else broken .indexInRange

def removeLast : M Unit := do
  if ← ofFn fun f => f.lines.canRemove && !f.code.isEmpty then
    modifyFn fun f => { f with
      code := f.code.pop, lines := f.lines.removeLast, scopes := f.scopes.pop,
      meant := f.meant.pop }
  else broken .indexInRange

def instructionAt (pc : Nat) : M Instruction := do
  match ← ofFn (·.code[pc]?) with
  | some i => pure i
  | none => broken .indexInRange

def modifyAt (pc : Nat) (change : Instruction → Instruction) : M Unit := do
  if pc < (← here) then modifyFn fun f => { f with code := f.code.modify pc change }
  else broken .indexInRange

def setAt (pc : Nat) (changes : List (Instruction.Field × Nat)) : M Unit := do
  noteFits (changes.all fun (f, v) => f.fits v)
  modifyAt pc (·.setAll changes)

def replaceAt (pc : Nat) (d : Draft) : M Unit := do
  noteFits d.fits
  modifyAt pc fun _ => d.word

/-- The last instruction, if no jump can lead to the position after it. -/
def previous? : M (Option Instruction) :=
  ofFn fun f => if f.lastTarget < f.code.size then f.code.back? else none

def setLast (changes : List (Instruction.Field × Nat)) : M Unit := do
  setAt ((← here) - 1) changes

/-- Loads a constant of the pool. An index too large for the operand goes into one of its own. -/
def emitK (reg : Nat) (k : PoolEntry) : M Unit := do
  if k.index ≤ Instruction.maxBx then discard (emitABx .loadK reg k.index [k.value])
  else
    discard (emitABx .loadKX reg 0 [k.value])
    discard (emit (.ax .extraArg k.index))

/-- The operands of a load of nil that is extended by `n` registers from `start` on, if it is a
load of neighbouring registers. -/
def extendNil? (start n : Nat) (prev : Instruction) : Option (Nat × Nat) :=
  let stop := start + n - 1
  let prevStop := prev.a + prev.b
  let touches := (prev.a ≤ start && start ≤ prevStop + 1) || (start ≤ prev.a && prev.a ≤ stop + 1)
  if prev.is .loadNil && touches then
    some (min start prev.a, max stop prevStop - min start prev.a)
  else none

/-- Sets `n` registers from `start` on to nil. A load of neighbouring registers right before is
extended. -/
def loadNil (start n : Nat) : M Unit := do
  match (← previous?).bind (extendNil? start n) with
  | some (a, b) => setLast [(.a, a), (.b, b)]
  | none => discard (emitABC .loadNil start (n - 1) 0)

/-- Returns `count` values from register `first` on; `none` stands for all up to the top. -/
def emitReturn (first : Nat) (count : Option Nat) : M Unit :=
  match count with
  | none => discard (emitABC .ret first 0 0)
  | some 0 => discard (emitABC .ret0 first 1 0)
  | some 1 => discard (emitABC .ret1 first 2 0)
  | some n => discard (emitABC .ret first (n + 1) 0)

def markTarget : M Nat := do
  modifyFn fun f => { f with lastTarget := f.code.size }
  here

def onCode {α : Type} (act : JumpList.Code → Except JumpList.Fault (JumpList.Code × α)) : M α := do
  let code ← modifyGet fun s => (s.fn.code, { s with fn := { s.fn with code := #[] } })
  match act code with
  | .ok (code, a) =>
    modifyFn fun f => { f with code }
    pure a
  | .error .tooLong => syntaxError (utf8 "control structure too long")
  | .error .outOfRange => broken .indexInRange

def hold (pc : Nat) : M Unit :=
  modifyFn fun f => { f with openLists := fun p => f.openLists p ∨ p = pc }

def giveUp (list : Option Nat) : M Unit :=
  modifyFn fun f => { f with openLists := fun p => f.openLists p ∧ list ≠ some p }

def jump : M Nat := do
  let pc ← emit (.sj .jmp JumpList.endOfList)
  hold pc
  return pc

def appendJumps (first second : Option Nat) : M (Option Nat) := do
  noteLists [first, second]
  let list ← onCode fun code => JumpList.append code first second
  if first.isSome then giveUp second
  return list

/-- Sends the jumps of a list to their destinations, which are recorded. -/
def aimJumps (list : Option Nat) (valueTarget : Nat) (reg plainTarget : Option Nat) : M Unit := do
  noteLists [list]
  let aims ← onCode fun code =>
    JumpList.patch code valueTarget reg plainTarget [] (code.size + 1) list
  giveUp list
  modifyFn fun f => { f with aims := aims ++ f.aims }

def patchList (list : Option Nat) (target : Nat) : M Unit := aimJumps list target none (some target)

/-- Sends the jumps with storing tests to a position, their value going into a register, and the
other jumps to another position. -/
def patchValues (list : Option Nat) (target reg : Nat) (plain : Option Nat) : M Unit := do
  noteFits (Instruction.Field.a.fits reg)
  aimJumps list target (some reg) plain

def patchToHere (list : Option Nat) : M Unit := do patchList list (← markTarget)

def jumpTo (target : Nat) : M Unit := do patchList (some (← jump)) target

def testJump (op : Opcode) (a b c k : Nat) (meant : List Value := []) : M Nat := do
  discard (emitABCk op a b c k meant)
  jump

/-- Whether some jump of the list has no value of its own to give. -/
def needsValue (list : Option Nat) : M Bool := do
  noteLists [list]
  onCode fun code => (JumpList.needsValue code (code.size + 1) list).map (code, ·)

/-- Makes every storing test of a list a plain test. -/
def removeValues (list : Option Nat) : M Unit := do
  noteLists [list]
  onCode fun code => (JumpList.removeValues code (code.size + 1) list).map (·, ())

/-- The number of registers that the first `n` of the function's declarations take. -/
def registersOf (vars : Array Variable) (firstVar : Nat) : Nat → Option Nat
  | 0 => some 0
  | n + 1 =>
    match vars[firstVar + n]? with
    | some v => if v.kind.inRegister then some (v.reg + 1) else registersOf vars firstVar n
    | none => none

def registerLevel (n : Nat) : M Nat := do
  let s ← get
  match registersOf s.vars s.fn.firstVar n with
  | some level => pure level
  | none => broken .indexInRange

def activeRegisters : M Nat := do registerLevel (← ofFn (·.active))

def freeReg : M Nat := ofFn (·.freeReg)

def setFreeReg (r : Nat) : M Unit := modifyFn fun f => { f with freeReg := r }

def maxRegisters : Nat := 255

def checkStack (n : Nat) : M Unit := do
  let size := (← freeReg) + n
  if (← ofFn (·.maxStack)) < size then
    if maxRegisters ≤ size then
      fail .limit (utf8 "function or expression needs too many registers") (← currentNear)
    else modifyFn fun f => { f with maxStack := size }

def reserve (n : Nat) : M Unit := do
  checkStack n
  modifyFn fun f => { f with freeReg := f.freeReg + n }

/-- Frees a register, unless it holds an active variable. The last one reserved is freed first. -/
def freeRegister (reg : Nat) : M Unit := do
  if (← activeRegisters) ≤ reg then
    let top ← freeReg
    if reg + 1 = top then setFreeReg reg else broken (.freedInOrder reg ((top : Int) - 1))

def freeRegisters (r₁ r₂ : Nat) : M Unit := do
  if r₂ < r₁ then
    freeRegister r₁
    freeRegister r₂
  else
    freeRegister r₂
    freeRegister r₁

def noteFloat (x : Double) (keeper : Keeper) : M Unit :=
  modify fun s => { s with floats := s.floats.push ⟨x, keeper⟩ }

def placeConstant (key : PoolKey) (v : Value) : M Nat := do
  match ← ofFn (·.pool.find? key v) with
  | some k => pure k
  | none =>
    let k ← ofFn (·.pool.values.size)
    if Instruction.maxAx ≤ k then limitError Instruction.maxAx "constants"
    modifyFn fun f => { f with pool := f.pool.push key v }
    match v with
    | .str s => stored (.text · s)
    | _ => pure ()
    pure k

/-- The entry of a constant. The one that stands for a float is recorded. -/
def addConstant (key : PoolKey) (v : Value) : M PoolEntry := do
  let k ← placeConstant key v
  match v with
  | .num (.float x) => noteFloat x (.entry (← ofFn (·.pool.values[k]?)))
  | _ => pure ()
  return ⟨k, v⟩

def stringK (s : Bytes) : M PoolEntry := addConstant (.text s) (.str s)

def intK (n : Int64) : M PoolEntry := addConstant (.int n) (.num (.int n))

def floatK (x : Double) : M PoolEntry := addConstant (.ofFloat x) (.num (.float x))

def boolK (b : Bool) : M PoolEntry := addConstant (.bool b) (.bool b)

def nilK : M PoolEntry := addConstant .nil .nil

end LuaChunk.Compile
