import LuaChunk.Compile.Expression

set_option autoImplicit false

namespace LuaChunk.Compile

open LuaChunk

/-- A block of statements with a scope of its own. -/
def block (r : Nested) : M Unit := do
  noteLists []
  enterBlock .none
  statements r
  discard leaveBlock

/-- A condition; the result is the list of the jumps taken if it does not hold. -/
def condition (r : Nested) : M (Option Nat) := do
  let e ← expression r
  let e := match e.kind with
    | .nil => { e with kind := .false_ }
    | _ => e
  return (← goIfTrue e).whenFalse

/-- A condition after `if` or `elseif`, and its block. `escape` lists the jumps to the end of the
statement. -/
def testThenBlock (r : Nested) (escape : Option Nat) : M (Option Nat) := do
  next
  let ifFalse ← condition r
  checkNext (.word .then_)
  block r
  let k ← currentKind
  let escape ←
    if k = .word .else_ || k = .word .elseif_ then appendJumps escape (some (← jump))
    else pure escape
  patchToHere ifFalse
  return escape

def ifStatement (r : Nested) (line : Nat) : M Unit := do
  let first ← testThenBlock r none
  let escape ← repeatTurn (fun (escape : Option Nat) => do
    if (← currentKind) = .word .elseif_ then return .again (← testThenBlock r escape)
    else return .done escape) first
  if ← testNext (.word .else_) then block r
  checkMatch (.word .end_) (.word .if_) line
  patchToHere escape

def whileStatement (r : Nested) (line : Nat) : M Unit := do
  next
  let start ← markTarget
  let exit ← condition r
  enterBlock .plain
  checkNext (.word .do_)
  block r
  jumpTo start
  checkMatch (.word .end_) (.word .while_) line
  discard leaveBlock
  patchToHere exit

/-- The condition sees the variables of the body. If some are captured, they are closed on the way
back. -/
def repeatStatement (r : Nested) (line : Nat) : M Unit := do
  let start ← markTarget
  enterBlock .plain
  enterBlock .none
  next
  statements r
  checkMatch (.word .until_) (.word .repeat_) line
  let again ← condition r
  let scope ← leaveBlock
  let again ←
    if scope.captured then do
      let exit ← jump
      patchToHere again
      discard (emitABC .close (← registerLevel scope.level) 0 0)
      let again ← jump
      patchToHere (some exit)
      pure (some again)
    else pure again
  patchList again start
  discard leaveBlock

def expressionToRegister (r : Nested) : M Unit := do
  discard (toNextRegister (← expression r))

def fixLoop (pc distance : Nat) : M Unit := do
  if Instruction.maxBx < distance then syntaxError (utf8 "control structure too long")
  setAt pc [(.bx, distance)]

/-- The instructions that begin and end a loop of a kind. -/
structure LoopCode where
  prepare : Opcode
  step : Opcode
  isGeneric : Bool

def numericLoop : LoopCode := ⟨.forPrep, .forLoop, false⟩

def genericLoop : LoopCode := ⟨.tforPrep, .tforLoop, true⟩

/-- The body of a loop whose state is in the registers from `base` on. -/
def loopBody (r : Nested) (base line numVars : Nat) (code : LoopCode) : M Unit := do
  checkNext (.word .do_)
  let prepare ← emitABx code.prepare base 0
  enterBlock .none
  activate numVars
  reserve numVars
  block r
  discard leaveBlock
  fixLoop prepare ((← markTarget) - (prepare + 1))
  if code.isGeneric then
    discard (emitABC .tforCall base 0 numVars)
    fixLine line
  let step ← emitABx code.step base 0
  fixLoop step (step + 1 - (prepare + 1))
  fixLine line

def loopStateName : String := "(for state)"

def numericFor (r : Nested) (name : Bytes) (number line : Nat) : M Unit := do
  let base ← freeReg
  declareHidden loopStateName
  declareHidden loopStateName
  declareHidden loopStateName
  discard (declare (some name) .const (some number) true)
  checkNext (.char '=')
  expressionToRegister r
  checkNext (.char ',')
  expressionToRegister r
  if ← testNext (.char ',') then expressionToRegister r
  else
    loadInt (← freeReg) 1
    reserve 1
  activate 3
  loopBody r base line 1 numericLoop

/-- Makes `count` values out of the expressions of a list, the last of which is `e`. -/
def adjustValues (count : Nat) (list : Nat × Exp) : M Unit := do
  let (n, e) := list
  if e.isMulti then setReturns e (some (count + 1 - n))
  else
    if !e.isVoid then discard (toNextRegister e)
    if n < count then loadNil (← freeReg) (count - n)
  if n < count then reserve (count - n)
  else modifyFn fun f => { f with freeReg := f.freeReg - (n - count) }

def genericFor (r : Nested) (name : Bytes) (number : Nat) : M Unit := do
  let base ← freeReg
  declareHidden loopStateName
  declareHidden loopStateName
  declareHidden loopStateName
  declareHidden loopStateName
  discard (declare (some name) .const (some number) true)
  let numVars ← repeatTurn (fun (n : Nat) => do
    if ← testNext (.char ',') then
      let (name, number) ← takeDeclared
      discard (declare (some name) .regular (some number))
      return .again (n + 1)
    else return .done n) 1
  checkNext (.word .in_)
  let line ← currentLine
  adjustValues 4 (← expressionList r)
  activate 4
  markToClose
  checkStack 3
  loopBody r base line numVars genericLoop

def forStatement (r : Nested) (line : Nat) : M Unit := do
  enterBlock .plain
  next
  let (name, number) ← takeDeclared
  let k ← currentKind
  if k = .char '=' then numericFor r name number line
  else if k = .char ',' || k = .word .in_ then genericFor r name number
  else syntaxError (utf8 "'=' or 'in' expected")
  checkMatch (.word .end_) (.word .for_) line
  discard leaveBlock

def functionName : M (Exp × Bool) := do
  let first ← takeVariable
  let e ← repeatTurn (fun (e : Exp) => do
    if (← currentKind) = .char '.' then return .again (← fieldOf e) else return .done e) first
  if (← currentKind) = .char ':' then return (← fieldOf e, true) else return (e, false)

def functionStatement (r : Nested) (line : Nat) : M Unit := do
  next
  let (target, isMethod) ← functionName
  noteWrite target
  checkReadOnly target
  let f ← functionBody r isMethod line
  storeTo target f
  fixLine line

/-- A local function is visible in its own body; debug information shows it after that. -/
def localFunction (r : Nested) : M Unit := do
  let place ← ofFn (·.active)
  let (name, number) ← takeDeclared
  discard (declare (some name) .regular (some number))
  activate 1
  discard (functionBody r false (← currentLine))
  let v ← ownVariable place
  let pc ← here
  modifyLocal v.debug fun x => { x with start := pc }
  modifyFn fun f => { f with scopes := f.scopes.modify (pc - 1) List.dropLast }

def optionalAttribute (fallback : VarKind) : M VarKind := do
  if !(← testNext (.char '<')) then return fallback
  let name ← takeName
  checkNext (.char '>')
  if name = utf8 "const" then return .const
  else if name = utf8 "close" then return .toClose
  else semanticError (utf8 "unknown attribute '" ++ name ++ utf8 "'")

def globalAttribute (fallback : VarKind) : M VarKind := do
  match ← optionalAttribute fallback with
  | .toClose => semanticError (utf8 "global variables cannot be to-be-closed")
  | .const => return .constGlobal
  | k => return k

def checkToClose (place : Option Nat) : M Unit := do
  match place with
  | none => pure ()
  | some i =>
    markToClose
    discard (emitABC .tbc (← registerLevel i) 0 0)

def knownValue? (e : Exp) : M (Option Value) := do
  if e.hasJumps then return none
  match e.kind with
  | .false_ => return some (.bool false)
  | .true_ => return some (.bool true)
  | .nil => return some .nil
  | .str s => return some (.str s)
  | .constVar i => return some (← variableAt i).value
  | _ => return e.numeral?.map .num

def noteKnown (value : Value) : M Unit :=
  match value with
  | .num (.float x) => noteFloat x (.declaration value)
  | _ => pure ()

/-- The names of a local declaration: how many there are, the last one's place, and the place of
the one to be closed. -/
def localNames (fallback : VarKind) : M (Nat × Nat × Option Nat) :=
  repeatTurn (fun (n, toClose) => do
    let (name, number) ← takeDeclared
    let kind ← optionalAttribute fallback
    let place ← declare (some name) kind (some number)
    let toClose ←
      if kind = .toClose then
        if toClose.isSome then
          semanticError (utf8 "multiple to-be-closed variables in local list")
        else pure (some ((← ofFn (·.active)) + n))
      else pure toClose
    if ← testNext (.char ',') then return .again (n + 1, toClose)
    else return .done (n + 1, place, toClose)) ((0 : Nat), (none : Option Nat))

def localStatement (r : Nested) : M Unit := do
  let fallback ← optionalAttribute .regular
  let (n, last, toClose) ← localNames fallback
  let values ← if ← testNext (.char '=') then expressionList r else pure (0, Exp.void)
  let v ← ownVariable last
  let known ←
    if n = values.1 && v.kind = .const then knownValue? values.2 else pure none
  match known with
  | some value =>
    noteKnown value
    modifyVariable ((← ofFn (·.firstVar)) + last) fun v => { v with kind := .compileTime, value }
    activate (n - 1)
    activateUnplaced 1
  | none =>
    adjustValues n values
    activate n
  checkToClose toClose

def checkUndefined (name : Bytes) (line : Nat) : M Unit := do
  let e ← globalAccess name
  let k ← match e.kind with
    | .indexed _ _ { name := some k, .. } | .indexUp _ _ { name := some k, .. }
    | .indexStr _ _ { name := some k, .. } => pure k
    | _ => broken .indexInRange
  let r ← toAnyRegister e
  fixLine line
  if Instruction.maxBx ≤ k.index then discard (emitABx .errNNil r 0)
  else discard (emitABx .errNNil r (k.index + 1) [k.value])
  fixLine line
  freeExp (.inReg r)

def storeTop (target : Exp) : M Unit := do storeTo target (.inReg ((← freeReg) - 1))

/-- The initial values of the globals `names`, the last ones of `count`. They are checked and
stored from the last one to the first. -/
def initGlobals (r : Nested) (count line : Nat) : List Bytes → M Unit
  | [] => do adjustValues count (← expressionList r)
  | name :: rest => do
    let target ← globalAccess name
    r.initGlobals count line rest
    checkUndefined name line
    storeTop target

def globalNames (r : Nested) (fallback : VarKind) : M Unit := do
  let names ← repeatTurn (fun (names : List Bytes) => do
    let name ← takeName
    let kind ← globalAttribute fallback
    discard (declare (some name) kind)
    let names := name :: names
    if ← testNext (.char ',') then return .again names else return .done names.reverse) []
  if ← testNext (.char '=') then initGlobals r names.length (← currentLine) names
  activateUnplaced names.length

def globalStatement (r : Nested) : M Unit := do
  let fallback ← globalAttribute .global
  if ← testNext (.char '*') then
    discard (declare none fallback)
    activateUnplaced 1
  else globalNames r fallback

def globalFunction (r : Nested) (line : Nat) : M Unit := do
  let name ← takeName
  discard (declare (some name) .global)
  activateUnplaced 1
  let target ← globalAccess name
  let f ← functionBody r false (← currentLine)
  checkUndefined name line
  storeTo target f
  fixLine line

def labelStatement (r : Nested) (name : Bytes) (line : Nat) : M Unit := do
  checkNext (.symbol .colons)
  repeatTurn (fun () => do
    let k ← currentKind
    if k = .char ';' || k = .symbol .colons then
      r.statement
      return .again ()
    else return .done ()) ()
  let s ← get
  match findLabel? s.labels s.fn.firstLabel name with
  | some l =>
    semanticError (utf8 "label '" ++ name ++ utf8 "' already defined on line " ++
      Bytes.ofNat l.line)
  | none => addLabel name line (← blockEnds false)

def breakStatement (line : Nat) : M Unit := do
  if !(← markBroken) then syntaxError (utf8 "break outside a loop")
  next
  addGoto breakName line

/-- A single call that is returned, with nothing to close after it, is a tail call. -/
def returnStatement (r : Nested) : M Unit := do
  let first ← activeRegisters
  if (← blockEnds true) || (← currentKind) = .char ';' then emitReturn first (some 0)
  else
    let (n, e) ← expressionList r
    if e.isMulti then
      setReturns e none
      match e.kind with
      | .call pc =>
        if n = 1 && !(← currentBlock).insideToClose then
          setAt pc [(.opcode, Opcode.tailCall.number)]
      | _ => pure ()
      emitReturn first none
    else if n = 1 then
      emitReturn (← toAnyRegister e) (some 1)
    else
      discard (toNextRegister e)
      emitReturn first (some n)
  discard (testNext (.char ';'))

/-- A target whose table or key is the variable `v`, made to use the register `copy` instead; and
whether that was so. -/
def Exp.withCopy (target v : Exp) (copy : Nat) : Exp × Bool :=
  match target.kind, v.kind with
  | .indexUp t k a, .upvalue i =>
    if t = i then ({ target with kind := .indexStr copy k a }, true) else (target, false)
  | .indexInt t k, .localVar r _ =>
    if t = r then ({ target with kind := .indexInt copy k }, true) else (target, false)
  | .indexStr t k a, .localVar r _ =>
    if t = r then ({ target with kind := .indexStr copy k a }, true) else (target, false)
  | .indexed t k a, .localVar r _ =>
    let t' := if t = r then copy else t
    let k' := if k = r then copy else k
    ({ target with kind := .indexed t' k' a }, t = r || k = r)
  | _, _ => (target, false)

/-- Earlier targets that use the variable `v` are made to use a copy of it, since the values are
stored from the last target to the first. -/
def copyConflicts (v : Exp) (earlier : List Exp) : M (List Exp) := do
  let copy ← freeReg
  let changed := earlier.map fun t => t.withCopy v copy
  if changed.any (·.2) then
    match v.kind with
    | .localVar r _ => discard (emitABC .move copy r 0)
    | .upvalue i => discard (emitABC .getUpval copy i 0)
    | _ => pure ()
    reserve 1
  return changed.map (·.1)

/-- The rest of an assignment after its last target so far; the result is the earlier targets, as
later ones left them. -/
def assignRest (r : Nested) (target : Exp) (earlier : List Exp) : M (List Exp) := do
  if !target.isVariable then syntaxError (utf8 "syntax error")
  noteWrite target
  checkReadOnly target
  if ← testNext (.char ',') then
    let later ← suffixed r
    let targets := target :: earlier
    let targets ← if later.isIndexed then pure targets else copyConflicts later targets
    match ← r.assign later targets with
    | target :: earlier =>
      storeTop target
      return earlier
    | [] => broken .indexInRange
  else
    checkNext (.char '=')
    let (n, e) ← expressionList r
    let count := earlier.length + 1
    if n = count then storeTo target (← setOneReturn e)
    else
      adjustValues count (n, e)
      storeTop target
    return earlier

def expressionStatement (r : Nested) : M Unit := do
  let e ← suffixed r
  let k ← currentKind
  if k = .char '=' || k = .char ',' then discard (assignRest r e [])
  else match e.kind with
    | .call pc => setAt pc [(.c, 1)]
    | _ => syntaxError (utf8 "syntax error")

def statementBody (r : Nested) (line : Nat) : M Unit := do
  match ← currentKind with
  | .word .if_ => ifStatement r line
  | .word .while_ => whileStatement r line
  | .word .do_ =>
    next
    block r
    checkMatch (.word .end_) (.word .do_) line
  | .word .for_ => forStatement r line
  | .word .repeat_ => repeatStatement r line
  | .word .function_ => functionStatement r line
  | .word .local_ =>
    next
    if ← testNext (.word .function_) then localFunction r else localStatement r
  | .word .global_ =>
    next
    if ← testNext (.word .function_) then globalFunction r line else globalStatement r
  | .symbol .colons =>
    next
    labelStatement r (← takeName) line
  | .word .return_ =>
    next
    returnStatement r
  | .word .break_ => breakStatement line
  | .word .goto_ =>
    next
    addGoto (← takeName) line
  | k => if k = .char ';' then next else expressionStatement r

def statement (r : Nested) : M Unit := do
  statementBody r (← currentLine)
  let f := (← get).fn
  let level ← activeRegisters
  if f.maxStack < f.freeReg || f.freeReg < level then broken .registerLevel
  setFreeReg level

end LuaChunk.Compile
