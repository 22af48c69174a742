import LuaChunk.Compile.Operator
import LuaChunk.Compile.Function

/-!
Parsing expressions. The parsers that nest without end are passed to each other as a `Nested`
record, in which one level of nesting less is left; so the depth of the recursion is bounded, and a
source that is nested deeper is refused.
-/

set_option autoImplicit false

namespace LuaChunk.Compile

open LuaChunk

/-- The parsers of a deeper level. -/
structure Nested where
  /-- an expression whose operators bind tighter than a limit, and the operator after it -/
  subExpr : (limit : Nat) → M (Exp × Option BinaryOp)
  statement : M Unit
  /-- the rest of an assignment to a target and earlier ones; the result is the earlier ones -/
  assign : (target : Exp) → (earlier : List Exp) → M (List Exp)
  /-- the initialization of the last ones of `count` globals -/
  initGlobals : (count line : Nat) → (names : List Bytes) → M Unit

def testNext (k : TokenKind) : M Bool := do
  if (← currentKind) = k then
    next
    return true
  else return false

def errorExpected {α : Type} (k : TokenKind) : M α := syntaxError (k.text ++ utf8 " expected")

def check (k : TokenKind) : M Unit := do
  if (← currentKind) ≠ k then errorExpected k

def checkNext (k : TokenKind) : M Unit := do
  check k
  next

def checkMatch (what who : TokenKind) (line : Nat) : M Unit := do
  if !(← testNext what) then
    if line = (← currentLine) then errorExpected what
    else syntaxError (what.text ++ utf8 " expected (to close " ++ who.text ++ utf8 " at line "
      ++ Bytes.ofNat line ++ utf8 ")")

def takeName : M Bytes := do
  match ← currentToken with
  | .name s =>
    nextName none
    return s
  | _ => errorExpected .name

/-- Takes the name of a local variable that is declared with it; the result is also the number of
its token. -/
def takeDeclared : M (Bytes × Nat) := do
  let number := (← get).lexer.number
  match ← currentToken with
  | .name s =>
    nextName (some number)
    return (s, number)
  | _ => errorExpected .name

/-- The variable that a name stands for, which is recorded as the one that was read last. -/
def readVariable (name : Bytes) : M Exp := do
  let e ← variableExp name
  noteTarget (some name)
  return e

def takeVariable : M Exp := do
  match ← currentToken with
  | .name s =>
    nextName ((← get).declarationOf s)
    readVariable s
  | _ => errorExpected .name

def blockEnds (withUntil : Bool) : M Bool := do
  match ← currentKind with
  | .word .else_ | .word .elseif_ | .word .end_ | .eos => return true
  | .word .until_ => return withUntil
  | _ => return false

def statements (r : Nested) : M Unit :=
  repeatTurn (fun () => do
    if ← blockEnds true then return .done ()
    let isReturn := (← currentKind) = .word .return_
    r.statement
    return if isReturn then .done () else .again ()) ()

def expression (r : Nested) : M Exp := return (← r.subExpr 0).1

/-- Expressions between commas: their number and the last one. The others are in registers. -/
def expressionList (r : Nested) : M (Nat × Exp) := do
  let first ← expression r
  repeatTurn (fun (n, e) => do
    if ← testNext (.char ',') then
      discard (toNextRegister e)
      let e ← expression r
      return .again (n + 1, e)
    else return .done (n, e)) (1, first)

def parameters : M Unit := do
  let turn := fun (n : Nat) => show M (Turn Nat (Nat × Bool)) from do
    match ← currentToken with
    | .name _ =>
      let (name, number) ← takeDeclared
      discard (declare (some name) .regular (some number))
      return if ← testNext (.char ',') then .again (n + 1) else .done (n + 1, false)
    | .symbol .dots =>
      next
      return .done (n, true)
    | _ => syntaxError (utf8 "<name> or '...' expected")
  let (n, isVararg) ← if (← currentKind) = .char ')' then pure (0, false) else repeatTurn turn 0
  activate n
  let active ← ofFn (·.active)
  modifyFn fun f => { f with numParams := active }
  if isVararg then setVararg active
  reserve active

/-- The parameters and the block of a function, whose closure is the value. -/
def functionBody (r : Nested) (isMethod : Bool) (line : Nat) : M Exp := do
  startNested line
  checkNext (.char '(')
  if isMethod then
    declareHidden "self"
    activate 1
  parameters
  checkNext (.char ')')
  statements r
  let last ← currentLine
  modifyFn fun f => { f with lastLineDefined := last }
  checkMatch (.word .end_) (.word .function_) line
  let e ← emitClosure
  endNested
  return e

/-- A table constructor that is being read: the table's register, the last list item if it is still
open, and how many items there are of each sort. -/
structure Constructor where
  table : Nat
  item : Exp := .void
  records : Nat := 0
  stored : Nat := 0
  pending : Nat := 0

/-- How many list items may wait in registers, given the first free one: fewer if registers are
scarce. -/
def maxPending (freeReg : Nat) : Nat :=
  let free := maxRegisters - freeReg
  if 160 ≤ free then free / 5 else if 80 ≤ free then 10 else 1

/-- Stores pending list items after `stored` earlier ones; `none` stands for all up to the top. -/
def emitSetList (table stored : Nat) (count : Option Nat) : M Unit := do
  let count := count.getD 0
  let range := Instruction.maxVC + 1
  if stored ≤ Instruction.maxVC then discard (emit (.vabck .setList table count stored 0))
  else
    discard (emit (.vabck .setList table count (stored % range) 1))
    discard (emit (.ax .extraArg (stored / range)))
  setFreeReg (table + 1)

def ceilLog2 (n : Nat) : Nat := if n ≤ 1 then 0 else (n - 1).log2 + 1

/-- Fills in the sizes of the table that the instruction at `pc` makes. -/
def setTableSize (pc table list records : Nat) : M Unit := do
  let range := Instruction.maxVC + 1
  let extra := list / range
  let size := if records = 0 then 0 else ceilLog2 records + 1
  replaceAt pc (.vabck .newTable table size (list % range) (if 0 < extra then 1 else 0))
  replaceAt (pc + 1) (.ax .extraArg extra)

def checkItems (n : Nat) : M Unit := do
  let limit := (← get).maxItems
  if limit < n then limitError limit "items in a constructor"

/-- Puts the last list item into a register, and stores pending items if they are many. -/
def closeItem (c : Constructor) (limit : Nat) : M Constructor := do
  if c.item.isVoid then return c
  discard (toNextRegister c.item)
  if limit ≤ c.pending then
    emitSetList c.table c.stored (some c.pending)
    return { c with item := .void, stored := c.stored + c.pending, pending := 0 }
  else return { c with item := .void }

/-- Stores the pending items at the end; the result is how many items there are for certain. -/
def closeItems (c : Constructor) : M Nat := do
  if c.pending = 0 then return c.stored
  if c.item.isMulti then
    setReturns c.item none
    emitSetList c.table c.stored none
    return c.stored + c.pending - 1
  else
    if !c.item.isVoid then discard (toNextRegister c.item)
    emitSetList c.table c.stored (some c.pending)
    return c.stored + c.pending

def listItem (r : Nested) (c : Constructor) : M Constructor := do
  let item ← expression r
  let c := { c with item, pending := c.pending + 1 }
  checkItems (c.stored + c.pending)
  return c

def bracketed (r : Nested) : M Exp := do
  next
  let e ← expression r
  let e ← toValue e
  checkNext (.char ']')
  return e

def recordItem (r : Nested) (c : Constructor) : M Constructor := do
  let top ← freeReg
  let key ← match ← currentToken with
    | .name _ => pure (Exp.str (← takeName))
    | _ => bracketed r
  let c := { c with records := c.records + 1 }
  checkItems c.records
  checkNext (.char '=')
  let target ← index (.inReg c.table) key
  let value ← expression r
  storeTo target value
  setFreeReg top
  return c

def constructorItem (r : Nested) (c : Constructor) : M Constructor := do
  match ← currentKind with
  | .name =>
    if (← lookahead) = .char '=' then recordItem r c else listItem r c
  | k => if k = .char '[' then recordItem r c else listItem r c

def constructor (r : Nested) : M Exp := do
  let line ← currentLine
  let pc ← emit (.vabck .newTable 0 0 0 0)
  discard (emit (.abck .move 0 0 0 0))
  let table ← freeReg
  reserve 1
  checkNext (.byte 123)
  let limit := maxPending (← freeReg)
  let c ← repeatTurn (fun (c : Constructor) => do
    if (← currentKind) = .byte 125 then return .done c
    let c ← closeItem c limit
    let c ← constructorItem r c
    if ← testNext (.char ',') then return .again c
    else if ← testNext (.char ';') then return .again c
    else return .done c) { table }
  checkMatch (.byte 125) (.byte 123) line
  let list ← closeItems c
  setTableSize pc table list c.records
  return .inReg table

def fieldOf (e : Exp) : M Exp := do
  let table ← toRegisterOrUpvalue e
  next
  let e ← index table (.str (← takeName))
  noteTarget none
  return e

def callArguments (r : Nested) (base line : Nat) : M Exp := do
  let args ← match ← currentToken with
    | .string s _ =>
      next
      pure (Exp.str s)
    | t =>
      if t.kind = .char '(' then
        next
        let args ← if (← currentKind) = .char ')' then pure Exp.void
          else do
            let (_, e) ← expressionList r
            if e.isMulti then setReturns e none
            pure e
        checkMatch (.char ')') (.char '(') line
        pure args
      else if t.kind = .byte 123 then constructor r
      else syntaxError (utf8 "function arguments expected")
  let operand ←
    if args.isMulti then pure 0
    else do
      if !args.isVoid then discard (toNextRegister args)
      pure ((← freeReg) - base)
  let pc ← emitABC .call base operand 2
  fixLine line
  setFreeReg (base + 1)
  noteTarget none
  return ⟨.call pc, none, none⟩

def primary (r : Nested) : M Exp := do
  match ← currentToken with
  | .name _ => takeVariable
  | t =>
    if t.kind = .char '(' then
      let line ← currentLine
      next
      let e ← expression r
      checkMatch (.char ')') (.char '(') line
      let e ← dischargeVars e
      noteTarget none
      return e
    else syntaxError (utf8 "unexpected symbol")

def suffixed (r : Nested) : M Exp := do
  let line ← currentLine
  let first ← primary r
  repeatTurn (fun (e : Exp) => do
    let k ← currentKind
    if k = .char '.' then return .again (← fieldOf e)
    else if k = .char '[' then
      let table ← toRegisterOrUpvalue e
      let key ← bracketed r
      let e ← index table key
      noteTarget none
      return .again e
    else if k = .char ':' then
      next
      let name ← takeName
      let base ← emitSelf e name
      return .again (← callArguments r base line)
    else if k = .char '(' || k = .string || k = .byte 123 then
      let base ← toNextRegister e
      return .again (← callArguments r base line)
    else return .done e) first

def simpleExpression (r : Nested) : M Exp := do
  let literal := fun (kind : ExpKind) => do
    next
    return Exp.mk kind none none
  match ← currentToken with
  | .float x _ => literal (.float x)
  | .integer n _ => literal (.int n)
  | .string s _ => literal (.str s)
  | .word .nil_ => literal .nil
  | .word .true_ => literal .true_
  | .word .false_ => literal .false_
  | .symbol .dots =>
    if !(← ofFn (·.isVararg)) then
      syntaxError (utf8 "cannot use '...' outside a vararg function")
    let pc ← emitABC .vararg 0 0 1
    literal (.vararg pc)
  | .word .function_ =>
    next
    functionBody r false (← currentLine)
  | t => if t.kind = .byte 123 then constructor r else suffixed r

def unaryOp? (k : TokenKind) : Option UnaryOp :=
  if k = .word .not_ then some .not
  else if k = .char '-' then some .minus
  else if k = .char '~' then some .bnot
  else if k = .char '#' then some .len
  else none

def binaryOp? : TokenKind → Option BinaryOp
  | .symbol .idiv => some (.arith .idiv)
  | .symbol .shl => some (.arith .shl)
  | .symbol .shr => some (.arith .shr)
  | .symbol .concat => some .concat
  | .symbol .ne => some .ne
  | .symbol .eq => some .eq
  | .symbol .le => some .le
  | .symbol .ge => some .ge
  | .word .and_ => some .and
  | .word .or_ => some .or
  | k =>
    if k = .char '+' then some (.arith .add)
    else if k = .char '-' then some (.arith .sub)
    else if k = .char '*' then some (.arith .mul)
    else if k = .char '%' then some (.arith .mod)
    else if k = .char '^' then some (.arith .pow)
    else if k = .char '/' then some (.arith .div)
    else if k = .char '&' then some (.arith .band)
    else if k = .char '|' then some (.arith .bor)
    else if k = .char '~' then some (.arith .bxor)
    else if k = .char '<' then some .lt
    else if k = .char '>' then some .gt
    else none

def unaryExp (op : UnaryOp) (e : Exp) (line : Nat) : M Exp := do
  let e ← applyUnary op e line
  noteTarget none
  return e

def binaryExp (op : BinaryOp) (e₁ e₂ : Exp) (line : Nat) : M Exp := do
  let e ← applyBinary op e₁ e₂ line
  noteTarget none
  return e

/-- An expression whose binary operators bind tighter than `limit`, and the operator after it. -/
def subExpression (r : Nested) (limit : Nat) : M (Exp × Option BinaryOp) := do
  let e ← match unaryOp? (← currentKind) with
    | some op =>
      let line ← currentLine
      next
      let (e, _) ← r.subExpr unaryPriority
      unaryExp op e line
    | none => simpleExpression r
  let op := binaryOp? (← currentKind)
  repeatTurn (fun (e, op?) => do
    match op? with
    | none => return .done (e, none)
    | some op =>
      if op.priority.1 ≤ limit then return .done (e, some op)
      let line ← currentLine
      next
      let left ← prepareLeft op e
      let (right, after) ← r.subExpr op.priority.2
      return .again (← binaryExp op left right line, after)) (e, op)

end LuaChunk.Compile
