import LuaChunk.Compile.Scope

/-!
Blocks, labels and gotos. A goto waits until a block that encloses it ends with a label of its
name; a break is a goto to a label at the end of its loop. A goto into the scope of a variable is
refused, and one that leaves the scope of a captured variable closes it on the way.
-/

set_option autoImplicit false

namespace LuaChunk.Compile

open LuaChunk

def breakName : Bytes := utf8 "break"

def findLabel? (labels : Array Label) (start : Nat) (name : Bytes) : Option Label :=
  (labels.extract start labels.size).find? fun l => l.name == name

/-- Emits the jump of a goto, and an instruction after it that is never reached: it leaves room to
close variables. -/
def addGoto (name : Bytes) (line : Nat) : M Unit := do
  let pc ← jump
  discard (emitABC .close 0 1 0)
  modify fun s => { s with gotos := s.gotos.push ⟨name, pc, line, s.fn.active, false⟩ }

def currentBlock : M Block := do
  match ← ofFn (·.blocks) with
  | b :: _ => pure b
  | [] => broken .indexInRange

/-- Adds a label here. For a label at the end of a block the block's variables count as out of
scope. -/
def addLabel (name : Bytes) (line : Nat) (isLast : Bool) : M Unit := do
  let pc ← markTarget
  let level ←
    if isLast then pure (← currentBlock).level else ofFn (·.active)
  modify fun s => { s with labels := s.labels.push ⟨name, pc, line, level, false⟩ }

def jumpIntoScope {α : Type} (g : Label) : M α := do
  let v ← ownVariable g.level
  semanticError (utf8 "<goto " ++ g.name ++ utf8 "> at line " ++ Bytes.ofNat g.line
    ++ utf8 " jumps into the scope of local '" ++ v.name.getD (utf8 "*") ++ utf8 "'")

/-- Makes a jump close variables on its way. It uses the room after it, where its list goes on. -/
def spliceClose (pc level : Nat) : M Unit := do
  let i ← instructionAt pc
  modifyAt (pc + 1) fun _ => i
  replaceAt pc (.abck .close level 0 0 0)
  giveUp (some pc)
  hold (pc + 1)

/-- Sends a goto to its label. `captured` says that the label's block has captured variables. -/
def resolveGoto (g label : Label) (captured : Bool) : M Unit := do
  noteLists [some g.pc]
  if g.level < label.level then jumpIntoScope g
  if g.close || (label.level < g.level && captured) then
    let level ← registerLevel label.level
    spliceClose g.pc level
    patchList (some (g.pc + 1)) label.pc
  else patchList (some g.pc) label.pc

/-- A goto that leaves a block: it has only the variables outside of the block left. -/
def leaving (b : Block) (g : Label) (outside inside : Nat) : Label :=
  { g with close := g.close || (b.captured && outside < inside), level := b.level }

/-- Resolves the gotos that wait in a block against the block's labels; the result is what still
waits. -/
def resolveGotos (b : Block) : List Label → M (List Label)
  | [] => return []
  | g :: rest => do
    match findLabel? (← get).labels b.firstLabel g.name with
    | some label =>
      resolveGoto g label b.captured
      resolveGotos b rest
    | none =>
      let g := leaving b g (← registerLevel b.level) (← registerLevel g.level)
      return g :: (← resolveGotos b rest)

/-- Resolves what can be resolved at the end of a block, and forgets the block's labels. -/
def solveGotos (b : Block) : M Unit := do
  let waiting ← modifyGet fun s => ((s.gotos.extract b.firstGoto s.gotos.size).toList, s)
  modify fun s => { s with gotos := s.gotos.shrink b.firstGoto }
  let left ← resolveGotos b waiting
  modify fun s => { s with gotos := s.gotos ++ left.toArray }
  if (← get).labels.size < b.firstLabel then broken .indexInRange
  modify fun s => { s with labels := s.labels.shrink b.firstLabel }

def enterBlock (loop : Loop) : M Unit := do
  let s ← get
  let insideToClose := match s.fn.blocks with
    | b :: _ => b.insideToClose
    | [] => false
  let b : Block := { firstLabel := s.labels.size, firstGoto := s.gotos.size, level := s.fn.active,
                     loop, insideToClose }
  modifyFn fun f => { f with blocks := b :: f.blocks }
  if (← freeReg) ≠ (← activeRegisters) then broken .blockWithoutTemporaries

def noLabel {α : Type} (g : Label) : M α :=
  semanticError (utf8 "no visible label '" ++ g.name ++ utf8 "' for <goto> at line "
    ++ Bytes.ofNat g.line)

def leaveBlock : M Block := do
  match (← get).fn.blocks with
  | [] => broken .indexInRange
  | b :: rest =>
    let level ← registerLevel b.level
    if !rest.isEmpty && b.captured then discard (emitABC .close level 0 0)
    setFreeReg level
    if b.loop = .broken then addLabel breakName 0 true
    solveGotos b
    removeVariables b.level
    if rest.isEmpty then
      match (← get).gotos[b.firstGoto]? with
      | some g => noLabel g
      | none => pure ()
    modifyFn fun f => { f with blocks := rest }
    return b

/-- Marks the innermost loop as one with a break; false if there is no loop. -/
def markBroken : M Bool := do
  match modifyFirst? (·.loop != .none) (fun b => { b with loop := .broken }) (← ofFn (·.blocks))
    with
  | some blocks =>
    modifyFn fun f => { f with blocks }
    return true
  | none => return false

end LuaChunk.Compile
