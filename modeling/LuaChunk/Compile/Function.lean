import LuaChunk.Compile.JumpList
import LuaChunk.Compile.Goto

/-!
Starting and ending functions. A nested function is numbered when it is started and becomes part of
the enclosing one when it is ended; in between, the enclosing function waits.
-/

set_option autoImplicit false

namespace LuaChunk.Compile

open LuaChunk

/-- A new function whose declarations and labels start after those there are. -/
def Builder.start (id line firstVar firstLabel : Nat) : Builder :=
  { id, lineDefined := line, lines := { previous := line }, firstVar, firstLabel }

/-- The function as it is when its construction is over. -/
def Builder.prototype (f : Builder) (source : Bytes) : Prototype where
  source := source
  lineDefined := f.lineDefined
  lastLineDefined := f.lastLineDefined
  numParams := f.numParams
  flag := if f.isVararg then flagVararg else 0
  maxStackSize := f.maxStack
  code := f.code
  constants := f.pool.values
  nested := f.nested.toList
  upvalues := f.upvalues
  lineInfo := f.lines.info
  absLines := f.lines.absolute
  locals := f.locals.map Span.entry

/-- Opens the function under construction: its chunk's name is stored and its outermost block
entered. -/
def openFunction : M Unit := do
  let source := (← get).lexer.source
  stored (.source · source)
  enterBlock .none

def startNested (line : Nat) : M Unit := do
  let limit := Instruction.maxBx
  if limit ≤ (← ofFn (·.nested.size)) then limitError limit "functions"
  let id := (← get).nextId
  stored (.nested · id)
  modify fun s => { s with
    nextId := id + 1
    fn := .start id line s.vars.size s.labels.size
    outer := s.fn :: s.outer }
  openFunction

def closeFunction : M Unit := do
  emitReturn (← activeRegisters) (some 0)
  discard leaveBlock
  modify fun s => { s with
    closings := s.closings.push ⟨s.fn.code, s.fn.aims, s.fn.locals, s.fn.scopes, s.fn.meant⟩ }
  let marks ← ofFn fun f => ReturnMarks.mk f.needClose f.isVararg f.numParams
  noteFits (Instruction.Field.c.fits (marks.numParams + 1))
  onCode fun code => (JumpList.finish marks code).map (·, ())

/-- The function under construction becomes part of the enclosing one. -/
def attach : M Unit := do
  let s ← get
  match s.outer with
  | [] => broken .indexInRange
  | b :: rest =>
    let p := s.fn.prototype s.lexer.source
    set { s with fn := { b with nested := b.nested.push p }, outer := rest }

def endNested : M Unit := do
  closeFunction
  attach

def setVararg (numParams : Nat) : M Unit := do
  modifyFn fun f => { f with isVararg := true }
  discard (emitABC .varargPrep numParams 0 0)

/-- Emits the closure of the function under construction in the enclosing one. -/
def emitClosure : M Exp := inEnclosing do
  let pc ← emitABx .closure 0 (← ofFn (·.nested.size))
  return .inReg (← toNextRegister (.relocatable pc))

end LuaChunk.Compile
