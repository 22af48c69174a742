import LuaChunk.Compile.Statement

set_option autoImplicit false

namespace LuaChunk

namespace Compile

/-- How deep expressions and statements may be nested. -/
def maxNesting : Nat := 199

def tooDeep {α : Type} : M α := do fail .limit (utf8 "C stack overflow") (← currentNear)

def State.atLevel (s : State) (depth deepest : Nat) : State := { s with depth, deepest }

def State.deeper (s : State) : State := s.atLevel (s.depth + 1) (max s.deepest (s.depth + 1))

def enterLevel : M Unit := modify (·.deeper)

def leaveLevel : M Unit := modify fun s => s.atLevel (s.depth - 1) s.deepest

@[inline] def metered {α : Type} (act : M α) : M α := do
  enterLevel
  let a ← act
  leaveLevel
  return a

/-- The parsers with a number of levels left. -/
def nested : (levels : Nat) → Nested
  | 0 => ⟨fun _ => tooDeep, tooDeep, fun _ _ => tooDeep, fun _ _ _ => tooDeep⟩
  | n + 1 =>
    let r := nested n
    ⟨fun limit => metered (subExpression r limit), metered (statement r),
      fun target earlier => metered (assignRest r target earlier),
      fun count line names => metered (initGlobals r count line names)⟩

def mainFunction : M Unit := do
  intern envName
  intern breakName
  openFunction
  setVararg 0
  discard (addUpvalue ⟨some envName, true, 0, VarKind.regular.number⟩)
  next
  statements (nested maxNesting)
  check .eos
  closeFunction

/-- What a compilation needs besides the source. -/
structure Options where
  chunk : Bytes
  interner : Interner := .empty
  /-- how many items of each sort a table constructor may have -/
  maxItems : Int := 1073741823
  /-- what happens at the end of the source, if it does not just end -/
  failure : Option Bytes := none

def initial (o : Options) (source : Bytes) : State where
  lexer := .start source o.chunk o.interner o.failure
  fn := .start 0 0 0 0
  maxItems := o.maxItems
  bound := source.length + 2

/-- What a compilation leaves: the function or the failure, the names and strings known after it,
the objects that were stored, and what was recorded of the code. -/
structure Outcome where
  result : Except Failure Prototype
  interner : Interner
  /-- the texts that were recorded, in order, besides the reserved words -/
  noted : Array Bytes
  stores : Array Store
  /-- the float constants that were placed, in order, each with what stands for it -/
  floats : Array FloatUse
  closings : Array Closing
  moments : Moment → Prop
  spilled : Bool
  /-- whether a table was loaded between a comparison and the value of its outcome -/
  lateLoad : Bool
  /-- whether a name was taken for anything but its innermost declaration -/
  strayed : Bool
  /-- the assignments and function statements that were reached, in order -/
  writes : Array Write
  /-- how deep the syntactic structures are nested at the end, and how deep they have been -/
  depth : Nat
  deepest : Nat
  /-- the names by the numbers of their tokens, each with the number of the token that declares the
  local variable it stands for, if it stands for one -/
  bindings : Array (Nat × Option Nat)

def run (o : Options) (source : Bytes) : Outcome :=
  let outcome := fun (result : Except Failure Prototype) (s : State) =>
    { result, interner := s.lexer.internAll o.interner, noted := s.lexer.noted, stores := s.stores,
      floats := s.floats, closings := s.closings, moments := s.moments, spilled := s.spilled,
      lateLoad := s.lateLoad, strayed := s.strayed, writes := s.writes, depth := s.depth,
      deepest := s.deepest,
      bindings := s.lexer.bindings : Outcome }
  match mainFunction (initial o source) with
  | .ok _ s => outcome (.ok (s.fn.prototype s.lexer.source)) s
  | .error e s => outcome (.error e) s

end Compile

def compile (chunk source : Bytes) : Except Failure Prototype :=
  (Compile.run { chunk } source).result

end LuaChunk
