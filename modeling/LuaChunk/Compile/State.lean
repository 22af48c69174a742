import LuaChunk.Source.Lexer
import LuaChunk.Compile.LineTable
import LuaChunk.Compile.ConstantPool
import LuaChunk.Compile.JumpList

/-!
The state of a compilation. A chunk is compiled in one pass: the parser calls the code generator as
it goes, and no tree is built. The state holds the token stream, the function under construction
with those that enclose it, and the variables, labels and gotos in scope.
-/

set_option autoImplicit false

namespace LuaChunk.Compile

open LuaChunk

/-- What a declaration declares. -/
inductive VarKind where
  | regular
  | const
  | toClose
  | compileTime
  | global
  | constGlobal
  deriving DecidableEq, Repr

namespace VarKind

/-- The number by which upvalues keep the kind of their variable. -/
def number (k : VarKind) : UInt8 := k.ctorIdx.toUInt8

def inRegister : VarKind → Bool
  | .regular | .const | .toClose => true
  | _ => false

def isGlobal : VarKind → Bool
  | .global | .constGlobal => true
  | _ => false

end VarKind

/-- A declaration in scope. Without a name it declares all globals. -/
structure Variable where
  kind : VarKind
  name : Option Bytes
  reg : Nat := 0
  /-- the variable's place among the function's locals -/
  debug : Nat := 0
  value : Value := .nil
  /-- the number of the token that declares a local variable -/
  declaredAt : Option Nat := none
  control : Bool := false

/-- A label, or a goto that waits for its label. -/
structure Label where
  name : Bytes
  pc : Nat
  line : Nat
  level : Nat
  /-- whether the goto leaves the scope of a captured variable -/
  close : Bool := false

/-- Whether a block is the body of a loop, and whether a break waits for its end. -/
inductive Loop where
  | none
  | plain
  | broken
  deriving DecidableEq, Repr

/-- A block that is open. -/
structure Block where
  firstLabel : Nat
  firstGoto : Nat
  level : Nat
  loop : Loop
  captured : Bool := false
  /-- whether a variable that is to be closed is in scope -/
  insideToClose : Bool

/-- A local variable of a function under construction: how it was declared, and the instructions
that it is shown for. -/
structure Span where
  name : Option Bytes
  kind : VarKind
  reg : Nat
  before : Nat
  start : Nat
  stop : Option Nat

def Span.entry (x : Span) : LocalVar := ⟨x.name, x.start, x.stop.getD 0⟩

/-- A function under construction. -/
structure Builder where
  id : Nat
  lineDefined : Nat
  lastLineDefined : Nat := 0
  numParams : Nat := 0
  isVararg : Bool := false
  maxStack : Nat := 2
  code : Array Instruction := #[]
  /-- the jumps that have been sent to a destination, with it -/
  aims : List (Nat × Nat) := []
  /-- the lists of jumps that are held, by their first jumps: made, and neither sent to a
  destination nor put behind another list -/
  openLists : Nat → Prop := fun _ => False
  lines : LineTable
  pool : ConstantPool := {}
  upvalues : Array Upvalue := #[]
  /-- the local variables so far, in the order of their declarations -/
  locals : Array Span := #[]
  /-- the registers and names of the local variables that were in scope at each instruction -/
  scopes : Array (List (Nat × Option Bytes)) := #[]
  nested : Array Prototype := #[]
  /-- the constants that each instruction was emitted for, in the order of its operands -/
  meant : Array (List Value) := #[]
  blocks : List Block := []
  lastTarget : Nat := 0
  /-- where the function's declarations and labels start -/
  firstVar : Nat
  firstLabel : Nat
  active : Nat := 0
  freeReg : Nat := 0
  needClose : Bool := false

/-- An object stored into a function: its chunk's name, a function nested in it, or a text. -/
inductive Store where
  | source (owner : Nat) (name : Bytes)
  | nested (owner child : Nat)
  | text (owner : Nat) (s : Bytes)

/-- The code of a function as it was before the final pass, the destinations of its jumps, and what
was recorded of its local variables and constants. -/
structure Closing where
  code : Array Instruction
  aims : List (Nat × Nat)
  locals : Array Span
  scopes : Array (List (Nat × Option Bytes))
  meant : Array (List Value)

/-- An assignment or a function statement, as far as it may be refused. -/
structure Write where
  name : Option Bytes
  declaration : Option Variable
  refused : Option Bytes

/-- A function at a moment when lists of jumps are used or a block starts: the lists that are held,
the jumps of the gotos that wait, and the lists that are used. -/
structure Moment where
  code : Array Instruction
  aims : List (Nat × Nat)
  held : Nat → Prop
  gotos : List Nat
  used : List (Option Nat)

/-- What stands for a float constant: an entry of the pool, the instruction that loads it, or the
value of a declaration. -/
inductive Keeper where
  | entry (v : Option Value)
  | load (i : Instruction)
  | declaration (v : Value)

/-- A float constant, and what stands for it. -/
structure FloatUse where
  value : Double
  keeper : Keeper

structure State where
  lexer : Lexer
  fn : Builder
  outer : List Builder := []
  vars : Array Variable := #[]
  labels : Array Label := #[]
  gotos : Array Label := #[]
  stores : Array Store := #[]
  closings : Array Closing := #[]
  moments : Moment → Prop := fun _ => False
  floats : Array FloatUse := #[]
  spilled : Bool := false
  /-- whether a table was loaded between a comparison and the value of its outcome -/
  lateLoad : Bool := false
  /-- whether a name was taken for anything but its innermost declaration -/
  strayed : Bool := false
  /-- the variable that was read last with all that follows it, where nothing follows its name -/
  target : Option Bytes := none
  /-- the assignments and function statements so far, in order -/
  writes : Array Write := #[]
  /-- how deep the syntactic structures are nested, and how deep they have been -/
  depth : Nat := 0
  deepest : Nat := 0
  nextId : Nat := 1
  /-- how many items of each sort a table constructor may have -/
  maxItems : Int
  bound : Nat

abbrev M := EStateM Failure State

def broken {α : Type} (a : Assertion) : M α := throw (.broken a)

def fail {α : Type} (kind : ErrorKind) (message near : Bytes) : M α := do
  let l := (← get).lexer
  throw (.error ⟨kind, l.source, l.line, message, near⟩)

def currentNear : M Bytes := return (← get).lexer.token.near

def syntaxError {α : Type} (message : Bytes) : M α := do fail .syntactic message (← currentNear)

def semanticError {α : Type} (message : Bytes) : M α := fail .semantic message []

def limitError {α : Type} (limit : Int) (what : String) : M α := do
  let line := (← get).fn.lineDefined
  let place := if line = 0 then utf8 "main function" else utf8 "function at line " ++
    Bytes.ofNat line
  fail .limit (utf8 "too many " ++ utf8 what ++ utf8 " (limit is " ++ Bytes.ofInt limit
    ++ utf8 ") in " ++ place) (← currentNear)

@[inline] def ofFn {α : Type} (f : Builder → α) : M α := modifyGet fun s => (f s.fn, s)

@[inline] def modifyFn (f : Builder → Builder) : M Unit := modify fun s => { s with fn := f s.fn }

@[inline] def State.backIn (s : State) (fn : Builder) : State :=
  { s with fn, outer := s.fn :: s.outer }

@[inline] def inState {α : Type} (f : State → State) : EStateM.Result Failure State α →
    EStateM.Result Failure State α
  | .ok a s => .ok a (f s)
  | .error e s => .error e (f s)

/-- Runs an action on the enclosing function. If it fails, the function itself is still under
construction. -/
def inEnclosing {α : Type} (act : M α) : M α := fun s =>
  match s.outer with
  | [] => .error (.broken .indexInRange) s
  | b :: rest =>
    let fn := s.fn
    inState (·.backIn fn) (act { s with fn := b, outer := rest })

theorem inEnclosing_nil {α : Type} {act : M α} {s : State} (h : s.outer = []) :
    inEnclosing act s = .error (.broken .indexInRange) s := by
  unfold inEnclosing
  rw [h]

theorem inEnclosing_cons {α : Type} {act : M α} {s : State} {b : Builder} {rest : List Builder}
    (h : s.outer = b :: rest) :
    inEnclosing act s = inState (·.backIn s.fn) (act { s with fn := b, outer := rest }) := by
  unfold inEnclosing
  rw [h]

/-- The jumps of the gotos of the function that wait for their labels. -/
def State.gotoJumps (s : State) : List Nat :=
  (s.gotos.toList.drop ((s.fn.blocks.getLast?.map (·.firstGoto)).getD 0)).map (·.pc)

def State.moment (s : State) (used : List (Option Nat)) : Moment :=
  ⟨s.fn.code, s.fn.aims, s.fn.openLists, s.gotoJumps, used⟩

def noteLists (used : List (Option Nat)) : M Unit :=
  modify fun s => { s with moments := fun m => s.moments m ∨ m = s.moment used }

def stored (event : Nat → Store) : M Unit :=
  modify fun s => { s with stores := s.stores.push (event s.fn.id) }

def here : M Nat := ofFn (·.code.size)

@[inline] def onLexer {α : Type} (act : Lexer.M α) : M α := fun s =>
  let l := s.lexer
  let s := { s with lexer := { input := [], numberOf := fun _ => 0, source := [] } }
  match act l with
  | .ok a l => .ok a { s with lexer := l }
  | .error e l => .error e { s with lexer := l }

def next : M Unit := onLexer Lexer.next

/-- Passes a name, given the number of the token that declares what it stands for. -/
def nextName (declaration : Option Nat) : M Unit := onLexer (Lexer.nextName declaration)

def lookahead : M TokenKind := onLexer Lexer.lookahead

def currentToken : M Token := return (← get).lexer.token

def currentKind : M TokenKind := return (← get).lexer.token.kind

def currentLine : M Nat := return (← get).lexer.line

def intern (s : Bytes) : M Unit :=
  onLexer (Lexer.note s)

/-- The outcome of one turn of a loop. -/
inductive Turn (α β : Type) where
  | again (a : α)
  | done (b : β)

def tokensTaken : M Nat := return (← get).lexer.taken

/-- Fails unless a token has been passed since there were `taken` of them. -/
def checkAdvance (taken : Nat) : M Unit := do
  unless taken < (← get).lexer.taken do
    broken .advancingLoop

/-- Repeats a turn, at most as often as the first argument says. Each time it goes on it has passed
a token. -/
@[specialize] def iterate {α β : Type} (turn : α → M (Turn α β)) : Nat → α → M β
  | 0, _ => broken .boundedLoop
  | n + 1, a => do
    let taken ← tokensTaken
    match ← turn a with
    | .again a => do
      checkAdvance taken
      iterate turn n a
    | .done b => pure b

theorem tokensTaken_eq (s : State) : tokensTaken s = .ok s.lexer.taken s := rfl

theorem checkAdvance_of_lt {taken : Nat} {s : State} (h : taken < s.lexer.taken) :
    checkAdvance taken s = .ok () s := by
  show (if taken < s.lexer.taken then pure () else broken .advancingLoop : M Unit) s = _
  rw [if_pos h]
  rfl

theorem checkAdvance_of_not_lt {taken : Nat} {s : State} (h : ¬taken < s.lexer.taken) :
    checkAdvance taken s = .error (.broken .advancingLoop) s := by
  show (if taken < s.lexer.taken then pure () else broken .advancingLoop : M Unit) s = _
  rw [if_neg h]
  rfl

theorem ok_of_checkAdvance {taken : Nat} {s t : State} {u : Unit}
    (h : checkAdvance taken s = .ok u t) : taken < s.lexer.taken ∧ t = s := by
  by_cases hlt : taken < s.lexer.taken
  · rw [checkAdvance_of_lt hlt] at h
    cases h
    exact ⟨hlt, rfl⟩
  · rw [checkAdvance_of_not_lt hlt] at h
    cases h

@[inline] def repeatTurn {α β : Type} (turn : α → M (Turn α β)) (a : α) : M β := do
  iterate turn (← get).bound a

end LuaChunk.Compile
