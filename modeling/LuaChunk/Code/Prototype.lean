import LuaChunk.Code.Instruction
import LuaChunk.Value

/-!
Compiled functions. A prototype holds the code of one function, its constants, where its closures
find their upvalues, the functions nested in it, and the debug information: lines, the names of
locals and upvalues, and the name of the chunk.

Lines are stored as differences from one instruction to the next; an entry equal to `lineMarker`
refers to the list of absolute lines instead.
-/

set_option autoImplicit false

namespace LuaChunk

/-- Where a new closure finds one of its upvalues: in a register of the enclosing function or among
its upvalues. -/
structure Upvalue where
  name : Option Bytes
  inStack : Bool
  index : Int
  kind : UInt8
  deriving DecidableEq

/-- A local variable's name and the instructions over which it is active: from `startPc` on, up to
but not including `endPc`. -/
structure LocalVar where
  name : Option Bytes
  startPc : Int
  endPc : Int
  deriving DecidableEq

/-- The line of one instruction. -/
structure AbsLine where
  pc : Int
  line : Int
  deriving DecidableEq, Repr

structure Prototype where
  source : Bytes := []
  lineDefined : Int := 0
  lastLineDefined : Int := 0
  numParams : Int := 0
  flag : UInt8 := 0
  maxStackSize : Int := 0
  code : Array Instruction := #[]
  constants : Array Value := #[]
  nested : List Prototype := []
  upvalues : Array Upvalue := #[]
  lineInfo : Array Int8 := #[]
  absLines : Array AbsLine := #[]
  locals : Array LocalVar := #[]

instance : Inhabited Prototype := ⟨{}⟩

/-- The entry that says that an instruction's line is in the list of absolute lines. -/
def lineMarker : Int8 := -128

def flagVararg : UInt8 := 1

namespace Prototype

def isVararg (p : Prototype) : Bool := p.flag &&& flagVararg != 0

/-- The absolute line to count from: the last one at or before `pc`, or the line of the function. -/
def lineBase (p : Prototype) (pc : Nat) : AbsLine :=
  match p.absLines[0]? with
  | none => ⟨-1, p.lineDefined⟩
  | some first =>
    if (pc : Int) < first.pc then ⟨-1, p.lineDefined⟩
    else
      let rec last : AbsLine → List AbsLine → AbsLine
        | best, [] => best
        | best, next :: rest => if next.pc ≤ pc then last next rest else best
      last first (p.absLines.toList.drop 1)

/-- Adds up `count` differences from index `from_` on; none where the table ends. -/
def sumLines (info : Array Int8) : (count : Nat) → (start : Int) → (line : Int) → Option Int
  | 0, _, line => some line
  | count + 1, start, line =>
    if start < 0 then none
    else match info[start.toNat]? with
      | none => none
      | some d => sumLines info count (start + 1) (if d = lineMarker then line else line + d.toInt)

/-- The source line of instruction `pc`, −1 without line information, none if the line tables do
not reach it. -/
def line? (p : Prototype) (pc : Nat) : Option Int :=
  if p.lineInfo.isEmpty then some (-1)
  else
    let base := p.lineBase pc
    sumLines p.lineInfo ((pc : Int) - base.pc).toNat (base.pc + 1) base.line

def activeLocals (p : Prototype) (pc : Nat) : List LocalVar :=
  (p.locals.toList.takeWhile fun v => decide (v.startPc ≤ (pc : Int))).filter fun v =>
    decide ((pc : Int) < v.endPc)

def local? (p : Prototype) (n pc : Nat) : Option LocalVar :=
  match n with
  | 0 => none
  | n + 1 => (p.activeLocals pc)[n]?

mutual

/-- The function and all functions nested in it, each before those nested in it. -/
def walk : Prototype → List Prototype
  | p@{ nested, .. } => p :: walkAll nested

def walkAll : List Prototype → List Prototype
  | [] => []
  | p :: rest => walk p ++ walkAll rest

end

theorem mem_walkAll {q : Prototype} {ps : List Prototype} : q ∈ walkAll ps ↔
    ∃ p ∈ ps, q ∈ p.walk := by
  induction ps with
  | nil => simp [walkAll]
  | cons p rest ih => simp [walkAll, ih]

theorem mem_walk {p q : Prototype} : q ∈ p.walk ↔ q = p ∨ ∃ p' ∈ p.nested, q ∈ p'.walk := by
  cases p
  rw [walk, List.mem_cons, mem_walkAll]

mutual

/-- Removes the debug information of the function and of all functions nested in it. -/
def strip : Prototype → Prototype
  | { lineDefined, lastLineDefined, numParams, flag, maxStackSize, code, constants, nested,
      upvalues, .. } =>
    { source := utf8 "=?"
      lineDefined, lastLineDefined, numParams, flag, maxStackSize, code, constants
      nested := stripAll nested
      upvalues := upvalues.map fun u => { u with name := none } }

def stripAll : List Prototype → List Prototype
  | [] => []
  | p :: rest => strip p :: stripAll rest

end

end Prototype

instance decEqExcept {ε α : Type} [DecidableEq ε] [DecidableEq α] : DecidableEq (Except ε α)
  | .ok a, .ok b => decidable_of_iff (a = b) (by rw [Except.ok.injEq])
  | .error a, .error b => decidable_of_iff (a = b) (by rw [Except.error.injEq])
  | .ok _, .error _ => .isFalse nofun
  | .error _, .ok _ => .isFalse nofun

namespace Prototype

mutual

def decEq : (p q : Prototype) → Decidable (p = q)
  | ⟨source, line, last, params, flag, stack, code, ks, nested, ups, info, abs, locals⟩,
    ⟨source', line', last', params', flag', stack', code', ks', nested', ups', info', abs',
      locals'⟩ =>
    have := decEqAll nested nested'
    decidable_of_iff (source = source' ∧ line = line' ∧ last = last' ∧ params = params' ∧
      flag = flag' ∧
      stack = stack' ∧ code = code' ∧ ks = ks' ∧ nested = nested' ∧ ups = ups' ∧ info = info' ∧
        abs = abs' ∧
      locals = locals') (by rw [Prototype.mk.injEq])

def decEqAll : (ps qs : List Prototype) → Decidable (ps = qs)
  | [], [] => .isTrue rfl
  | p :: ps, q :: qs =>
    have := decEq p q
    have := decEqAll ps qs
    decidable_of_iff (p = q ∧ ps = qs) (by rw [List.cons.injEq])
  | [], _ :: _ => .isFalse nofun
  | _ :: _, [] => .isFalse nofun

end

instance : DecidableEq Prototype := decEq

end Prototype

end LuaChunk
