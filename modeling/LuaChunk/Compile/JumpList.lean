import LuaChunk.Code.Instruction

/-!
Lists of pending jumps. The members of a list are threaded through their own operands: each jump
holds the distance to the next member, and the last one holds the distance −1. A list is named by
the position of its first jump, and the empty list is `none`.

A jump is controlled by the test right before it, if there is one. A test that would store a value
stores it where the list is patched, or is made a plain test.
-/

set_option autoImplicit false

namespace LuaChunk.JumpList

open LuaChunk

abbrev Code := Array Instruction

/-- Why a list cannot be followed or patched. -/
inductive Fault where
  | outOfRange
  | tooLong
  deriving DecidableEq, Repr

def endOfList : Int := -1

def next (code : Code) (pc : Nat) : Except Fault (Option Nat) :=
  match code[pc]? with
  | none => .error .outOfRange
  | some i =>
    if i.sj = endOfList then .ok none
    else
      let target := (pc : Int) + 1 + i.sj
      if target < 0 then .error .outOfRange else .ok (some target.toNat)

def fix (code : Code) (pc dest : Nat) : Except Fault Code :=
  let offset := (dest : Int) - (pc + 1)
  if -Instruction.offsetSJ ≤ offset && offset ≤ Instruction.maxSJ - Instruction.offsetSJ then
    if pc < code.size then .ok (code.modify pc (·.setSJ offset)) else .error .outOfRange
  else .error .tooLong

def last (code : Code) : (fuel : Nat) → (pc : Nat) → Except Fault Nat
  | 0, _ => .error .outOfRange
  | fuel + 1, pc =>
    match next code pc with
    | .error f => .error f
    | .ok none => .ok pc
    | .ok (some pc) => last code fuel pc

def append (code : Code) (first second : Option Nat) : Except Fault (Code × Option Nat) :=
  match first, second with
  | _, none => .ok (code, first)
  | none, some _ => .ok (code, second)
  | some a, some b =>
    match last code (code.size + 1) a with
    | .error f => .error f
    | .ok z =>
      match fix code z b with
      | .error f => .error f
      | .ok code => .ok (code, some a)

def control (code : Code) (pc : Nat) : Nat :=
  match pc with
  | 0 => 0
  | before + 1 =>
    match code[before]? with
    | some i => if i.isTest then before else pc
    | none => pc

/-- Whether the jump at `pc` is controlled by a test that stores a value. -/
def storesValue (code : Code) (pc : Nat) : Bool :=
  match code[control code pc]? with
  | some i => i.is .testSet
  | none => false

/-- A storing test made to store into `reg`, or a plain test if there is nowhere to store. -/
def redirected (i : Instruction) (reg : Option Nat) : Instruction :=
  let plain := Opcode.test.abck i.b 0 0 i.k
  match reg with
  | none => plain
  | some r => if r = i.b then plain else i.setA r

/-- Redirects the storing test that controls the jump at `pc`, if there is one. -/
def redirect (code : Code) (pc : Nat) (reg : Option Nat) : Code :=
  let at_ := control code pc
  match code[at_]? with
  | some i => if i.is .testSet then code.modify at_ fun i => redirected i reg else code
  | none => code

/-- Makes every storing test of a list a plain test. -/
def removeValues (code : Code) : (fuel : Nat) → Option Nat → Except Fault Code
  | _, none => .ok code
  | 0, some _ => .error .outOfRange
  | fuel + 1, some pc =>
    let code := redirect code pc none
    match next code pc with
    | .error f => .error f
    | .ok rest => removeValues code fuel rest

/-- Sends the jumps with storing tests to `valueTarget`, their value going into `reg`, and all
other jumps to `plainTarget`. The result has the jumps with their destinations, before `aims`. -/
def patch (code : Code) (valueTarget : Nat) (reg : Option Nat) (plainTarget : Option Nat)
    (aims : List (Nat × Nat)) :
    (fuel : Nat) → Option Nat → Except Fault (Code × List (Nat × Nat))
  | _, none => .ok (code, aims)
  | 0, some _ => .error .outOfRange
  | fuel + 1, some pc =>
    match next code pc with
    | .error f => .error f
    | .ok rest =>
      let target := if storesValue code pc then some valueTarget else plainTarget
      let code := redirect code pc reg
      match target with
      | none => .error .outOfRange
      | some t =>
        match fix code pc t with
        | .error f => .error f
        | .ok code => patch code valueTarget reg plainTarget ((pc, t) :: aims) fuel rest

/-- Whether some jump of the list has no value of its own to give. -/
def needsValue (code : Code) : (fuel : Nat) → Option Nat → Except Fault Bool
  | _, none => .ok false
  | 0, some _ => .error .outOfRange
  | fuel + 1, some pc =>
    if code.size ≤ pc then .error .outOfRange
    else if storesValue code pc then
      match next code pc with
      | .error f => .error f
      | .ok rest => needsValue code fuel rest
    else .ok true

/-- Where a chain of jumps from `pc` leads; a chain is followed for a hundred jumps. -/
def finalTarget (code : Code) : (fuel : Nat) → (pc : Nat) → Except Fault Nat
  | 0, pc => .ok pc
  | fuel + 1, pc =>
    match code[pc]? with
    | none => .error .outOfRange
    | some i =>
      if i.is .jmp then
        let target := (pc : Int) + i.sj + 1
        if target < 0 then .error .outOfRange else finalTarget code fuel target.toNat
      else .ok pc

def chainLimit : Nat := 100

theorem size_redirect (code : Code) (pc : Nat) (reg : Option Nat) :
    (redirect code pc reg).size = code.size := by
  unfold redirect
  simp only
  split
  · split <;> simp
  · rfl

theorem size_fix {code code' : Code} {pc dest : Nat} (h : fix code pc dest = .ok code') :
    code'.size = code.size := by
  unfold fix at h
  simp only at h
  split at h
  · split at h
    · cases h; simp
    · cases h
  · cases h

end LuaChunk.JumpList

namespace LuaChunk

/-- What the returns of a function have to say. -/
structure ReturnMarks where
  closes : Bool
  isVararg : Bool
  numParams : Nat

namespace ReturnMarks

def mark (m : ReturnMarks) (i : Instruction) : Instruction :=
  let i := if m.closes then i.setK 1 else i
  if m.isVararg then i.setC (m.numParams + 1) else i

/-- A return or tail call as the final pass leaves it; other instructions stay as they are. -/
def adjust (m : ReturnMarks) (i : Instruction) : Instruction :=
  match i.opcode? with
  | some .ret0 | some .ret1 =>
    if m.closes || m.isVararg then m.mark (i.setOpcode .ret) else i
  | some .ret | some .tailCall => m.mark i
  | _ => i

end ReturnMarks

namespace JumpList

def finishAt (m : ReturnMarks) (code : Code) (pc : Nat) : Except Fault Code :=
  match code[pc]? with
  | none => .error .outOfRange
  | some i =>
    if i.is .jmp then
      match finalTarget code chainLimit pc with
      | .error f => .error f
      | .ok target => fix code pc target
    else .ok (code.modify pc m.adjust)

def finishLast (m : ReturnMarks) : (n : Nat) → Code → Except Fault Code
  | 0, code => .ok code
  | n + 1, code =>
    match finishAt m code (code.size - (n + 1)) with
    | .error f => .error f
    | .ok code => finishLast m n code

def finish (m : ReturnMarks) (code : Code) : Except Fault Code := finishLast m code.size code

end JumpList

end LuaChunk
