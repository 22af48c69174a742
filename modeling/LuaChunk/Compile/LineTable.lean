import LuaChunk.Code.Prototype

/-!
The line table of a function under construction. Each instruction has the difference of its line
from the line of the one before, as long as that is small and the last absolute line is not too far
back; else it has a marker, and the line itself is listed.
-/

set_option autoImplicit false

namespace LuaChunk

structure LineTable where
  info : Array Int8 := #[]
  absolute : Array AbsLine := #[]
  /-- the line of the last instruction, or of the function -/
  previous : Int
  /-- how many instructions there are from the last absolute line on -/
  run : Nat := 0

namespace LineTable

def maxRun : Nat := 128

def differenceLimit : Nat := 128

def record (t : LineTable) (line : Int) : LineTable :=
  let difference := line - t.previous
  let pc := t.info.size
  if differenceLimit ≤ difference.natAbs || maxRun ≤ t.run then
    { info := t.info.push lineMarker, absolute := t.absolute.push ⟨pc, line⟩,
      previous := line, run := 1 }
  else
    { t with info := t.info.push (Int8.ofInt difference), previous := line, run := t.run + 1 }

def canRemove (t : LineTable) : Bool :=
  match t.info.back? with
  | none => false
  | some d => d != lineMarker || !t.absolute.isEmpty

/-- Removes the line of the last instruction. After an absolute line the next one is absolute. -/
def removeLast (t : LineTable) : LineTable :=
  match t.info.back? with
  | none => t
  | some d =>
    if d = lineMarker then
      { t with info := t.info.pop, absolute := t.absolute.pop, run := maxRun + 1 }
    else { t with info := t.info.pop, previous := t.previous - d.toInt, run := t.run - 1 }

def fixLast (t : LineTable) (line : Int) : LineTable := t.removeLast.record line

@[simp] theorem size_info_record (t : LineTable) (line : Int) :
    (t.record line).info.size = t.info.size + 1 := by
  unfold record; simp only; split <;> simp

end LineTable

end LuaChunk
