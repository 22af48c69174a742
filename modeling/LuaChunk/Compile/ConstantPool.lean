import Std.Data.HashMap
import LuaChunk.Value

/-!
The constants of a function under construction. A constant is found again by a key; the entry
found counts only if it holds the same constant, so a clash of keys costs a second entry and never
gives a wrong constant.
-/

set_option autoImplicit false

namespace LuaChunk

/-- What a constant is looked up by. -/
inductive PoolKey where
  | text (s : Bytes)
  | int (n : Int64)
  | float (bits : UInt64)
  | bool (b : Bool)
  | zero
  | nil
  deriving DecidableEq, Hashable

namespace PoolKey

/-- A float with an integer value is keyed by the float after it, and zero has a key of its own. -/
def ofFloat (x : Float) : PoolKey :=
  match Binary64.toInt64? x with
  | none => .float x.toBits
  | some n =>
    if n = 0 then .zero
    else .float (x + x * Binary64.ofRatio false 1 Binary64.hiddenBit).toBits

end PoolKey

structure ConstantPool where
  values : Array Value := #[]
  index : Std.HashMap PoolKey Nat := {}

/-- An entry of the pool, with the constant that it was asked for. -/
structure PoolEntry where
  index : Nat
  value : Value

namespace ConstantPool

def sameConstant (a b : Value) : Bool := a.tag == b.tag && Value.rawEqual true a b

def find? (p : ConstantPool) (key : PoolKey) (v : Value) : Option Nat :=
  match p.index[key]? with
  | none => none
  | some k =>
    match p.values[k]? with
    | none => none
    | some w => if sameConstant w v then some k else none

def push (p : ConstantPool) (key : PoolKey) (v : Value) : ConstantPool :=
  let k := p.values.size
  { values := p.values.push v, index := p.index.insert key k }

theorem find?_sound {p : ConstantPool} {key : PoolKey} {v : Value} {k : Nat}
    (h : p.find? key v = some k) : ∃ w, p.values[k]? = some w ∧ sameConstant w v = true := by
  unfold find? at h
  split at h
  · cases h
  · split at h
    · cases h
    · rename_i w hw
      split at h
      · rename_i hs
        cases h
        exact ⟨w, hw, hs⟩
      · cases h

end ConstantPool

end LuaChunk
