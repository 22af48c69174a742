import LuaChunk.Text.Bytes

/-!
Operations of the register machine. `R[i]` is a register, `K[i]` a constant, `U[i]` an upvalue,
and `RK(C)` is `K[C]` if the instruction's flag `k` is set and else `R[C]`.
-/

set_option autoImplicit false

namespace LuaChunk

inductive Opcode where
  | move
  | loadI
  | loadF
  | loadK
  | loadKX
  | loadFalse
  | lFalseSkip
  | loadTrue
  | loadNil
  | getUpval
  | setUpval
  | getTabUp
  | getTable
  | getI
  | getField
  | setTabUp
  | setTable
  | setI
  | setField
  | newTable
  | self
  | addI
  | addK
  | subK
  | mulK
  | modK
  | powK
  | divK
  | idivK
  | bandK
  | borK
  | bxorK
  | shrI
  | shlI
  | add
  | sub
  | mul
  | mod
  | pow
  | div
  | idiv
  | band
  | bor
  | bxor
  | shl
  | shr
  | mmBin
  | mmBinI
  | mmBinK
  | unm
  | bnot
  | not
  | len
  | concat
  | close
  | tbc
  | jmp
  | eq
  | lt
  | le
  | eqK
  | eqI
  | ltI
  | leI
  | gtI
  | geI
  | test
  | testSet
  /-- `R[A], …, R[A+C-2] := R[A](R[A+1], …, R[A+B-1])` -/
  | call
  | tailCall
  | ret
  | ret0
  | ret1
  /-- update the counters; if the loop goes on, `pc -= Bx` -/
  | forLoop
  /-- prepare the counters; if the loop does not run, `pc += Bx + 1` -/
  | forPrep
  | tforPrep
  | tforCall
  /-- `if R[A+2] ~= nil then { R[A] := R[A+2]; pc -= Bx }` -/
  | tforLoop
  | setList
  | closure
  | vararg
  | getVarg
  /-- an error unless `R[A]` is nil; `K[Bx-1]` is the name of the global -/
  | errNNil
  | varargPrep
  | extraArg
  deriving DecidableEq, Repr

/-- How an instruction's word is cut into operands. -/
inductive Layout where
  | abc | vabc | abx | asbx | ax | sj
  deriving DecidableEq, Repr

namespace Layout

def all : Array Layout := #[.abc, .vabc, .abx, .asbx, .ax, .sj]

def name : Layout → Bytes
  | .abc => utf8 "iABC"
  | .vabc => utf8 "ivABC"
  | .abx => utf8 "iABx"
  | .asbx => utf8 "iAsBx"
  | .ax => utf8 "iAx"
  | .sj => utf8 "isJ"

def nameOf (n : Nat) : Bytes :=
  match all[n]? with
  | some m => m.name
  | none => utf8 "OpMode(" ++ Bytes.ofNat n ++ utf8 ")"

end Layout

namespace Opcode

def all : Array Opcode := #[.move, .loadI, .loadF, .loadK, .loadKX, .loadFalse, .lFalseSkip,
  .loadTrue, .loadNil, .getUpval, .setUpval, .getTabUp, .getTable, .getI, .getField, .setTabUp,
  .setTable, .setI, .setField, .newTable, .self, .addI, .addK, .subK, .mulK, .modK, .powK, .divK,
  .idivK, .bandK, .borK, .bxorK, .shrI, .shlI, .add, .sub, .mul, .mod, .pow, .div, .idiv, .band,
  .bor, .bxor, .shl, .shr, .mmBin, .mmBinI, .mmBinK, .unm, .bnot, .not, .len, .concat, .close,
  .tbc, .jmp, .eq, .lt, .le, .eqK, .eqI, .ltI, .leI, .gtI, .geI, .test, .testSet, .call,
  .tailCall, .ret, .ret0, .ret1, .forLoop, .forPrep, .tforPrep, .tforCall, .tforLoop, .setList,
  .closure, .vararg, .getVarg, .errNNil, .varargPrep, .extraArg]

def number (op : Opcode) : Nat := op.ctorIdx

def ofNumber? (n : Nat) : Option Opcode := all[n]?

@[simp] theorem ofNumber?_number (op : Opcode) : ofNumber? op.number = some op := by
  cases op <;> rfl

theorem number_lt (op : Opcode) : op.number < 128 := by cases op <;> decide

def name : Opcode → Bytes
  | .move => utf8 "MOVE"
  | .loadI => utf8 "LOADI"
  | .loadF => utf8 "LOADF"
  | .loadK => utf8 "LOADK"
  | .loadKX => utf8 "LOADKX"
  | .loadFalse => utf8 "LOADFALSE"
  | .lFalseSkip => utf8 "LFALSESKIP"
  | .loadTrue => utf8 "LOADTRUE"
  | .loadNil => utf8 "LOADNIL"
  | .getUpval => utf8 "GETUPVAL"
  | .setUpval => utf8 "SETUPVAL"
  | .getTabUp => utf8 "GETTABUP"
  | .getTable => utf8 "GETTABLE"
  | .getI => utf8 "GETI"
  | .getField => utf8 "GETFIELD"
  | .setTabUp => utf8 "SETTABUP"
  | .setTable => utf8 "SETTABLE"
  | .setI => utf8 "SETI"
  | .setField => utf8 "SETFIELD"
  | .newTable => utf8 "NEWTABLE"
  | .self => utf8 "SELF"
  | .addI => utf8 "ADDI"
  | .addK => utf8 "ADDK"
  | .subK => utf8 "SUBK"
  | .mulK => utf8 "MULK"
  | .modK => utf8 "MODK"
  | .powK => utf8 "POWK"
  | .divK => utf8 "DIVK"
  | .idivK => utf8 "IDIVK"
  | .bandK => utf8 "BANDK"
  | .borK => utf8 "BORK"
  | .bxorK => utf8 "BXORK"
  | .shrI => utf8 "SHRI"
  | .shlI => utf8 "SHLI"
  | .add => utf8 "ADD"
  | .sub => utf8 "SUB"
  | .mul => utf8 "MUL"
  | .mod => utf8 "MOD"
  | .pow => utf8 "POW"
  | .div => utf8 "DIV"
  | .idiv => utf8 "IDIV"
  | .band => utf8 "BAND"
  | .bor => utf8 "BOR"
  | .bxor => utf8 "BXOR"
  | .shl => utf8 "SHL"
  | .shr => utf8 "SHR"
  | .mmBin => utf8 "MMBIN"
  | .mmBinI => utf8 "MMBINI"
  | .mmBinK => utf8 "MMBINK"
  | .unm => utf8 "UNM"
  | .bnot => utf8 "BNOT"
  | .not => utf8 "NOT"
  | .len => utf8 "LEN"
  | .concat => utf8 "CONCAT"
  | .close => utf8 "CLOSE"
  | .tbc => utf8 "TBC"
  | .jmp => utf8 "JMP"
  | .eq => utf8 "EQ"
  | .lt => utf8 "LT"
  | .le => utf8 "LE"
  | .eqK => utf8 "EQK"
  | .eqI => utf8 "EQI"
  | .ltI => utf8 "LTI"
  | .leI => utf8 "LEI"
  | .gtI => utf8 "GTI"
  | .geI => utf8 "GEI"
  | .test => utf8 "TEST"
  | .testSet => utf8 "TESTSET"
  | .call => utf8 "CALL"
  | .tailCall => utf8 "TAILCALL"
  | .ret => utf8 "RETURN"
  | .ret0 => utf8 "RETURN0"
  | .ret1 => utf8 "RETURN1"
  | .forLoop => utf8 "FORLOOP"
  | .forPrep => utf8 "FORPREP"
  | .tforPrep => utf8 "TFORPREP"
  | .tforCall => utf8 "TFORCALL"
  | .tforLoop => utf8 "TFORLOOP"
  | .setList => utf8 "SETLIST"
  | .closure => utf8 "CLOSURE"
  | .vararg => utf8 "VARARG"
  | .getVarg => utf8 "GETVARG"
  | .errNNil => utf8 "ERRNNIL"
  | .varargPrep => utf8 "VARARGPREP"
  | .extraArg => utf8 "EXTRAARG"

def layout : Opcode → Layout
  | .loadI | .loadF => .asbx
  | .loadK | .loadKX | .forLoop | .forPrep | .tforPrep | .tforLoop | .closure | .errNNil => .abx
  | .newTable | .setList => .vabc
  | .jmp => .sj
  | .extraArg => .ax
  | _ => .abc

def isTest : Opcode → Bool
  | .eq | .lt | .le | .eqK | .eqI | .ltI | .leI | .gtI | .geI | .test | .testSet => true
  | _ => false

def setsA : Opcode → Bool
  | .setUpval | .setTabUp | .setTable | .setI | .setField | .mmBin | .mmBinI | .mmBinK | .close
  | .tbc | .jmp | .eq | .lt | .le | .eqK | .eqI | .ltI | .leI | .gtI | .geI | .test | .ret | .ret0
  | .ret1 | .tforPrep | .tforCall | .setList | .errNNil | .varargPrep | .extraArg => false
  | _ => true

/-- Whether the instruction takes an open list if its operand B is zero. -/
def usesTop : Opcode → Bool
  | .call | .tailCall | .ret | .setList | .varargPrep => true
  | _ => false

/-- Whether the instruction leaves an open list if its operand C is zero. -/
def setsTop : Opcode → Bool
  | .call | .tailCall | .vararg => true
  | _ => false

/-- Whether the instruction is the metamethod fallback of the arithmetic one before it. -/
def isMetamethod : Opcode → Bool
  | .mmBin | .mmBinI | .mmBinK => true
  | _ => false

def nameOf (n : Nat) : Bytes :=
  match ofNumber? n with
  | some op => op.name
  | none => utf8 "UNKNOWN(" ++ Bytes.ofNat n ++ utf8 ")"

def layoutOf (n : Nat) : Layout := ((ofNumber? n).map layout).getD .abc

end Opcode

/-- The metamethods that instructions name by number. -/
inductive Event where
  | index | newindex | gc | mode | len | eq | add | sub | mul | mod | pow | div | idiv | band | bor
  | bxor | shl | shr | unm | bnot | lt | le | concat | call | close
  deriving DecidableEq, Repr

namespace Event

def all : Array Event := #[.index, .newindex, .gc, .mode, .len, .eq, .add, .sub, .mul, .mod, .pow,
  .div, .idiv, .band, .bor, .bxor, .shl, .shr, .unm, .bnot, .lt, .le, .concat, .call, .close]

def number (e : Event) : Nat := e.ctorIdx

def name : Event → Bytes
  | .index => utf8 "__index"
  | .newindex => utf8 "__newindex"
  | .gc => utf8 "__gc"
  | .mode => utf8 "__mode"
  | .len => utf8 "__len"
  | .eq => utf8 "__eq"
  | .add => utf8 "__add"
  | .sub => utf8 "__sub"
  | .mul => utf8 "__mul"
  | .mod => utf8 "__mod"
  | .pow => utf8 "__pow"
  | .div => utf8 "__div"
  | .idiv => utf8 "__idiv"
  | .band => utf8 "__band"
  | .bor => utf8 "__bor"
  | .bxor => utf8 "__bxor"
  | .shl => utf8 "__shl"
  | .shr => utf8 "__shr"
  | .unm => utf8 "__unm"
  | .bnot => utf8 "__bnot"
  | .lt => utf8 "__lt"
  | .le => utf8 "__le"
  | .concat => utf8 "__concat"
  | .call => utf8 "__call"
  | .close => utf8 "__close"

def nameOf (n : Nat) : Bytes :=
  match all[n]? with
  | some e => e.name
  | none => utf8 "Event(" ++ Bytes.ofNat n ++ utf8 ")"

end Event

end LuaChunk
