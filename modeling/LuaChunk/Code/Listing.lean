import LuaChunk.Code.Prototype

/-!
Listings: compiled functions as text for people. Each instruction is a line with its position, its
source line, mnemonic, operands and a comment on what the operands refer to. A full listing shows
constants, locals and upvalues too.
-/

set_option autoImplicit false

namespace LuaChunk.Listing

open LuaChunk

/-- How a chunk's name is shown: a file or literal name bare, source text not at all. -/
def displaySource : Bytes → Bytes
  | [] => utf8 "=?"
  | c :: rest => if c = byte '@' || c = byte '=' then rest else utf8 "(string)"

def upvalueName (p : Prototype) (i : Nat) : Bytes :=
  match p.upvalues[i]? with
  | some { name := some s, .. } => s
  | _ => utf8 "-"

def constantText (p : Prototype) (i : Nat) : Bytes :=
  match p.constants[i]? with
  | some v => v.text
  | none => utf8 "?"

def constantTag : Value → Bytes
  | .nil => utf8 "N"
  | .bool _ => utf8 "B"
  | .num (.int _) => utf8 "I"
  | .num (.float _) => utf8 "F"
  | .str _ => utf8 "S"
  | .unknown _ => utf8 "?"

def operandList (ns : List Int) : Bytes := Bytes.joinWith (utf8 " ") (ns.map Bytes.ofInt)

/-- How many values go in or out; a zero operand stands for an open list. -/
def countText (operand : Nat) (word : Bytes) : Bytes :=
  if operand = 0 then utf8 "all " ++ word else Bytes.ofNat (operand - 1) ++ byte ' ' :: word

def callComment (b c : Nat) : Bytes :=
  countText b (utf8 "in") ++ byte ' ' :: countText c (utf8 "out")

def plainOperands (i : Instruction) : Bytes :=
  match Opcode.layoutOf i.opcode with
  | .abc => operandList [i.a, i.b, i.c]
  | .vabc => operandList [i.a, i.vb, i.vc]
  | .abx => operandList [i.a, i.bx]
  | .asbx => operandList [i.a, i.sbx]
  | .ax => operandList [i.ax]
  | .sj => operandList [i.sj]

def flagMark (i : Instruction) : Bytes := if i.k = 0 then [] else utf8 "k"

/-- Operands and comment of instruction `i` at position `pc`; an empty comment is none. -/
def operandsAndComment (p : Prototype) (pc : Nat) (i : Instruction) : Bytes × Bytes :=
  let plain := plainOperands i
  let konst := constantText p
  let stored := if i.k = 0 then [] else byte ' ' :: konst i.c
  let event := Event.nameOf i.c
  let target := fun (n : Int) => Bytes.ofInt n
  match i.opcode? with
  | none => (plain, [])
  | some op =>
    match op with
    | .move | .unm | .bnot | .not | .len | .concat => (operandList [i.a, i.b], [])
    | .setTable | .setI => (plain ++ flagMark i, if i.k = 0 then [] else konst i.c)
    | .loadK => (plain, konst i.bx)
    | .loadFalse | .lFalseSkip | .loadTrue | .close | .tbc | .ret1 | .varargPrep =>
      (operandList [i.a], [])
    | .ret0 => ([], [])
    | .loadNil => (operandList [i.a, i.b], Bytes.ofNat (i.b + 1) ++ utf8 " out")
    | .getUpval | .setUpval => (operandList [i.a, i.b], upvalueName p i.b)
    | .getTabUp => (plain, upvalueName p i.b ++ byte ' ' :: konst i.c)
    | .getField => (plain, konst i.c)
    | .setTabUp => (plain ++ flagMark i, upvalueName p i.a ++ byte ' ' :: konst i.b ++ stored)
    | .setField => (plain ++ flagMark i, konst i.b ++ stored)
    | .self => (plain ++ flagMark i, if i.k = 0 then [] else konst i.c)
    | .addI | .shrI | .shlI => (operandList [i.a, i.b, i.sc], [])
    | .addK | .subK | .mulK | .modK | .powK | .divK | .idivK | .bandK | .borK | .bxorK =>
      (plain, konst i.c)
    | .mmBin => (plain, event)
    | .mmBinI => (operandList [i.a, i.sb, i.c, i.k], event)
    | .mmBinK => (operandList [i.a, i.b, i.c, i.k], event ++ byte ' ' :: konst i.b)
    | .jmp => (plain, utf8 "to " ++ target (i.sj + pc + 2))
    | .test => (operandList [i.a, i.k], [])
    | .eq | .lt | .le | .testSet => (operandList [i.a, i.b, i.k], [])
    | .eqK => (operandList [i.a, i.b, i.k], konst i.b)
    | .eqI | .ltI | .leI | .gtI | .geI => (operandList [i.a, i.sb, i.k], [])
    | .call => (plain, callComment i.b i.c)
    | .tailCall => (plain, callComment i.b 0)
    | .ret => (plain ++ flagMark i, countText i.b (utf8 "out"))
    | .forLoop | .tforLoop => (plain, utf8 "to " ++ target ((pc : Int) - i.bx + 2))
    | .forPrep => (plain, utf8 "exit to " ++ target (pc + i.bx + 3))
    | .tforPrep => (plain, utf8 "to " ++ target (pc + i.bx + 2))
    | .tforCall => (operandList [i.a, i.c], [])
    | .setList =>
      (plain ++ flagMark i, if i.vb = 0 then utf8 "all in" else Bytes.ofNat i.vb ++ utf8 " in")
    | .newTable => (plain ++ flagMark i, [])
    | .closure =>
      (plain, match p.nested[i.bx]? with
        | some q => utf8 "function <" ++ Bytes.ofInt q.lineDefined ++ utf8 ">"
        | none => [])
    | .vararg => (operandList [i.a, i.c], countText i.c (utf8 "out"))
    | .errNNil => (plain, if i.bx = 0 then [] else konst (i.bx - 1))
    | _ => (plain, [])

def instruction? (p : Prototype) (pc : Nat) (i : Instruction) : Option Bytes :=
  (p.line? pc).map fun line =>
    let (operands, comment) := operandsAndComment p pc i
    byte '\t' :: Bytes.ofNat (pc + 1)
      ++ (if 0 < line then utf8 "\t[" ++ Bytes.ofInt line ++ utf8 "]\t" else utf8 "\t[-]\t")
      ++ Bytes.padRight 9 (Opcode.nameOf i.opcode) ++ byte '\t' :: operands
      ++ (if comment.isEmpty then [] else utf8 "\t; " ++ comment)

def instructions? (p : Prototype) : Option Bytes :=
  (p.code.toList.zipIdx.mapM fun (i, pc) => instruction? p pc i).map fun (lines : List Bytes) =>
    lines.flatMap (· ++ [byte '\n'])

def counted (n : Nat) (word : String) : Bytes :=
  Bytes.ofNat n ++ byte ' ' :: utf8 word ++ Bytes.plural n

def countedInt (n : Int) (suffix : Bytes) (word : String) : Bytes :=
  Bytes.ofInt n ++ suffix ++ byte ' ' :: utf8 word ++ (if n = 1 then [] else utf8 "s")

def heading (p : Prototype) : Bytes :=
  utf8 "\n" ++ (if p.lineDefined = 0 then utf8 "main" else utf8 "function") ++ utf8 " <"
    ++ displaySource p.source ++ utf8 ":" ++ Bytes.ofInt p.lineDefined ++ utf8 ","
    ++ Bytes.ofInt p.lastLineDefined ++ utf8 "> (" ++ counted p.code.size "instruction"
    ++ utf8 ")\n" ++ countedInt p.numParams (if p.isVararg then utf8 "+" else []) "param"
    ++ utf8 ", " ++ countedInt p.maxStackSize [] "slot" ++ utf8 ", "
    ++ counted p.upvalues.size "upvalue" ++ utf8 ", " ++ counted p.locals.size "local"
    ++ utf8 ", " ++ counted p.constants.size "constant" ++ utf8 ", "
    ++ counted p.nested.length "function" ++ utf8 "\n"

def row (fields : List Bytes) : Bytes := fields.flatMap (byte '\t' :: ·) ++ [byte '\n']

def table (title : String) (n : Nat) (rows : List Bytes) : Bytes :=
  utf8 title ++ utf8 " (" ++ Bytes.ofNat n ++ utf8 "):\n" ++ rows.flatten

/-- Constants, locals and upvalues; a local without a name shows as `<nil>`. -/
def debugTables (p : Prototype) : Bytes :=
  table "constants" p.constants.size (p.constants.toList.mapIdx fun i k =>
      row [Bytes.ofNat i, constantTag k, k.text])
    ++ table "locals" p.locals.size (p.locals.toList.mapIdx fun i v =>
      row [Bytes.ofNat i, v.name.getD (utf8 "<nil>"), Bytes.ofInt (v.startPc + 1),
        Bytes.ofInt (v.endPc + 1)])
    ++ table "upvalues" p.upvalues.size (p.upvalues.toList.mapIdx fun i u =>
      row [Bytes.ofNat i, upvalueName p i, if u.inStack then utf8 "1" else utf8 "0",
        Bytes.ofInt u.index])

def function? (full : Bool) (p : Prototype) : Option Bytes :=
  (instructions? p).map fun code => heading p ++ code ++ (if full then debugTables p else [])

/-- The listing of a function and of all functions nested in it. -/
def listing? (full : Bool) (p : Prototype) : Option Bytes :=
  (p.walk.mapM (function? full)).map List.flatten

end LuaChunk.Listing
