import LuaChunk.Code.Prototype
import LuaChunk.Interner
import LuaChunk.Wire.Cbor

/-!
The form in which compiled functions are written to files and kept in the cache: a CBOR map with
numbered fields. Fields that are zero or empty are left out, except for those that every function
has. An empty name stands for none.

Reading takes anything that fits: unknown fields are ignored, of two fields with one number the
first counts, null stands for zero, and tags are passed over.
-/

set_option autoImplicit false

namespace LuaChunk.Wire

open LuaChunk
open LuaChunk.Cbor (Item)

/-- Why bytes are not a compiled function. -/
inductive Error where
  | malformed
  | lineCount (lines instructions : Nat)
  | constantKind (tag : UInt8)
  deriving DecidableEq, Repr

namespace Error

/-- The text of the error; one about the shape of items has none of its own. -/
def text? : Error → Option Bytes
  | .malformed => none
  | .lineCount lines instructions =>
    some (utf8 "cache: " ++ Bytes.ofNat lines ++ utf8 " line entries for " ++
      Bytes.ofNat instructions
      ++ utf8 " instructions")
  | .constantKind tag => some (utf8 "cache: bad constant type " ++ Bytes.ofNat tag.toNat)

end Error

def always (n : Nat) (value : Item) : List (Item × Item) := [(.uint n, value)]

def unlessEmpty (isEmpty : Bool) (n : Nat) (value : Item) : List (Item × Item) :=
  if isEmpty then [] else always n value

def intField (n : Nat) (x : Int) : List (Item × Item) := unlessEmpty (x = 0) n (.ofInt x)

def textField (n : Nat) (s : Bytes) : List (Item × Item) := unlessEmpty s.isEmpty n (.ofText s)

def listField (n : Nat) (items : List Item) : List (Item × Item) :=
  unlessEmpty items.isEmpty n (.array items)

def valueItem (v : Value) : Item :=
  .map (always 1 (.uint v.tag.toNat) ++ match v with
    | .num (.int n) => intField 2 n.toInt
    | .num (.float x) => unlessEmpty (x.value == 0) 3 (.float x)
    | .str s => textField 4 s
    | _ => [])

def upvalueItem (u : Upvalue) : Item :=
  .map (textField 1 (u.name.getD []) ++ unlessEmpty (!u.inStack) 2 (.bool true)
    ++ always 3 (.ofInt u.index) ++ intField 4 u.kind.toNat)

def localItem (v : LocalVar) : Item :=
  .map (always 1 (.ofText (v.name.getD [])) ++ always 2 (.ofInt v.startPc)
    ++ always 3 (.ofInt v.endPc))

def absLineItem (a : AbsLine) : Item := .array [.ofInt a.pc, .ofInt a.line]

mutual

def toItem : Prototype → Item
  | { source, lineDefined, lastLineDefined, numParams, flag, maxStackSize, code, constants, nested,
      upvalues, lineInfo, absLines, locals } =>
    .map (always 1 (.ofText source) ++ intField 2 lineDefined ++ intField 3 lastLineDefined
      ++ intField 4 numParams ++ intField 5 flag.toNat ++ always 6 (.ofInt maxStackSize)
      ++ always 7 (.array (code.toList.map fun i => .uint i.word.toNat))
      ++ listField 8 (constants.toList.map valueItem)
      ++ listField 9 (toItems nested)
      ++ listField 10 (upvalues.toList.map upvalueItem)
      ++ listField 11 (lineInfo.toList.map fun d => .ofInt d.toInt)
      ++ listField 12 (absLines.toList.map absLineItem)
      ++ listField 13 (locals.toList.map localItem))

def toItems : List Prototype → List Item
  | [] => []
  | p :: rest => toItem p :: toItems rest

end

def encode (p : Prototype) : Bytes := (toItem p).write

def bignum (s : Bytes) : Nat := s.foldl (fun n b => 256 * n + b.toNat) 0

/-- Whether a tag with a fixed meaning has the content that it must have. -/
def tagFits (n : Nat) (content : Item) : Bool :=
  match n, content with
  | 0, .text _ => true
  | 0, _ => false
  | 1, .uint _ | 1, .nint _ | 1, .float _ => true
  | 1, _ => false
  | 2, .bytes _ | 3, .bytes _ => true
  | 2, _ | 3, _ => false
  | _, _ => true

def untagged : Item → Option Item
  | .tag n content =>
    if !tagFits n content then none
    else match n, content with
      | 2, .bytes s => if bignum s < 0x10000000000000000 then some (.uint (bignum s)) else none
      | 3, .bytes s => if bignum s < 0x8000000000000000 then some (.nint (bignum s)) else none
      | _, _ => untagged content
  | item => some item

def reading {α : Type} (f : Item → Option α) (item : Item) : Option α :=
  match untagged item with
  | some item => f item
  | none => none

def isNull : Item → Bool
  | .simple n => n = 22 || n = 23
  | _ => false

/-- An integer in a range; simple values other than booleans count as integers. -/
def readInt (low high : Int) : Item → Option Int :=
  reading fun item =>
    let within := fun (n : Int) => if low ≤ n && n ≤ high then some n else none
    match item with
    | .uint n => within n
    | .nint n => within (-1 - n)
    | .simple n =>
      if isNull item then some 0 else if n = 20 || n = 21 then none else within n
    | _ => none

def readInt64 : Item → Option Int := readInt (-0x8000000000000000) (0x7FFFFFFFFFFFFFFF)

def readByte (item : Item) : Option UInt8 := (readInt 0 255 item).map UInt8.ofInt

/-- A float, or an integer that is made one. -/
def readFloat : Item → Option Double :=
  reading fun item =>
    match item with
    | .float x => some x
    | .uint n => some (Binary64.ofInt n)
    | .nint n => if n < 0x8000000000000000 then some (Binary64.ofInt (-1 - n)) else none
    | .simple n =>
      if isNull item then some 0 else if n = 20 || n = 21 then none else some (Binary64.ofInt n)
    | _ => none

def readBool : Item → Option Bool :=
  reading fun item =>
    match item with
    | .simple n =>
      if isNull item then some false
      else if n = 21 then some true else if n = 20 then some false else none
    | _ => none

def readText : Item → Option Bytes :=
  reading fun item =>
    match item with
    | .text chunks => if chunks.all Utf8.valid then some chunks.flatten else none
    | _ => if isNull item then some [] else none

def readList {α : Type} (f : Item → Option α) : Item → Option (List α) :=
  reading fun item =>
    match item with
    | .array items => items.mapM f
    | _ => if isNull item then some [] else none

/-- The fields of a map, by name or number. -/
inductive Key where
  | name (s : Bytes)
  | number (n : Int64)

def readKey : Item → Option Key
  | .text chunks => if chunks.all Utf8.valid then some (.name chunks.flatten) else none
  | .uint n => some (.number (Int64.ofNat n))
  | .nint n => some (.number (~~~Int64.ofNat n))
  | _ => none

/-- Whether a key is the one of a numbered field; the number may be written as text. -/
def Key.isField (k : Key) (n : Nat) : Bool :=
  match k with
  | .name s => s == Bytes.ofNat n
  | .number m => m == Int64.ofNat n

abbrev Fields := List (Key × Item)

def readFields : Item → Option Fields :=
  reading fun item =>
    match item with
    | .map pairs => pairs.mapM fun (k, v) => (readKey k).map (·, v)
    | _ => if isNull item then some [] else none

def Fields.item (fs : Fields) (n : Nat) : Item :=
  match fs.find? fun (k, _) => k.isField n with
  | some (_, v) => v
  | none => .null

def readValue (item : Item) : Option Value := do
  let fs ← readFields item
  let tag ← readByte (fs.item 1)
  let n ← readInt64 (fs.item 2)
  let x ← readFloat (fs.item 3)
  let s ← readText (fs.item 4)
  return match tag with
    | 0 => .nil
    | 1 => .bool false
    | 2 => .bool true
    | 3 => .num (.int (Int64.ofInt n))
    | 4 => .num (.float x)
    | 5 => .str s
    | t => .unknown t

def readName (item : Item) : Option (Option Bytes) :=
  (readText item).map fun s => if s.isEmpty then none else some s

def readUpvalue (item : Item) : Option Upvalue := do
  let fs ← readFields item
  return { name := ← readName (fs.item 1), inStack := ← readBool (fs.item 2),
           index := ← readInt64 (fs.item 3), kind := ← readByte (fs.item 4) }

def readLocal (item : Item) : Option LocalVar := do
  let fs ← readFields item
  return { name := ← readName (fs.item 1), startPc := ← readInt64 (fs.item 2),
           endPc := ← readInt64 (fs.item 3) }

/-- A position and a line; numbers that are missing are zero, and what follows them is ignored. -/
def readAbsLine : Item → Option AbsLine :=
  reading fun item =>
    match item with
    | .array (a :: b :: _) => do return ⟨← readInt64 a, ← readInt64 b⟩
    | .array [a] => do return ⟨← readInt64 a, 0⟩
    | .array [] => some ⟨0, 0⟩
    | _ => if isNull item then some ⟨0, 0⟩ else none

def ofItem : (levels : Nat) → Item → Option Prototype
  | 0, _ => none
  | levels + 1, item => do
    let fs ← readFields item
    let source ← readText (fs.item 1)
    let lineDefined ← readInt64 (fs.item 2)
    let lastLineDefined ← readInt64 (fs.item 3)
    let numParams ← readInt64 (fs.item 4)
    let flag ← readByte (fs.item 5)
    let maxStackSize ← readInt64 (fs.item 6)
    let code ← readList (readInt 0 (0xFFFFFFFF)) (fs.item 7)
    let constants ← readList readValue (fs.item 8)
    let nested ← readList (ofItem levels) (fs.item 9)
    let upvalues ← readList readUpvalue (fs.item 10)
    let lineInfo ← readList (readInt (-128) 127) (fs.item 11)
    let absLines ← readList readAbsLine (fs.item 12)
    let locals ← readList readLocal (fs.item 13)
    return { source, lineDefined, lastLineDefined, numParams, flag, maxStackSize, nested
             code := (code.map fun w => Instruction.mk (UInt32.ofInt w)).toArray
             constants := constants.toArray
             upvalues := upvalues.toArray
             lineInfo := (lineInfo.map Int8.ofInt).toArray
             absLines := absLines.toArray
             locals := locals.toArray }

mutual

/-- Refuses a function whose line table does not match its code, or with a constant of no kind. -/
def check : Prototype → Except Error Unit
  | { code, constants, nested, lineInfo, .. } =>
    if !lineInfo.isEmpty && lineInfo.size ≠ code.size then
      .error (.lineCount lineInfo.size code.size)
    else match constants.findSome? (fun v => match v with
        | .unknown t => some t
        | _ => none) with
      | some t => .error (.constantKind t)
      | none => checkAll nested

def checkAll : List Prototype → Except Error Unit
  | [] => .ok ()
  | p :: rest =>
    match check p with
    | .ok _ => checkAll rest
    | .error e => .error e

end

/-- The compiled function that some bytes are. -/
def decode (s : Bytes) : Except Error Prototype :=
  match Cbor.Item.decode s with
  | none => .error .malformed
  | some item =>
    match ofItem Cbor.maxNesting item with
    | none => .error .malformed
    | some p =>
      match check p with
      | .ok _ => .ok p
      | .error e => .error e

def stringOf? : Value → Option Bytes
  | .str s => some s
  | _ => none

mutual

/-- The texts of a function in the order in which they are recorded: the string constants, the texts
of the functions nested in it, the names of upvalues and those of locals. -/
def texts : Prototype → List Bytes
  | { constants, nested, upvalues, locals, .. } =>
    constants.toList.filterMap stringOf? ++ textsAll nested ++ upvalues.toList.filterMap (·.name)
      ++ locals.toList.filterMap (·.name)

def textsAll : List Prototype → List Bytes
  | [] => []
  | p :: rest => texts p ++ textsAll rest

end

/-- The compiled function that some bytes are; its texts are recorded in a table. -/
def decodeInto (s : Bytes) (table : Interner) : Except Error (Prototype × Interner) :=
  (decode s).map fun p => (p, (texts p).foldl Interner.intern table)

mutual

/-- The texts that are recorded while a function is read: all of them, or those before what is
refused. -/
def recorded : Prototype → List Bytes
  | { code, constants, nested, upvalues, lineInfo, locals, .. } =>
    if !lineInfo.isEmpty && lineInfo.size ≠ code.size then []
    else
      let known := constants.toList.takeWhile fun v => !v.isUnknown
      known.filterMap stringOf? ++
        if known.length < constants.size then []
        else recordedAll nested ++
          if (checkAll nested).isOk then upvalues.toList.filterMap (·.name) ++
            locals.toList.filterMap (·.name) else []

def recordedAll : List Prototype → List Bytes
  | [] => []
  | p :: rest => recorded p ++ if (check p).isOk then recordedAll rest else []

end

/-- The texts that are recorded while some bytes are read, whether they are a function or not. -/
def recordedTexts (s : Bytes) : List Bytes :=
  match Cbor.Item.decode s with
  | none => []
  | some item => ((ofItem Cbor.maxNesting item).map recorded).getD []

/-- Reads a compiled function, and gives the table with what was recorded on the way. -/
def readInto (s : Bytes) (table : Interner) : Except Error Prototype × Interner :=
  (decode s, (recordedTexts s).foldl Interner.intern table)

end LuaChunk.Wire
