import LuaChunk.Code.Listing
import LuaChunk.Editor.Workspace
import LuaChunk.Text.Blank

/-!
What an editor shows of a document: the instructions of a line, the names that complete a
beginning, and the functions with their lines. All come from the compiled function of a document.
-/

set_option autoImplicit false

namespace LuaChunk.Editor

open LuaChunk

def spans (line : Int) (p : Prototype) : Bool :=
  decide (p.lineDefined ≤ line) && decide (line ≤ p.lastLineDefined)

mutual

/-- The function to show for a line: where a nested function spans the line, the innermost one that
the first such function leads to. -/
def innermost (line : Int) : Prototype → Prototype
  | p@{ nested, .. } => (innermostOf line nested).getD p

def innermostOf (line : Int) : List Prototype → Option Prototype
  | [] => none
  | p :: rest => if spans line p then some (innermost line p) else innermostOf line rest

end

/-- The instructions that a function has for a line, a line of text each. -/
def instructionsAt (p : Prototype) (line : Int) : Bytes :=
  (p.code.toList.zipIdx.filterMap fun (i, pc) =>
    if p.line? pc = some line then (Listing.instruction? p pc i).map (· ++ [byte '\n'])
    else none).flatten

def functionHeading (nested : Bool) (p : Prototype) : Bytes :=
  if nested then
    utf8 "function <" ++ Bytes.ofInt p.lineDefined ++ utf8 "," ++ Bytes.ofInt p.lastLineDefined
      ++ utf8 ">"
  else utf8 "main chunk"

/-- What is shown on a line, counted from zero: its instructions as Markdown, nothing where it has
none. -/
def hover (main : Prototype) (line : Nat) : Option Bytes :=
  let at_ : Int := line + 1
  let inner := innermostOf at_ main.nested
  let p := inner.getD main
  let body := instructionsAt p at_
  if body.isEmpty then none
  else some (utf8 "**" ++ functionHeading inner.isSome p ++ utf8 "**, "
    ++ Bytes.ofInt p.maxStackSize ++ utf8 " registers\n\n```\n" ++ body ++ utf8 "```")

/-- The bytes of names in the text before the cursor: ASCII letters, digits and the underscore, and
the bytes that stand for letters in Latin-1. -/
def isNameByte (b : UInt8) : Bool :=
  b == byte '_' || (byte '0' ≤ b && b ≤ byte '9') || (byte 'a' ≤ b && b ≤ byte 'z')
    || (byte 'A' ≤ b && b ≤ byte 'Z') || b == 0xAA || b == 0xB5 || b == 0xBA
    || (0xC0 ≤ b && b != 0xD7 && b != 0xF7)

def nameBefore (text : Bytes) (line character : Nat) : Bytes :=
  match (Bytes.lines text)[line]? with
  | none => []
  | some l => ((l.take character).reverse.takeWhile isNameByte).reverse

def isName (s : Bytes) : Bool :=
  match s with
  | [] => false
  | b :: _ =>
    !(byte '0' ≤ b && b ≤ byte '9') && s.all (fun b => isNameByte b && b < 0x80)
      && !Keyword.isReserved s

inductive NameKind where
  | local_ | global | keyword
  deriving DecidableEq, Repr

def NameKind.text : NameKind → Bytes
  | .local_ => utf8 "local"
  | .global => utf8 "global"
  | .keyword => utf8 "keyword"

structure Completion where
  name : Bytes
  kind : NameKind
  deriving DecidableEq, Repr

/-- The upvalue and the constant by which an instruction reads or writes a field of an upvalue. -/
def upvalueField? (i : Instruction) : Option (Nat × Nat) :=
  match i.opcode? with
  | some .getTabUp => some (i.b, i.c)
  | some .setTabUp => some (i.a, i.b)
  | _ => none

/-- The global name that an instruction of a function reads or writes. -/
def globalName? (p : Prototype) (i : Instruction) : Option Bytes := do
  let (up, key) ← upvalueField? i
  let u ← p.upvalues[up]?
  if u.name = some (utf8 "_ENV") then
    match ← p.constants[key]? with
    | .str s => if isName s then some s else none
    | _ => none
  else none

def dedup : List Bytes → List Bytes
  | a :: b :: rest => if a = b then dedup (b :: rest) else a :: dedup (b :: rest)
  | s => s

/-- The global names of a function and all functions nested in it, in order. -/
def globalNames (main : Prototype) : List Bytes :=
  dedup ((main.walk.flatMap fun p => p.code.toList.filterMap (globalName? p)).mergeSort Bytes.le)

/-- The names of a function's locals; those in parentheses are the compiler's own. -/
def localNames (p : Prototype) : List Bytes :=
  p.locals.toList.filterMap fun v =>
    v.name.filter fun s => !Bytes.startsWith s (utf8 "(")

def candidates (main : Option Prototype) (line : Int) : List Completion :=
  (match main with
    | none => []
    | some p => (localNames (innermost line p)).map (⟨·, .local_⟩)
        ++ (globalNames p).map (⟨·, .global⟩))
    ++ Keyword.words.map (⟨·, .keyword⟩)

def firstOfEach (cs : List Completion) : List Completion :=
  (cs.foldl (fun (kept : List Completion) c =>
    if kept.any fun k => k.name == c.name then kept else c :: kept) []).reverse

def maxCompletions : Nat := 100

def completions (main : Option Prototype) (line : Int) (start : Bytes) : List Completion :=
  (firstOfEach ((candidates main line).filter fun c => Bytes.startsWith c.name start)).take
    maxCompletions

/-- What is offered at a place of a document; nothing where no name ends there. -/
def complete (d : Document) (line character : Nat) : Option (List Completion) :=
  match nameBefore d.text line character with
  | [] => none
  | start => some (completions d.compiled (line + 1) start)

/-- A function in the outline of a document, with its lines counted from zero. -/
inductive OutlineItem where
  | mk (name detail : Bytes) (first last : Nat) (nested : List OutlineItem)

def maxOutlineName : Nat := 60

def outlineName (lines : Array Bytes) (p : Prototype) : Bytes :=
  let line := if p.lineDefined < 1 then none else lines[(p.lineDefined - 1).toNat]?
  let trimmed := Text.trim (line.getD [])
  let name :=
    if trimmed.isEmpty then utf8 "function <" ++ Bytes.ofInt p.lineDefined ++ utf8 ">" else trimmed
  if maxOutlineName < name.length then name.take maxOutlineName ++ utf8 "..." else name

def outlineDetail (p : Prototype) : Bytes :=
  Bytes.ofInt p.numParams ++ utf8 " params, " ++ Bytes.ofNat p.code.size ++ utf8 " instructions"

mutual

def outlineItem (lines : Array Bytes) : Prototype → OutlineItem
  | p@{ nested, .. } =>
    let first := (p.lineDefined - 1).toNat
    .mk (outlineName lines p) (outlineDetail p) first (max (p.lastLineDefined - 1).toNat first)
      (outlineItems lines nested)

def outlineItems (lines : Array Bytes) : List Prototype → List OutlineItem
  | [] => []
  | p :: rest => outlineItem lines p :: outlineItems lines rest

end

def outline (text : Bytes) (main : Prototype) : List OutlineItem :=
  outlineItems (Bytes.lines text).toArray main.nested

def Workspace.hover (w : Workspace) (uri : Bytes) (line : Nat) : Option Bytes := do
  Editor.hover (← (← w.document? uri).compiled) line

def Workspace.complete (w : Workspace) (uri : Bytes) (line character : Nat) :
    Option (List Completion) := do
  Editor.complete (← w.document? uri) line character

def Workspace.outline (w : Workspace) (uri : Bytes) : Option (List OutlineItem) := do
  let d ← w.document? uri
  return Editor.outline d.text (← d.compiled)

end LuaChunk.Editor
