import LuaChunk.Interner
import LuaChunk.Source.Reader
import LuaChunk.Source.Error

/-!
The stream of tokens. `Lexer.next` moves to the next token and `Lexer.lookahead` reads one further
without moving. A table tells reserved words from names by their numbers; names and strings are
noted as they are read, to be interned.

The input may end in a failure of whatever delivers it. The byte after a token is read together with
the token, so the failure is met as soon as a token, or a malformed one, leaves nothing.
-/

set_option autoImplicit false

namespace LuaChunk

structure Lexer where
  input : Bytes
  line : Nat := 1
  lastLine : Nat := 1
  token : Token := .eos
  number : Nat := 0
  /-- how many tokens have been passed, the end of the stream not counted -/
  taken : Nat := 0
  ahead : Option Token := none
  /-- the numbers of reserved words, zero for all other words -/
  numberOf : Bytes → Nat
  /-- the texts read so far that are to be interned, in order -/
  noted : Array Bytes := #[]
  /-- the names passed so far by the numbers of their tokens, each with the number of the token that
  declares the local variable it stands for, if it stands for one -/
  bindings : Array (Nat × Option Nat) := #[]
  source : Bytes
  /-- what happens at the end of the input, if it does not just end -/
  failure : Option Bytes := none

namespace Lexer

abbrev M := EStateM Failure Lexer

def readFailure (source failure : Bytes) : Failure :=
  .read (utf8 "reading " ++ chunkId source ++ utf8 ": " ++ failure)

def checkRead (rest : Bytes) : M Unit := do
  match rest, (← get).failure with
  | [], some failure => throw (readFailure (← get).source failure)
  | _, _ => pure ()

def tokenOf (numberOf : Bytes → Nat) : Scan.Lexeme → Token
  | .byte b => .byte b
  | .symbol s => .symbol s
  | .eos => .eos
  | .number (.int n) raw => .integer n raw
  | .number (.float x) raw => .float x raw
  | .string s raw => .string s raw
  | .word s =>
    match numberOf s with
    | 0 => .name s
    | r + 1 =>
      match TokenKind.named[r]? with
      | some k => .ofKind k
      | none => .name s

def internedText? : Scan.Lexeme → Option Bytes
  | .word s => some s
  | .string s _ => some s
  | _ => none

def note (s : Bytes) : M Unit := modify fun l => { l with noted := l.noted.push s }

def scan : M Token := do
  let { input, line, numberOf, source, .. } ← get
  match Reader.scan input line with
  | .error .outOfRange => throw (.broken .indexInRange)
  | .error (.fault f) =>
    checkRead f.place.rest
    throw (.error ⟨.lexical, source, f.place.line, f.message, f.near⟩)
  | .ok (lexeme, c) =>
    checkRead c.rest
    modify fun l => { l with input := c.rest, line := c.line }
    match internedText? lexeme with
    | some s => note s
    | none => pure ()
    pure (tokenOf numberOf lexeme)

def weight (t : Token) : Nat := if t.kind = .eos then 0 else 1

def next : M Unit := do
  modify fun l => { l with
    lastLine := l.line, number := l.number + 1, taken := l.taken + weight l.token }
  match (← get).ahead with
  | some t => modify fun l => { l with token := t, ahead := none }
  | none =>
    let t ← scan
    modify fun l => { l with token := t }

/-- Passes a name, given the number of the token that declares what it stands for. -/
def nextName (declaration : Option Nat) : M Unit := do
  modify fun l => { l with bindings := l.bindings.push (l.number, declaration) }
  next

def lookahead : M TokenKind := do
  match (← get).ahead with
  | some t => pure t.kind
  | none =>
    let t ← scan
    modify fun l => { l with ahead := some t }
    pure t.kind

/-- A lexer at the start of a chunk, before its first token. -/
def start (input source : Bytes) (table : Interner) (failure : Option Bytes) : Lexer :=
  { input, source, failure, numberOf := (table.markAll Keyword.words).reservedIndex }

def internAll (l : Lexer) (table : Interner) : Interner :=
  l.noted.foldl Interner.intern (table.markAll Keyword.words)

end Lexer

end LuaChunk
