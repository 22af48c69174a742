import LuaChunk.Source.Token

/-!
What can go wrong with a chunk. A compilation reports one error, the first that it meets: its kind,
the line, a message, and the token it was found at. Messages name the chunk by its short form.
-/

set_option autoImplicit false

namespace LuaChunk

inductive ErrorKind where
  | lexical
  | syntactic
  /-- a rule about scopes, gotos, constants or declarations -/
  | semantic
  | limit
  deriving DecidableEq, Repr

namespace ErrorKind

def all : Array ErrorKind := #[.lexical, .syntactic, .semantic, .limit]

def text : ErrorKind → Bytes
  | .lexical => utf8 "lexical"
  | .syntactic => utf8 "syntax"
  | .semantic => utf8 "semantic"
  | .limit => utf8 "limit"

def textOf? (n : Int) : Option Bytes :=
  if n < 0 then none
  else match all[n.toNat]? with
    | some k => some k.text
    | none => some (utf8 "ErrorKind(" ++ Bytes.ofInt n ++ utf8 ")")

end ErrorKind

/-- The longest short form of a chunk's name, one more than its bytes. -/
def chunkIdSize : Nat := 60

/-- The short form of a chunk's name. After `=` stands a literal name, cut at its end; after `@` a
file name, cut at its start; any other name is source text, of which the first line is shown. -/
def chunkId (source : Bytes) : Bytes :=
  let shown := fun (s : Bytes) => utf8 "[string \"" ++ s ++ utf8 "\"]"
  let room := chunkIdSize - 15
  let text :=
    let line := source.takeWhile (· != 10)
    if source.length < room && line.length = source.length then shown source
    else shown (line.take room ++ utf8 "...")
  match source with
  | [] => text
  | c :: name =>
    if c = byte '=' then name.take (chunkIdSize - 1)
    else if c = byte '@' then
      if name.length ≤ chunkIdSize - 1 then name
      else utf8 "..." ++ name.drop (name.length - (chunkIdSize - 4))
    else text

structure CompileError where
  kind : ErrorKind
  source : Bytes
  line : Nat
  message : Bytes
  near : Bytes
  deriving DecidableEq, Repr

namespace CompileError

def text (e : CompileError) : Bytes :=
  chunkId e.source ++ utf8 ":" ++ Bytes.ofNat e.line ++ utf8 ": " ++ e.message
    ++ (if e.near.isEmpty then [] else utf8 " near " ++ e.near)

def isIncomplete (e : CompileError) : Bool := e.near == TokenKind.eos.text

end CompileError

/-- A condition that holds in every compilation and is checked all the same. -/
inductive Assertion where
  | freedInOrder (reg top : Int)
  | blockWithoutTemporaries
  | registerLevel
  | storeToVariable
  | notOfValue
  | indexInRange
  | boundedLoop
  | advancingLoop
  deriving DecidableEq, Repr

/-- Why a compilation ends without a result. -/
inductive Failure where
  | error (e : CompileError)
  | read (message : Bytes)
  | broken (a : Assertion)
  deriving DecidableEq, Repr

namespace Failure

def isIncomplete : Failure → Bool
  | .error e => e.isIncomplete
  | _ => false

/-- The text of a failure, none for one that no input brings about. -/
def text? : Failure → Option Bytes
  | .error e => some e.text
  | .read message => some message
  | .broken _ => none

end Failure

end LuaChunk
