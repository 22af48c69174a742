import LuaChunk.Assoc
import LuaChunk.Compile.Chunk

/-!
Documents open in an editor. Each text that arrives is compiled at once; a text that does not
compile leaves the function of an earlier text in place, so that features which show compiled code
keep working while the user types.

The texts that the editor shows and the states that the compiler keeps of documents are two tables.
All documents share one table of names.
-/

set_option autoImplicit false

namespace LuaChunk.Editor

open LuaChunk

/-- What the compiler keeps of a document: its latest text, the function of the latest text that
compiled, and the error of the latest text if it did not. -/
structure Compiled where
  text : Bytes
  function : Option Prototype := none
  error : Option CompileError := none

structure Compiler where
  documents : List (Bytes × Compiled) := []
  interner : Interner := .empty

structure Workspace where
  texts : List (Bytes × Bytes) := []
  compiler : Compiler := {}

/-- An open document as features see it. -/
structure Document where
  text : Bytes
  compiled : Option Prototype := none

/-- An error shown in a document: it covers one line, counted from zero, of so many bytes. -/
structure Diagnostic where
  line : Nat
  width : Nat
  kind : ErrorKind
  message : Bytes
  deriving DecidableEq, Repr

/-- The name under which a document is compiled: the path of a file, or the whole address. -/
def chunkName (uri : Bytes) : Bytes :=
  byte '@' :: ((Bytes.dropPrefix? (utf8 "file://") uri).getD uri)

/-- A compile error as the document's line shows it. -/
def Diagnostic.ofError (e : CompileError) (text : Bytes) : Diagnostic where
  line := e.line - 1
  width := (((Bytes.lines text)[e.line - 1]?).map List.length).getD 0
  kind := e.kind
  message := e.message ++ (if e.near.isEmpty then [] else utf8 " near " ++ e.near)

namespace Compiler

def document? (c : Compiler) (uri : Bytes) : Option Compiled := c.documents.lookup uri

def function? (c : Compiler) (uri : Bytes) : Option Prototype :=
  (c.document? uri).bind Compiled.function

/-- Compiles a text of a document, which keeps its function if the text does not compile. -/
def update (c : Compiler) (uri text : Bytes) : Compiler × Compiled :=
  let o := Compile.run { chunk := chunkName uri, interner := c.interner } text
  let d : Compiled := match o.result with
    | .ok p => { text, function := some p }
    | .error (.error e) => { text, function := c.function? uri, error := some e }
    | .error _ => { text, function := c.function? uri }
  ({ documents := Assoc.insert uri d c.documents, interner := o.interner }, d)

def close (c : Compiler) (uri : Bytes) : Compiler :=
  { c with documents := Assoc.erase uri c.documents }

end Compiler

/-- An edit as the editor reports it: a whole new text, or the change of a part. -/
inductive Workspace.Change where
  | whole (text : Bytes)
  | part
  deriving DecidableEq, Repr

namespace Workspace

def document? (w : Workspace) (uri : Bytes) : Option Document :=
  (w.texts.lookup uri).map fun text => { text, compiled := w.compiler.function? uri }

def close (w : Workspace) (uri : Bytes) : Workspace :=
  { texts := Assoc.erase uri w.texts, compiler := w.compiler.close uri }

/-- Gives a document its text. A document that was not open is opened. -/
def setText (w : Workspace) (uri text : Bytes) : Workspace × List Diagnostic :=
  let (compiler, d) := w.compiler.update uri text
  ({ texts := Assoc.insert uri text w.texts, compiler }, (d.error.map (.ofError · text)).toList)

/-- Takes the last of several edits; one that reports only a part is not taken. -/
def change (w : Workspace) (uri : Bytes) (edits : List Change) :
    Workspace × Option (List Diagnostic) :=
  match edits.getLast? with
  | some (.whole text) =>
    let (w, ds) := w.setText uri text
    (w, some ds)
  | _ => (w, none)

end Workspace

/-- What the editor tells: a document is opened with a text, is edited, or is closed. -/
inductive Notification where
  | opened (uri text : Bytes)
  | changed (uri : Bytes) (edits : List Workspace.Change)
  | closed (uri : Bytes)
  deriving DecidableEq, Repr

def Notification.uri : Notification → Bytes
  | .opened uri _ | .changed uri _ | .closed uri => uri

/-- Takes a notification; gives the diagnostics that are published for its document, if any are. -/
def Workspace.notify (w : Workspace) : Notification → Workspace × Option (List Diagnostic)
  | .opened uri text =>
    let (w, ds) := w.setText uri text
    (w, some ds)
  | .changed uri edits => w.change uri edits
  | .closed uri => (w.close uri, some [])

end LuaChunk.Editor
