import LuaChunk.Code.Listing
import LuaChunk.Compile.Chunk
import LuaChunk.Files.Tree
import LuaChunk.Project.Build
import LuaChunk.Wire.Form

/-!
Compiling the source files named on a command line. A file named `-` is the standard input. One file
is compiled to an output file; several can only be checked.
-/

set_option autoImplicit false

namespace LuaChunk.CommandLine

open LuaChunk

structure SourceOptions where
  /-- how much of the compiled code is listed: nothing, the code, or all -/
  list : Nat := 0
  checkOnly : Bool := false
  strip : Bool := false
  output : Bytes := utf8 "lunac.out"

inductive SourceError where
  | severalFiles
  | unreadable (path : Bytes) (e : FileError)
  | unwritable (path : Bytes) (e : FileError)
  | invalid (e : Failure)

def SourceError.text : SourceError → Bytes
  | .severalFiles => utf8 "only one input file may be written; use -p to check several"
  | .unreadable path e => utf8 "cannot open " ++ path ++ utf8 ": " ++ e.text
  | .unwritable path e => utf8 "cannot write " ++ path ++ utf8 ": " ++ e.text
  | .invalid e => e.text?.getD []

namespace Sources

def stdinName : Bytes := utf8 "-"

/-- The chunk name and the text of a source, and what is left of the standard input. -/
def source (t : FileTree) (cwd : Place) (stdin path : Bytes) :
    Except SourceError (Bytes × Bytes × Bytes) :=
  if path = stdinName then .ok (utf8 "=stdin", stdin, [])
  else match t.read cwd path with
    | .error e => .error (.unreadable path e)
    | .ok text => .ok (utf8 "@" ++ path, skipShebang text, stdin)

/-- Compiles a source; gives the function and what is left of the standard input. -/
def compileOne (t : FileTree) (cwd : Place) (strip : Bool) (stdin path : Bytes) :
    Except SourceError (Prototype × Bytes) := do
  let (chunk, text, stdin) ← source t cwd stdin path
  match compile chunk text with
  | .error e => .error (.invalid e)
  | .ok p => .ok (if strip then p.strip else p, stdin)

def listing (o : SourceOptions) (p : Prototype) : Bytes :=
  if o.list = 0 then [] else (Listing.listing? (1 < o.list) p).getD []

/-- Compiles sources in turn until one fails; gives what is listed, and the last function. -/
def compileAll (t : FileTree) (cwd : Place) (o : SourceOptions) :
    (stdin : Bytes) → (last : Option Prototype) → List Bytes →
    Bytes × Except SourceError (Option Prototype)
  | _, last, [] => ([], .ok last)
  | stdin, _, path :: rest =>
    match compileOne t cwd o.strip stdin path with
    | .error e => ([], .error e)
    | .ok (p, stdin) =>
      let (out, result) := compileAll t cwd o stdin (some p) rest
      (listing o p ++ out, result)

def writeOutput (t : FileTree) (cwd : Place) (o : SourceOptions) (p : Option Prototype) :
    Except SourceError FileTree :=
  match p with
  | none => .ok t
  | some p =>
    if o.checkOnly then .ok t
    else (t.write cwd o.output (Wire.encode p)).mapError (.unwritable o.output)

end Sources

/-- Compiles the files of a command line; gives what is printed, the files afterwards, and what went
wrong. -/
def compileSources (t : FileTree) (cwd : Place) (o : SourceOptions) (stdin : Bytes)
    (paths : List Bytes) : Bytes × FileTree × Option SourceError :=
  if !o.checkOnly && 1 < paths.length then ([], t, some .severalFiles)
  else
    let (out, result) := Sources.compileAll t cwd o stdin none paths
    match result.bind (Sources.writeOutput t cwd o) with
    | .error e => (out, t, some e)
    | .ok t => (out, t, none)

end LuaChunk.CommandLine
