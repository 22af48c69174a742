import LuaChunk.CommandLine.Flags
import LuaChunk.CommandLine.Sources
import LuaChunk.Doctest
import LuaChunk.Interactive
import LuaChunk.Project.Build

/-!
The whole command. `Action.ofArgs` says what a command line asks for, and `run` does it on a tree of
files: it compiles files, builds the project around the current directory, checks the examples of
Markdown files, or talks to the user.
-/

set_option autoImplicit false

namespace LuaChunk.CommandLine

open LuaChunk

def mainFlags : FlagSet := [
  .count "l" "List the generated bytecode (twice for constants, locals and upvalues)",
  .switch "p" "Parse only, do not write output",
  .switch "s" "Strip debug information",
  .text "o" "lunac.out" "Output file",
  .count "v" "Verbose logging (repeat for more)",
  .switch "i" "Start interactive REPL",
  .switch "serve" "Start language server on stdio",
  .switch "version" "Print version and exit"]

def buildFlags : FlagSet := [
  .text "o" ".lunac/build" "Output directory",
  .switch "force" "Ignore the compile cache",
  .switch "v" "Report every file"]

def doctestFlags : FlagSet := [.switch "v" "Show every block"]

def mainUsage : Bytes :=
  utf8 "Usage: lunac [options] [files...]\n\n"
    ++ utf8 "Compiles Lua source files. A file named '-' is read from stdin.\n\n"
    ++ utf8 "Options:\n" ++ mainFlags.table
    ++ utf8 "\nCommands:\n"
    ++ utf8 "  lunac build [-o dir] [-force]  # Compile the project described by lunac.toml\n"
    ++ utf8 "  lunac doctest files.md...      # Compile the ```lua blocks of markdown files\n"
    ++ utf8 "\nExamples:\n"
    ++ utf8 "  lunac -l hello.lua             # Compile and list\n"
    ++ utf8 "  lunac -p src/*.lua             # Syntax check only\n"
    ++ utf8 "  lunac -i                       # Start REPL\n"

def commandUsage (name : String) (flags : FlagSet) : Bytes :=
  utf8 "Usage of " ++ utf8 name ++ utf8 ":\n" ++ flags.table

inductive Action where
  /-- print a usage after what is wrong with the command line, and end with a status -/
  | refuse (message : Option Bytes) (usage : Bytes) (status : Nat)
  | version
  | serve
  | interact
  | compile (options : SourceOptions) (paths : List Bytes)
  | build (options : Project.BuildOptions)
  | doctest (verbose : Bool) (files : List Bytes)

namespace Action

def ofMainArgs (args : List Bytes) : Action :=
  match mainFlags.read args with
  | .error e => .refuse e.text? mainUsage (if e = .help then 0 else 2)
  | .ok (s, paths) =>
    if s.isOn "version" then .version
    else if s.isOn "serve" then .serve
    else if s.isOn "i" || paths.isEmpty then .interact
    else
      let options : SourceOptions :=
        ⟨s.count "l", s.isOn "p", s.isOn "s", s.text "o"⟩
      .compile options paths

def ofBuildArgs (args : List Bytes) : Action :=
  match buildFlags.read args with
  | .error e => .refuse e.text? (commandUsage "build" buildFlags) 2
  | .ok (s, _) => .build { outDir := s.text "o", force := s.isOn "force", verbose := s.isOn "v" }

def ofDoctestArgs (args : List Bytes) : Action :=
  match doctestFlags.read args with
  | .error e => .refuse e.text? (commandUsage "doctest" doctestFlags) 2
  | .ok (s, files) => .doctest (s.isOn "v") files

def ofArgs (args : List Bytes) : Action :=
  match args with
  | [] => ofMainArgs []
  | command :: rest =>
    if command = utf8 "build" then ofBuildArgs rest
    else if command = utf8 "doctest" then ofDoctestArgs rest
    else ofMainArgs args

end Action

/-- What the command sees besides the files. -/
structure Surroundings where
  cwd : Place
  home : Bytes
  stdin : Bytes := []
  /-- how long checking examples takes, as it is shown -/
  elapsed : Bytes := []

/-- What the command leaves behind. -/
structure Outcome where
  status : Nat := 0
  out : Bytes := []
  err : Bytes := []
  files : FileTree

def errorLine (head : String) (message : Bytes) : Bytes := utf8 head ++ message ++ utf8 "\n"

def historyFile (home : Bytes) : Bytes := Path.join [home, utf8 ".lunac_history"]

def loadHistory (t : FileTree) (w : Surroundings) : Interactive.History :=
  match t.read w.cwd (historyFile w.home) with
  | .ok content => .ofFile content
  | .error _ => {}

def saveHistory (t : FileTree) (w : Surroundings) (h : Interactive.History) : FileTree :=
  match t.write w.cwd (historyFile w.home) h.toFile with
  | .ok t => t
  | .error _ => t

def runInteractive (w : Surroundings) (t : FileTree) : Outcome :=
  let (out, history) := Interactive.converse (loadHistory t w) w.stdin
  { out, files := saveHistory t w history }

def runCompile (w : Surroundings) (t : FileTree) (o : SourceOptions) (paths : List Bytes) :
    Outcome :=
  match compileSources t w.cwd o w.stdin paths with
  | (out, files, none) => { out, files }
  | (out, files, some e) => { status := 1, out, err := errorLine "lunac: " e.text, files }

def buildSummary (r : Project.BuildReport) : Bytes :=
  Bytes.ofNat r.compiled ++ utf8 " compiled, " ++ Bytes.ofNat r.cached ++ utf8 " cached, "
    ++ Bytes.ofNat r.failed.length ++ utf8 " failed\n"

def runBuild (w : Surroundings) (t : FileTree) (o : Project.BuildOptions) : Outcome :=
  match Project.Manifest.find t (Path.ofNames w.cwd) with
  | none => { status := 1, err := utf8 "Error: no lunac.toml found\n", files := t }
  | some (.error e) =>
    { status := 1, err := errorLine "Error loading manifest: " e.text, files := t }
  | some (.ok m) =>
    match (Project.build m o).run t with
    | .error e files => { status := 1, err := errorLine "Error: " e.text, files }
    | .ok r files => {
        status := if r.failed.isEmpty then 0 else 1
        out := r.out ++ buildSummary r
        err := r.failed.flatMap (errorLine "")
        files }

def checkFiles (t : FileTree) (cwd : Place) (paths : List Bytes) :
    Except FileError (List Doctest.Result) :=
  (paths.mapM fun path => (t.read cwd path).map (Doctest.check path)).map List.flatten

def showResults (t : FileTree) (verbose : Bool) (elapsed : Bytes) :
    Except FileError (List Doctest.Result) → Outcome
  | .error e => { status := 1, err := errorLine "Error: " e.text, files := t }
  | .ok rs => {
      status := if Doctest.failedCount rs = 0 then 0 else 1
      out := Doctest.report verbose rs ++ Doctest.summary rs elapsed
      files := t }

def runDoctest (w : Surroundings) (t : FileTree) (verbose : Bool) (paths : List Bytes) : Outcome :=
  if paths.isEmpty then
    { status := 2, err := utf8 "Error: doctest needs at least one markdown file\n", files := t }
  else showResults t verbose w.elapsed (checkFiles t w.cwd paths)

def Action.run (w : Surroundings) (t : FileTree) : Action → Outcome
  | .refuse message usage status =>
    { status, err := ((message.map (errorLine "")).getD []) ++ usage, files := t }
  | .version => { out := utf8 "lunac " ++ LuaChunk.version ++ utf8 "\n", files := t }
  | .serve => { status := 1, err := utf8 "Server error: no connection\n", files := t }
  | .interact => runInteractive w t
  | .compile options paths => runCompile w t options paths
  | .build options => runBuild w t options
  | .doctest verbose files => runDoctest w t verbose files

def run (w : Surroundings) (args : List Bytes) (t : FileTree) : Outcome :=
  (Action.ofArgs args).run w t

end LuaChunk.CommandLine
