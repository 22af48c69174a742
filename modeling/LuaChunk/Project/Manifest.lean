import LuaChunk.Files.Glob
import LuaChunk.Files.Tree
import LuaChunk.Text.Quoted
import LuaChunk.Toml.Document

/-!
Project manifests. A directory with a manifest file is a project: the manifest names its source
directories, how its chunks are compiled and cached, and the projects it depends on.
-/

set_option autoImplicit false

namespace LuaChunk.Project

open LuaChunk

def manifestName : Bytes := utf8 "lunac.toml"

/-- Where a dependency comes from: a repository with a tag, or a directory. -/
structure Dependency where
  git : Bytes := []
  tag : Bytes := []
  path : Bytes := []
  deriving DecidableEq, Repr

/-- How chunks are named: after their files, or by a literal name. -/
inductive ChunkStyle where
  | file
  | literal
  deriving DecidableEq, Repr

def ChunkStyle.mark : ChunkStyle → Bytes
  | .file => utf8 "@"
  | .literal => utf8 "="

def ChunkStyle.ofMark? (s : Bytes) : Option ChunkStyle :=
  if s.isEmpty || s = utf8 "@" then some .file else if s = utf8 "=" then some .literal else none

structure Manifest where
  name : Bytes := []
  version : Bytes := []
  /-- the source directories, seen from the project's directory -/
  dirs : List Bytes := []
  exclude : List (Bytes × Glob) := []
  strip : Bool := false
  style : ChunkStyle := .file
  cacheEnabled : Bool := true
  cachePath : Bytes := []
  dependencies : List (Bytes × Dependency) := []
  dir : Bytes

/-- What the text of a manifest says, before anything left out is filled in. -/
structure ManifestText where
  name : Bytes := []
  version : Bytes := []
  dirs : List Bytes := []
  exclude : List Bytes := []
  strip : Bool := false
  mark : Bytes := []
  cacheEnabled : Option Bool := none
  cachePath : Bytes := []
  dependencies : List (Bytes × Dependency) := []

/-- A character without its case, as far as it matters for names in ASCII letters. -/
def foldCase : Utf8.Rune → Utf8.Rune
  | .char 0x17F => .char 115
  | .char 0x212A => .char 107
  | .char c => .char (if 65 ≤ c && c ≤ 90 then c + 32 else c)
  | r => r

def isField (field : String) (key : Bytes) : Bool :=
  (Utf8.runes key).map foldCase == Utf8.runes (utf8 field)

def asString : Toml.Value → Except Toml.Error Bytes
  | .string s => .ok s
  | _ => .error .mismatch

def asBoolean : Toml.Value → Except Toml.Error Bool
  | .boolean b => .ok b
  | _ => .error .mismatch

def asTable : Toml.Value → Except Toml.Error Toml.Table
  | .table t => .ok t
  | _ => .error .mismatch

def asList : Toml.Value → Except Toml.Error (List Toml.Value)
  | .array items => .ok items
  | .tables rows => .ok (rows.map .table)
  | _ => .error .mismatch

def asStrings (v : Toml.Value) : Except Toml.Error (List Bytes) := do (← asList v).mapM asString

def setDependency (d : Dependency) : Bytes × Toml.Value → Except Toml.Error Dependency
  | (k, v) => do
    if isField "git" k then return { d with git := ← asString v }
    if isField "tag" k then return { d with tag := ← asString v }
    if isField "path" k then return { d with path := ← asString v }
    return d

def readDependencies (v : Toml.Value) : Except Toml.Error (List (Bytes × Dependency)) :=
  match v with
  | .table t => t.mapM fun (name, v) => do
    return (name, ← (← asTable v).foldlM setDependency {})
  | _ => .ok []

def setProject (m : ManifestText) : Bytes × Toml.Value → Except Toml.Error ManifestText
  | (k, v) => do
    if isField "name" k then return { m with name := ← asString v }
    if isField "version" k then return { m with version := ← asString v }
    return m

def setSource (m : ManifestText) : Bytes × Toml.Value → Except Toml.Error ManifestText
  | (k, v) => do
    if isField "dirs" k then return { m with dirs := ← asStrings v }
    if isField "exclude" k then return { m with exclude := ← asStrings v }
    return m

def setCompile (m : ManifestText) : Bytes × Toml.Value → Except Toml.Error ManifestText
  | (k, v) => do
    if isField "strip" k then return { m with strip := ← asBoolean v }
    if isField "chunk-prefix" k then return { m with mark := ← asString v }
    return m

def setCache (m : ManifestText) : Bytes × Toml.Value → Except Toml.Error ManifestText
  | (k, v) => do
    if isField "enabled" k then return { m with cacheEnabled := some (← asBoolean v) }
    if isField "path" k then return { m with cachePath := ← asString v }
    return m

/-- Takes one entry of a manifest; what it does not know it passes over. -/
def setSection (m : ManifestText) : Bytes × Toml.Value → Except Toml.Error ManifestText
  | (k, v) => do
    if isField "project" k then return ← (← asTable v).foldlM setProject m
    if isField "source" k then return ← (← asTable v).foldlM setSource m
    if isField "compile" k then return ← (← asTable v).foldlM setCompile m
    if isField "cache" k then return ← (← asTable v).foldlM setCache m
    if isField "dependencies" k then
      return { m with dependencies := m.dependencies ++ (← readDependencies v) }
    return m

def ManifestText.read (text : Bytes) : Except Toml.Error ManifestText := do
  (← Toml.read text).foldlM setSection {}

inductive ManifestError where
  | unreadable (path : Bytes) (e : FileError)
  | malformed (path : Bytes) (e : Toml.Error)
  | badStyle (path mark : Bytes)
  | badPattern (path pattern : Bytes)
  deriving DecidableEq, Repr

def ManifestError.text : ManifestError → Bytes
  | .unreadable path e => utf8 "cannot read " ++ path ++ utf8 ": " ++ e.text
  | .malformed path e => utf8 "parse error in " ++ path ++ utf8 ": " ++ e.text
  | .badStyle path mark =>
    path ++ utf8 ": chunk-prefix must be \"@\" or \"=\", not " ++ Text.quoted mark
  | .badPattern path pattern =>
    path ++ utf8 ": bad exclude pattern " ++ Text.quoted pattern ++ utf8 ": syntax error in pattern"

def readPattern (path pattern : Bytes) : Except ManifestError (Bytes × Glob) :=
  match Glob.read? pattern with
  | some g => .ok (pattern, g)
  | none => .error (.badPattern path pattern)

/-- Fills in what a manifest leaves out, and checks what it says. -/
def ManifestText.complete (m : ManifestText) (path dir : Bytes) :
    Except ManifestError Manifest := do
  match ChunkStyle.ofMark? m.mark with
  | none => .error (.badStyle path m.mark)
  | some style =>
    let exclude ← m.exclude.mapM (readPattern path)
    return {
      name := m.name, version := m.version
      dirs := if m.dirs.isEmpty then [utf8 "src"] else m.dirs
      exclude, strip := m.strip, style
      cacheEnabled := m.cacheEnabled.getD true
      cachePath := if m.cachePath.isEmpty then utf8 ".lunac/cache.db" else m.cachePath
      dependencies := m.dependencies, dir }

namespace Manifest

/-- Loads the manifest of a directory, whose path is absolute. -/
def load (t : FileTree) (dir : Bytes) : Except ManifestError Manifest :=
  let path := Path.join [dir, manifestName]
  match t.read [] path with
  | .error e => .error (.unreadable path e)
  | .ok text =>
    match ManifestText.read text with
    | .error e => .error (.malformed path e)
    | .ok m => m.complete path (Path.clean dir)

/-- The manifest of the directory with these names, which are in reverse, if it has one. -/
def here (t : FileTree) (names : List Bytes) : Option (Except ManifestError Manifest) :=
  let dir := Path.ofNames names.reverse
  if t.exists_ [] (Path.join [dir, manifestName]) then some (load t dir) else none

def findUp (t : FileTree) : List Bytes → Option (Except ManifestError Manifest)
  | [] => here t []
  | name :: above =>
    match here t (name :: above) with
    | some m => some m
    | none => findUp t above

def find (t : FileTree) (dir : Bytes) : Option (Except ManifestError Manifest) :=
  findUp t (Path.cleanNames dir).reverse

def sourceDirs (m : Manifest) : List Bytes := m.dirs.map fun d => Path.join [m.dir, d]

def excludes (m : Manifest) (path : Bytes) : Bool :=
  m.exclude.any fun (_, g) => g.fits (Path.base path)

/-- The name of a file's chunk: its path in the project, or the whole path of a file elsewhere. -/
def chunkName (m : Manifest) (path : Bytes) : Bytes :=
  let inside := (Path.relative? m.dir path).filter fun r => !Bytes.startsWith r Path.dotDot
  m.style.mark ++ inside.getD path

def cacheFile (m : Manifest) : Bytes :=
  if Path.isAbsolute m.cachePath then m.cachePath else Path.join [m.dir, m.cachePath]

def depsDir (m : Manifest) : Bytes := Path.join [m.dir, utf8 ".lunac", utf8 "deps"]

def lockFile (m : Manifest) : Bytes := Path.join [m.dir, utf8 ".lunac", utf8 "lock.toml"]

end Manifest

end LuaChunk.Project
