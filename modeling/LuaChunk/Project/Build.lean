import LuaChunk.Compile.Chunk
import LuaChunk.Project.Resolve
import LuaChunk.Text.Bytes

/-!
Building a project: all its sources and those of its dependencies are compiled into an output
directory, the dependencies first and each under its module name. Compiled chunks are kept in the
project's cache. A source that does not compile is reported and does not stop the build.
-/

set_option autoImplicit false

namespace LuaChunk

/-- A source without its first line if that starts with `#`. The newline stays, so that lines keep
their numbers. -/
def skipShebang (source : Bytes) : Bytes :=
  match source with
  | 35 :: _ => source.dropWhile (· != 10)
  | _ => source

end LuaChunk

namespace LuaChunk.Project

open LuaChunk

structure SourceFile where
  path : Bytes
  inside : Bytes
  /-- the module of a dependency, empty for the project itself -/
  module : Bytes
  owner : Manifest

structure BuildOptions where
  /-- the output directory, seen from the project's directory -/
  outDir : Bytes
  force : Bool := false
  verbose : Bool := false

structure BuildReport where
  compiled : Nat := 0
  cached : Nat := 0
  failed : List Bytes := []
  out : Bytes := []

inductive BuildError where
  | resolve (e : ResolveError)
  | source (e : FileError)
  | cacheDir (e : FileError)
  | cacheFile (path : Bytes)
  | output (e : FileError)
  deriving DecidableEq, Repr

def BuildError.text : BuildError → Bytes
  | .resolve e => e.text
  | .source e => e.text
  | .cacheDir e => utf8 "creating cache dir: " ++ e.text
  | .cacheFile path => utf8 "opening database: " ++ path ++ utf8 ": not a database"
  | .output e => e.text

namespace Build

/-- The sources in a directory, in the order of a walk. A directory that is not there has none. -/
def sourcesIn (t : FileTree) (module : Bytes) (owner : Manifest) (dir : Bytes) :
    Except FileError (List SourceFile) :=
  match t.find [] dir with
  | .error .notFound => .ok []
  | .error fault => .error ⟨utf8 "lstat", dir, fault⟩
  | .ok place => .ok ((t.filesBelow place).filterMap fun file =>
      let path := Path.ofNames file
      let inside := match file.drop place.length with
        | [] => Path.dot
        | names => Bytes.joinWith [Path.slash] names
      if Bytes.endsWith path (utf8 ".lua") && !owner.excludes path then
        some { path, inside, module, owner }
      else none)

def collect (t : FileTree) (module : Bytes) (owner : Manifest) (dirs : List Bytes) :
    Except FileError (List SourceFile) :=
  (dirs.mapM (sourcesIn t module owner)).map List.flatten

/-- The manifest that rules the sources of a dependency; without its own they follow the project. -/
def ownerOf (root : Manifest) (r : Resolved) : Manifest :=
  r.manifest.getD { dir := r.path, style := root.style, strip := root.strip }

def sources (t : FileTree) (root : Manifest) (deps : List Resolved) :
    Except FileError (List SourceFile) := do
  let found ← deps.mapM fun r => collect t r.module (ownerOf root r) r.sourceDirs
  return found.flatten ++ (← collect t [] root root.sourceDirs)

/-- Opens the cache at a path; gives its place. Options after a question mark are no part of the
file's name. -/
def openCache (path : Bytes) : OnFiles BuildError Place := do
  makeDirectories (Path.parent path) .cacheDir
  let t ← get
  match t.findNew [] (path.takeWhile (· != byte '?')) with
  | .error _ => throw (.cacheFile path)
  | .ok place =>
    match t.lookup? place with
    | some (.database _) => pure ()
    | some (.file (_ :: _)) => throw (.cacheFile path)
    | _ => set (t.set place (.database {}))
    return place

def store (t : FileTree) (place : Place) : Cache.Store :=
  match t.lookup? place with
  | some (.database s) => s
  | _ => {}

def onStore {ε : Type} (place : Place) (change : Cache.Store → Cache.Store) : OnFiles ε Unit :=
  modify fun t => t.set place (.database (change (store t place)))

/-- The cached function of a key. A row that cannot be used is dropped. -/
def cached? {ε : Type} (place : Place) (key : Bytes) : OnFiles ε (Option Prototype) := do
  match (store (← get) place).get key with
  | .ok p => return some p
  | .error .notFound => return none
  | .error _ =>
    onStore place fun s => s.delete key
    return none

/-- Compiles one source, or takes it from the cache; the flag says which. -/
def compileSource (f : SourceFile) (strip force : Bool) (cache : Option Place) :
    OnFiles Bytes (Prototype × Bool) := do
  match (← get).read [] f.path with
  | .error e => throw e.text
  | .ok text =>
    let chunk := f.owner.chunkName f.path
    let key := Cache.key chunk text strip
    let hit ← match cache with
      | some place => if force then pure none else cached? place key
      | none => pure none
    match hit with
    | some p => return (p, true)
    | none =>
      match compile chunk (skipShebang text) with
      | .error e => throw (e.text?.getD [])
      | .ok p =>
        let p := if strip then p.strip else p
        match cache with
        | some place => onStore place fun s => s.put key chunk p
        | none => pure ()
        return (p, false)

/-- Where the compiled chunk of a source goes. -/
def destination (outDir : Bytes) (f : SourceFile) : Bytes :=
  let name := (Bytes.dropSuffix? (utf8 ".lua") f.inside).getD f.inside ++ utf8 ".luac"
  Path.join [outDir, f.module, name]

def writeChunk (outDir : Bytes) (f : SourceFile) (p : Prototype) : OnFiles BuildError Unit := do
  let dest := destination outDir f
  makeDirectories (Path.parent dest) .output
  writeFile dest (Wire.encode p) .output

def reportLine (f : SourceFile) (p : Prototype) (cached : Bool) : Bytes :=
  Bytes.padRight 8 (if cached then utf8 "cached" else utf8 "compiled") ++ utf8 " "
    ++ p.fingerprint.take 12 ++ utf8 " " ++ f.owner.chunkName f.path ++ utf8 "\n"

def buildSource (root : Manifest) (o : BuildOptions) (outDir : Bytes) (cache : Option Place)
    (r : BuildReport) (f : SourceFile) : OnFiles BuildError BuildReport := do
  let outcome := (compileSource f root.strip o.force cache).run (← get)
  match outcome with
  | .error e t =>
    set t
    return { r with failed := r.failed ++ [e] }
  | .ok (p, cached) t =>
    set t
    writeChunk outDir f p
    let r := if cached then { r with cached := r.cached + 1 }
      else { r with compiled := r.compiled + 1 }
    return { r with out := if o.verbose then r.out ++ reportLine f p cached else r.out }

end Build

def build (root : Manifest) (o : BuildOptions) (git : Git := .missing)
    (bound : FileTree → Nat := fun t => Resolve.depthBound t root) : OnFiles BuildError
    BuildReport := do
  let deps ← EStateM.adaptExcept BuildError.resolve (resolve root git bound)
  match Build.sources (← get) root deps with
  | .error e => throw (.source e)
  | .ok files =>
    let cache ← if root.cacheEnabled then some <$> Build.openCache root.cacheFile else pure none
    let outDir := if Path.isAbsolute o.outDir then o.outDir else Path.join [root.dir, o.outDir]
    files.foldlM (Build.buildSource root o outDir cache) {}

end LuaChunk.Project
