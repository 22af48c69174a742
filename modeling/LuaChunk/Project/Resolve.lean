import LuaChunk.Project.Git
import LuaChunk.Project.Lock
import LuaChunk.Project.ModuleName

/-!
Resolving dependencies. Each dependency that a project's manifest names, and each that the manifest
of a dependency names in turn, is resolved once, by name: the first one met counts. Names are met in
order, and a dependency comes after those of its own manifest.
-/

set_option autoImplicit false

namespace LuaChunk.Project

open LuaChunk

structure Resolved where
  name : Bytes
  module : Bytes
  path : Bytes
  /-- a directory without a manifest is a plain source tree -/
  manifest : Option Manifest

def Resolved.sourceDirs (r : Resolved) : List Bytes :=
  match r.manifest with
  | some m => m.sourceDirs
  | none => [r.path]

/-- What the manifest of a dependency declares; a plain source tree declares nothing. -/
def Resolved.declared (r : Resolved) : List (Bytes × Dependency) :=
  match r.manifest with
  | some m => m.dependencies
  | none => []

/-- The directory from which its declarations are seen. -/
def Resolved.dir (r : Resolved) : Bytes :=
  match r.manifest with
  | some m => m.dir
  | none => r.path

/-- Why a dependency cannot be resolved. -/
inductive DependencyFault where
  | badName (e : BadName)
  | missing (name path : Bytes) (e : FileError)
  | noSource (name : Bytes)
  | depsDir (e : FileError)
  /-- what a command to the version control system says -/
  | repository (message : Bytes)
  deriving DecidableEq, Repr

def DependencyFault.text : DependencyFault → Bytes
  | .badName e => e.text
  | .missing name path e => utf8 "local dependency " ++ Text.quoted name ++ utf8 " not found at "
      ++ path ++ utf8 ": " ++ e.text
  | .noSource name => utf8 "dependency " ++ Text.quoted name ++ utf8 " has no git or path specified"
  | .depsDir e => utf8 "creating deps dir: " ++ e.text
  | .repository message => message

inductive ResolveError where
  | unreadableLock (path : Bytes) (e : Toml.Error)
  | dependency (name : Bytes) (fault : DependencyFault)
  | unwritableLock (e : FileError)
  /-- dependencies are nested deeper than the bound of the resolution -/
  | tooDeep
  deriving DecidableEq, Repr

def ResolveError.text : ResolveError → Bytes
  | .unreadableLock path e =>
    utf8 "reading lock file: parse error in " ++ path ++ utf8 ": " ++ e.text
  | .dependency name fault => utf8 "resolving " ++ name ++ utf8 ": " ++ fault.text
  | .unwritableLock e => utf8 "writing lock file: " ++ e.text
  | .tooDeep => utf8 "dependencies nested too deep"

/-- Names with what belongs to them, in order. -/
def sortByName {α : Type} (deps : List (Bytes × α)) : List (Bytes × α) :=
  deps.mergeSort fun a b => Bytes.le a.1 b.1

namespace Resolve

/-- Clones a repository, or fetches what is new in it where the lock file has not its tag. -/
def fetchRepository (git : Git) (lock : List LockedDep) (name : Bytes) (d : Dependency)
    (dir : Bytes) :
    OnFiles Bytes Unit := do
  match (← get).findEntry [] dir with
  | .error .notFound => git.clone d.git dir
  | _ => if (Lock.find? lock name).map (·.tag) ≠ some d.tag then git.fetch dir

/-- Puts a repository into a directory, with the wanted tag if there is one. -/
def useRepository (root : Manifest) (git : Git) (lock : List LockedDep) (name : Bytes)
    (d : Dependency)
    (dir : Bytes) : OnFiles DependencyFault Unit := do
  makeDirectories root.depsDir .depsDir
  EStateM.adaptExcept DependencyFault.repository do
    fetchRepository git lock name d dir
    if !d.tag.isEmpty then git.checkout dir d.tag

/-- Where a dependency is, as seen from the directory of the manifest that names it. -/
def locate (root : Manifest) (git : Git) (lock : List LockedDep) (name : Bytes) (d : Dependency)
    (base : Bytes) : OnFiles DependencyFault Bytes := do
  if !d.path.isEmpty then
    let path := Path.absolute base d.path
    match (← get).stat [] path with
    | .ok _ => return path
    | .error e => throw (.missing name path e)
  else if !d.git.isEmpty then
    let dir := Path.join [root.depsDir, name]
    useRepository root git lock name d dir
    return dir
  else throw (.noSource name)

def one (root : Manifest) (git : Git) (lock : List LockedDep) (name : Bytes) (d : Dependency)
    (base : Bytes) : OnFiles DependencyFault Resolved := do
  match checkedModuleName name with
  | .error e => throw (.badName e)
  | .ok module =>
    let path ← locate root git lock name d base
    return { name, module, path, manifest := (Manifest.load (← get) path).toOption }

/-- What was resolved before, and the order of what is resolved now. -/
structure Progress where
  found : List Resolved
  order : List Resolved := []

/-- Resolves the dependencies of a manifest and theirs. Where repositories are fetched, manifests
come in that no tree had before, so nothing but `depth` bounds how deep dependencies are nested. -/
def all (root : Manifest) (git : Git) (lock : List LockedDep) : (depth : Nat) →
    List (Bytes × Dependency) → (base : Bytes) → List Resolved → OnFiles ResolveError Progress
  | 0, _, _, _ => throw .tooDeep
  | depth + 1, deps, base, found =>
    (sortByName deps).foldlM (fun (p : Progress) (name, d) => do
      if p.found.any fun r => r.name == name then return p
      let r ← EStateM.adaptExcept (ResolveError.dependency name) (one root git lock name d base)
      let found := r :: p.found
      if r.declared.isEmpty then return { found, order := p.order ++ [r] }
      let sub ← all root git lock depth r.declared r.dir found
      return { found := sub.found, order := p.order ++ sub.order ++ [r] }) { found }

def manifestsOf (t : FileTree) : List Manifest :=
  t.entries.filterMap fun (place, _) =>
    if place.getLast? = some manifestName then
      (Manifest.load t (Path.ofNames place.dropLast)).toOption
    else none

/-- A bound on how deep the dependencies of a tree can be nested: each level resolves a name that no
level above has, and all names stand in manifests. -/
def depthBound (t : FileTree) (root : Manifest) : Nat :=
  (root :: manifestsOf t).foldl (fun n m => n + m.dependencies.length) 1

/-- What the lock file says of a dependency: only those that the project itself names are pinned,
as the project names them. A repository has the commit that it is at, if it can tell. -/
def lockEntry (root : Manifest) (git : Git) (r : Resolved) :
    OnFiles ResolveError (Option LockedDep) :=
  match root.dependencies.lookup r.name with
  | none => return none
  | some d => do
    if !d.git.isEmpty then
      let commit ← getDefault (git.currentCommit r.path) []
      return some { name := r.name, git := d.git, tag := d.tag, commit }
    else if !d.path.isEmpty then return some { name := r.name, path := d.path }
    else return none

def writeLock (root : Manifest) (git : Git) (found : List Resolved) : OnFiles ResolveError Unit :=
  do
  let entries ← found.mapM (lockEntry root git)
  makeDirectories (Path.parent root.lockFile) .unwritableLock
  writeFile root.lockFile (Lock.text (entries.filterMap id)) .unwritableLock

end Resolve

/-- Resolves the dependencies of a project and writes its lock file. -/
def resolve (root : Manifest) (git : Git := .missing)
    (bound : FileTree → Nat := fun t => Resolve.depthBound t root) : OnFiles ResolveError
    (List Resolved) := do
  let t ← get
  match Lock.load t root.lockFile with
  | .error e => throw (.unreadableLock root.lockFile e)
  | .ok lock =>
    if root.dependencies.isEmpty then return []
    let p ← Resolve.all root git (lock.getD []) (bound t) root.dependencies root.dir []
    Resolve.writeLock root git p.found
    return p.order

end LuaChunk.Project
