import LuaChunk.Assoc
import LuaChunk.Cache
import LuaChunk.Files.Path

/-!
File trees. A tree holds entries at places, where a place is the list of names that lead to it from
the root. Opening, creating and walking follow the rules of the operating system and fail with its
words; an error names the operation and the path as it was given.

`FileTree.Well` says that what is above an entry is a directory. The operations keep it.
-/

set_option autoImplicit false

namespace LuaChunk

/-- Where an entry is: the names from the root on. -/
abbrev Place := List Bytes

inductive FileEntry where
  | directory
  | file (content : Bytes)
  | database (store : Cache.Store)

def FileEntry.isDirectory : FileEntry → Bool
  | .directory => true
  | _ => false

structure FileTree where
  entries : List (Place × FileEntry) := []

/-- What the operating system objects to. -/
inductive FileFault where
  | notFound
  | notDirectory
  | isDirectory
  | exists_
  | nameTooLong
  | invalid
  deriving DecidableEq, Repr

def FileFault.text : FileFault → Bytes
  | .notFound => utf8 "no such file or directory"
  | .notDirectory => utf8 "not a directory"
  | .isDirectory => utf8 "is a directory"
  | .exists_ => utf8 "file exists"
  | .nameTooLong => utf8 "file name too long"
  | .invalid => utf8 "invalid argument"

/-- A failed operation on a path. -/
structure FileError where
  operation : Bytes
  path : Bytes
  fault : FileFault
  deriving DecidableEq, Repr

def FileError.text (e : FileError) : Bytes :=
  e.operation ++ utf8 " " ++ e.path ++ utf8 ": " ++ e.fault.text

def maxName : Nat := 255
def maxPath : Nat := 4096

/-- The order in which a walk meets places: a directory before what is in it, and names in order. -/
def Place.le : Place → Place → Bool
  | [], _ => true
  | _ :: _, [] => false
  | a :: as, b :: bs => Bytes.lt a b || (a == b && Place.le as bs)

namespace FileTree

/-- The entry at a place; the root is a directory. -/
def lookup? (t : FileTree) : Place → Option FileEntry
  | [] => some .directory
  | p => t.entries.lookup p

def isDirectory (t : FileTree) (p : Place) : Bool := ((t.lookup? p).map (·.isDirectory)).getD false

def set (t : FileTree) (p : Place) (e : FileEntry) : FileTree :=
  ⟨Assoc.insert p e t.entries⟩

def remove (t : FileTree) (p : Place) : FileTree :=
  ⟨t.entries.filter fun x => !p.isPrefixOf x.1⟩

def Well (t : FileTree) : Prop :=
  ∀ p e, (p, e) ∈ t.entries → t.isDirectory p.dropLast = true

theorem lookup?_set_self (t : FileTree) {p : Place} (e : FileEntry) (h : p ≠ []) :
    (t.set p e).lookup? p = some e := by
  cases p with
  | nil => exact absurd rfl h
  | cons a p => exact Assoc.lookup_insert_self (a :: p) e t.entries

theorem lookup?_set_of_ne (t : FileTree) {p q : Place} (e : FileEntry) (h : q ≠ p) :
    (t.set p e).lookup? q = t.lookup? q := by
  cases q with
  | nil => rfl
  | cons a q => exact Assoc.lookup_insert_of_ne h e t.entries

/-- Follows names from a place on. Each step has to start from a directory. -/
def follow (t : FileTree) : Place → List Bytes → Except FileFault Place
  | at_, [] => .ok at_
  | at_, name :: rest =>
    if !t.isDirectory at_ then .error .notDirectory
    else if name.isEmpty || name = Path.dot then follow t at_ rest
    else if name = Path.dotDot then follow t at_.dropLast rest
    else if maxName < name.length then .error .nameTooLong
    else if (t.lookup? (at_ ++ [name])).isNone then .error .notFound
    else follow t (at_ ++ [name]) rest

def pieces (cwd : Place) (path : Bytes) : Except FileFault (Place × List Bytes) :=
  if path.contains 0 then .error .invalid
  else if path.isEmpty then .error .notFound
  else if maxPath ≤ path.length then .error .nameTooLong
  else .ok (if Path.isAbsolute path then [] else cwd, Bytes.splitAt Path.slash path)

def find (t : FileTree) (cwd : Place) (path : Bytes) : Except FileFault Place := do
  let (start, names) ← pieces cwd path
  t.follow start names

def findEntry (t : FileTree) (cwd : Place) (path : Bytes) : Except FileFault FileEntry := do
  match t.lookup? (← t.find cwd path) with
  | some e => .ok e
  | none => .error .notFound

def stat (t : FileTree) (cwd : Place) (path : Bytes) : Except FileError FileEntry :=
  (t.findEntry cwd path).mapError fun fault => ⟨utf8 "stat", path, fault⟩

def exists_ (t : FileTree) (cwd : Place) (path : Bytes) : Bool :=
  (t.findEntry cwd path).isOk

def read (t : FileTree) (cwd : Place) (path : Bytes) : Except FileError Bytes :=
  match t.findEntry cwd path with
  | .error fault => .error ⟨utf8 "open", path, fault⟩
  | .ok .directory => .error ⟨utf8 "read", path, .isDirectory⟩
  | .ok (.file content) => .ok content
  | .ok (.database _) => .ok []

/-- The place at which a path would create a file. A path that ends in a slash means a directory. -/
def findNew (t : FileTree) (cwd : Place) (path : Bytes) : Except FileFault Place := do
  let (start, names) ← pieces cwd path
  let trimmed := names.reverse.dropWhile List.isEmpty
  match trimmed with
  | [] => .error .isDirectory
  | last :: above =>
    let dir ← t.follow start above.reverse
    if !t.isDirectory dir then .error .notDirectory
    else if trimmed.length < names.length || last = Path.dot || last = Path.dotDot then
      .error .isDirectory
    else if maxName < last.length then .error .nameTooLong
    else if t.isDirectory (dir ++ [last]) then .error .isDirectory
    else .ok (dir ++ [last])

/-- Writes a file, which need not exist before. -/
def write (t : FileTree) (cwd : Place) (path content : Bytes) : Except FileError FileTree :=
  match t.findNew cwd path with
  | .error fault => .error ⟨utf8 "open", path, fault⟩
  | .ok p => .ok (t.set p (.file content))

/-- Makes directories for names from a place on; a tree is left also where that fails. A file in the
way is an error of its own at the last name. -/
def makeFrom (t : FileTree) : Place → List Bytes → FileTree × Option FileError
  | _, [] => (t, none)
  | at_, name :: rest =>
    let p := at_ ++ [name]
    let shown := Path.ofNames p ++ (if rest.isEmpty then [] else [Path.slash])
    let fail := fun fault => (t, some ⟨utf8 "mkdir", shown, fault⟩)
    match t.lookup? p with
    | some .directory => makeFrom t p rest
    | some _ => fail (if rest.isEmpty then .notDirectory else .exists_)
    | none =>
      if name.contains 0 then fail .invalid
      else if maxName < name.length then fail .nameTooLong
      else makeFrom (t.set p .directory) p rest

/-- Makes a directory and all above it. The path is absolute and clean. -/
def makeDirectories (t : FileTree) (path : Bytes) : FileTree × Option FileError :=
  t.makeFrom [] (Path.names path)

def filesBelow (t : FileTree) (p : Place) : List Place :=
  ((t.entries.filterMap fun (q, e) =>
    if p.isPrefixOf q && !e.isDirectory then some q else none)).mergeSort Place.le

def addFile (t : FileTree) (p : Place) (content : Bytes) : FileTree :=
  (t.makeFrom [] p.dropLast).1.set p (.file content)

def addDirectory (t : FileTree) (p : Place) : FileTree := (t.makeFrom [] p).1

end FileTree

/-- Actions on a file tree, which keeps its changes also where they fail. -/
abbrev OnFiles (ε : Type) := EStateM ε FileTree

def makeDirectories {ε : Type} (path : Bytes) (fail : FileError → ε) : OnFiles ε Unit := do
  let (t, e) := (← get).makeDirectories path
  set t
  match e with
  | some e => throw (fail e)
  | none => pure ()

def writeFile {ε : Type} (path content : Bytes) (fail : FileError → ε) : OnFiles ε Unit := do
  match (← get).write [] path content with
  | .ok t => set t
  | .error e => throw (fail e)

def getDefault {ε ε' α : Type} (m : OnFiles ε α) (default : α) : OnFiles ε' α := do
  match m.run (← get) with
  | .ok a t =>
    set t
    return a
  | .error _ t =>
    set t
    return default

end LuaChunk
