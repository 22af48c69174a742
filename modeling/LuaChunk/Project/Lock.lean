import LuaChunk.Project.Manifest

set_option autoImplicit false

namespace LuaChunk.Project

open LuaChunk

structure LockedDep where
  name : Bytes := []
  git : Bytes := []
  tag : Bytes := []
  commit : Bytes := []
  path : Bytes := []
  deriving DecidableEq, Repr

namespace Lock

def quotedByte (b : UInt8) : Bytes :=
  match b.toNat with
  | 8 => utf8 "\\b"
  | 9 => utf8 "\\t"
  | 10 => utf8 "\\n"
  | 12 => utf8 "\\f"
  | 13 => utf8 "\\r"
  | 34 => utf8 "\\\""
  | 92 => utf8 "\\\\"
  | n => if n < 32 || n = 127 then utf8 "\\u" ++ Bytes.hexPadded 4 n else [b]

def quoted (s : Bytes) : Bytes := byte '"' :: s.flatMap quotedByte ++ [byte '"']

def fieldLine (field : String) (s : Bytes) : Bytes :=
  utf8 "  " ++ utf8 field ++ utf8 " = " ++ quoted s ++ utf8 "\n"

def optionalLine (field : String) (s : Bytes) : Bytes :=
  if s.isEmpty then [] else fieldLine field s

def entryText (d : LockedDep) : Bytes :=
  utf8 "[[deps]]\n" ++ fieldLine "name" d.name ++ optionalLine "git" d.git
    ++ optionalLine "tag" d.tag ++ optionalLine "commit" d.commit ++ optionalLine "path" d.path

def sorted (deps : List LockedDep) : List LockedDep :=
  deps.mergeSort fun a b => Bytes.le a.name b.name

def text (deps : List LockedDep) : Bytes :=
  Bytes.joinWith (utf8 "\n") ((sorted deps).map entryText)

def setField (d : LockedDep) : Bytes × Toml.Value → Except Toml.Error LockedDep
  | (k, v) => do
    if isField "name" k then return { d with name := ← asString v }
    if isField "git" k then return { d with git := ← asString v }
    if isField "tag" k then return { d with tag := ← asString v }
    if isField "commit" k then return { d with commit := ← asString v }
    if isField "path" k then return { d with path := ← asString v }
    return d

def readEntry (v : Toml.Value) : Except Toml.Error LockedDep := do
  (← asTable v).foldlM setField {}

def setSection (deps : List LockedDep) :
    Bytes × Toml.Value → Except Toml.Error (List LockedDep)
  | (k, v) => do
    if isField "deps" k then (← asList v).mapM readEntry else return deps

def read (text : Bytes) : Except Toml.Error (List LockedDep) := do
  (← Toml.read text).foldlM setSection []

def find? (deps : List LockedDep) (name : Bytes) : Option LockedDep :=
  deps.find? fun d => d.name == name

/-- The entries of a lock file, none if there is no such file. -/
def load (t : FileTree) (path : Bytes) : Except Toml.Error (Option (List LockedDep)) :=
  match t.read [] path with
  | .ok text => (read text).map some
  | .error e => if e.fault = .notFound then .ok none else .error .malformed

end Lock

end LuaChunk.Project
