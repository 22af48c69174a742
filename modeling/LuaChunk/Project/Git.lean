import LuaChunk.Files.Tree
import LuaChunk.Text.Blank

/-!
Commands of the version control system. The system itself is not part of this library: what its
commands do to the files, and what they print, is given from outside.
-/

set_option autoImplicit false

namespace LuaChunk.Project

open LuaChunk

/-- How a command ends: the files that it leaves, what it prints, and why it fails if it does. -/
structure Finished where
  files : FileTree
  output : Bytes := []
  failure : Option Bytes := none

/-- A version control system: what a command does in a directory, which is empty for that of the
caller. -/
structure Git where
  finish : (dir : Bytes) → (args : List Bytes) → FileTree → Finished

namespace Git

def missing : Git where
  finish _ _ t := {
    files := t, failure := some (utf8 "exec: \"git\": executable file not found in $PATH") }

/-- Runs a command and gives its output without blanks around it. -/
def run (git : Git) (dir command : Bytes) (args : List Bytes) : OnFiles Bytes Bytes := do
  let done := git.finish dir (command :: args) (← get)
  set done.files
  let output := Text.trim done.output
  match done.failure with
  | none => return output
  | some reason =>
    let place := if dir.isEmpty then Path.dot else dir
    throw (utf8 "git " ++ command ++ utf8 " in " ++ place ++ utf8 ": " ++ output ++ utf8 ": " ++
      reason)

def clone (git : Git) (url dir : Bytes) : OnFiles Bytes Unit :=
  discard (git.run [] (utf8 "clone") [utf8 "--quiet", url, dir])

def fetch (git : Git) (dir : Bytes) : OnFiles Bytes Unit :=
  discard (git.run dir (utf8 "fetch") [utf8 "--quiet", utf8 "--all", utf8 "--tags"])

def checkout (git : Git) (dir wanted : Bytes) : OnFiles Bytes Unit :=
  discard (git.run dir (utf8 "checkout") [utf8 "--quiet", wanted])

def currentCommit (git : Git) (dir : Bytes) : OnFiles Bytes Bytes :=
  git.run dir (utf8 "rev-parse") [utf8 "HEAD"]

end Git

end LuaChunk.Project
