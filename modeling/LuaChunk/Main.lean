import LuaChunk.Cache
import LuaChunk.CommandLine.Run

/-!
The program. It takes the files that a command can look at into a tree, runs the command on the
tree, and writes back what has changed. An interactive session is carried on line by line.
-/

set_option autoImplicit false

namespace LuaChunk.Program

open LuaChunk CommandLine

def textOf (s : Bytes) : String := (String.fromUTF8? ⟨s.toArray⟩).getD ""

def bytesOf (b : ByteArray) : Bytes := b.data.toList

def print (stream : IO.FS.Stream) (s : Bytes) : IO Unit := do
  stream.write ⟨s.toArray⟩
  stream.flush

partial def readAll (stream : IO.FS.Stream) (seen : ByteArray) : IO Bytes := do
  let more ← stream.read 65536
  if more.isEmpty then return bytesOf seen else readAll stream (seen ++ more)

def readLine (stream : IO.FS.Stream) : IO (Option Bytes) := do
  let line := utf8 (← stream.getLine)
  if line.isEmpty then return none
  return some (Text.dropReturn (line.takeWhile (· != 10)))

def entryOf (content : Bytes) : FileEntry :=
  match Cache.Store.ofImage? content with
  | some store => .database store
  | none => .file content

def takePlace (t : FileTree) (p : Place) : IO FileTree := do
  let path := (← IO.currentDir) / textOf (Path.ofNames p)
  if (t.lookup? p).isSome then return t
  if ← path.isDir then return t.set p .directory
  if ← path.pathExists then return t.set p (entryOf (bytesOf (← IO.FS.readBinFile path)))
  return t

def takePath (cwd : Place) (t : FileTree) (path : Bytes) : IO FileTree := do
  let names := Path.cleanNames (Path.absolute (Path.ofNames cwd) path)
  (List.range names.length).foldlM (fun t n => takePlace t (names.take (n + 1))) t

partial def takeBelow (t : FileTree) (p : Place) : IO FileTree := do
  let path := (← IO.currentDir) / textOf (Path.ofNames p)
  if !(← path.isDir) then return t
  (← path.readDir).foldlM (fun t e => do
    let q := p ++ [utf8 e.fileName]
    takeBelow (← takePlace t q) q) t

def takeTree (cwd : Place) (t : FileTree) (path : Bytes) : IO FileTree := do
  takeBelow (← takePath cwd t path) (Path.cleanNames (Path.absolute (Path.ofNames cwd) path))

def projectDirs (m : Project.Manifest) : List Bytes :=
  m.sourceDirs ++ (m.dependencies.filter fun d => !d.2.path.isEmpty).map fun d =>
    Path.absolute m.dir d.2.path

/-- Takes in projects and those they depend on. -/
partial def takeProjects (t : FileTree) (done : List Bytes) : List Bytes → IO FileTree
  | [] => return t
  | dir :: rest => do
    if done.contains dir then takeProjects t done rest
    else
      let t ← takeTree [] t dir
      let more := match Project.Manifest.load t dir with
        | .ok m => projectDirs m
        | .error _ => []
      takeProjects t (dir :: done) (rest ++ more)

def takeBuild (cwd : Place) (outDir : Bytes) : IO FileTree := do
  let manifests := (List.range (cwd.length + 1)).map fun n =>
    Path.ofNames (cwd.take n ++ [Project.manifestName])
  let t ← manifests.foldlM (takePath cwd) {}
  match Project.Manifest.find t (Path.ofNames cwd) with
  | some (.ok m) =>
    let t ← takeProjects t [] [m.dir]
    [m.cacheFile, Path.absolute m.dir outDir].foldlM (takePath cwd) t
  | _ => return t

def contentOf : FileEntry → Option Bytes
  | .directory => none
  | .file content => some content
  | .database store => some store.image

def writeBack (old new : FileTree) : IO Unit := do
  let cwd ← IO.currentDir
  for p in (new.entries.map (·.1)).mergeSort Place.le do
    let path := cwd / textOf (Path.ofNames p)
    let before := old.lookup? p
    match (new.lookup? p).map contentOf with
    | some (some content) =>
      if before.bind contentOf != some content then IO.FS.writeBinFile path ⟨content.toArray⟩
    | some none => if before.isNone then IO.FS.createDirAll path
    | none => pure ()

def elapsedText (ms : Nat) : Bytes :=
  let fraction := (Bytes.ofNat (1000 + ms % 1000)).drop 1
  let digits := (fraction.reverse.dropWhile (· == byte '0')).reverse
  if ms = 0 then utf8 "0s"
  else if ms < 1000 then Bytes.ofNat ms ++ utf8 "ms"
  else
    let minutes := if ms < 60000 then [] else Bytes.ofNat (ms / 60000) ++ utf8 "m"
    let seconds := Bytes.ofNat (ms / 1000 % 60)
    minutes ++ seconds ++ (if digits.isEmpty then [] else byte '.' :: digits) ++ utf8 "s"

/-- Talks to the user until the session or the input ends. -/
partial def converse (c : Interactive.Conversation) : IO Interactive.History := do
  let out ← IO.getStdout
  print out c.prompt
  match ← readLine (← IO.getStdin) with
  | none =>
    print out (utf8 "\n")
    return c.history
  | some line =>
    let (c, shown, stop) := c.take line
    print out shown
    if stop then return c.history else converse c

/-- Shows what a command printed, writes what it changed, and gives its status. -/
def finish (old : FileTree) (o : Outcome) : IO UInt32 := do
  print (← IO.getStdout) o.out
  print (← IO.getStderr) o.err
  writeBack old o.files
  return o.status.toUInt32

def perform (w : Surroundings) (action : Action) : IO UInt32 := do
  match action with
  | .interact =>
    let t ← takePath w.cwd {} (historyFile w.home)
    print (← IO.getStdout) Interactive.Conversation.greeting
    let history ← converse { history := loadHistory t w }
    writeBack t (saveHistory t w history)
    return 0
  | .compile options paths =>
    let t ← (options.output :: paths).foldlM (takePath w.cwd) {}
    let stdin ← if paths.contains Sources.stdinName then readAll (← IO.getStdin) .empty else pure []
    finish t (action.run { w with stdin } t)
  | .build options =>
    let t ← takeBuild w.cwd options.outDir
    finish t (action.run w t)
  | .doctest verbose files =>
    let t ← files.foldlM (takePath w.cwd) {}
    if files.isEmpty then finish t (action.run w t)
    else
      let before ← IO.monoMsNow
      let results := checkFiles t w.cwd files
      if let .error e := results then finish t (showResults t verbose [] (.error e))
      else
        let after ← IO.monoMsNow
        finish t (showResults t verbose (elapsedText (after - before)) results)
  | _ => finish {} (action.run w {})

end LuaChunk.Program

def main (args : List String) : IO UInt32 := do
  let cwd := LuaChunk.Path.cleanNames (LuaChunk.utf8 (← IO.currentDir).toString)
  let home := LuaChunk.utf8 ((← IO.getEnv "HOME").getD "")
  LuaChunk.Program.perform { cwd, home } (.ofArgs (args.map LuaChunk.utf8))
