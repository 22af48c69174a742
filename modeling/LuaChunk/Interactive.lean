import LuaChunk.Code.Listing
import LuaChunk.Compile.Chunk
import LuaChunk.Hash.Fingerprint
import LuaChunk.Text.Blank
import LuaChunk.Text.Bytes

/-!
The interactive session. The user types chunks, which may take several lines, and sees the listing
of each; a line that starts with a colon is a command to the session. What was typed is kept as a
history, a chunk a line.
-/

set_option autoImplicit false

namespace LuaChunk.Text

open LuaChunk

def window : Nat := 4096

structure InputLine where
  text : Bytes
  isPart : Bool
  deriving DecidableEq, Repr

def dropReturn (line : Bytes) : Bytes := (Bytes.dropSuffix? [13] line).getD line

/-- The first line of an input that is not empty, and how many bytes it takes, one fewer. A carriage
return at the end of the window may belong to a newline, so it is left for the next part. -/
def inputLine (s : Bytes) : InputLine × Nat :=
  let seen := s.take window
  let line := seen.takeWhile (· != 10)
  if line.length < seen.length then (⟨dropReturn line, false⟩, line.length)
  else if seen.length < window then (⟨seen, false⟩, seen.length - 1)
  else if seen.getLast? = some 13 then (⟨seen.dropLast, true⟩, window - 2)
  else (⟨seen, true⟩, window - 1)

def inputLines : Bytes → List InputLine
  | [] => []
  | b :: rest =>
    let (line, used) := inputLine (b :: rest)
    line :: inputLines (rest.drop used)
termination_by s => s.length
decreasing_by
  simp only [List.length_drop, List.length_cons]
  omega

end LuaChunk.Text

namespace LuaChunk

def version : Bytes := utf8 "0.1.0"

namespace Interactive

/-- What the user can set, and the names known from earlier chunks. -/
structure Session where
  interner : Interner := .empty
  full : Bool := false
  strip : Bool := false

namespace Session

/-- Compiles a chunk, which leaves its names with the session. -/
def compile (s : Session) (code : Bytes) : Session × Except Failure Prototype :=
  let o := Compile.run { chunk := utf8 "=stdin", interner := s.interner } code
  ({ s with interner := o.interner }, o.result)

/-- Whether a chunk is unfinished, so that more lines may complete it. -/
def needsMore (s : Session) (code : Bytes) : Session × Bool :=
  let (s, result) := s.compile code
  (s, match result with
    | .ok _ => false
    | .error e => e.isIncomplete)

/-- Shows the listing and the fingerprint of a chunk, or the error in it. -/
def evaluate (s : Session) (code : Bytes) : Session × Bytes :=
  let (s, result) := s.compile code
  (s, match result with
    | .error e => e.text?.getD [] ++ utf8 "\n"
    | .ok p =>
      let p := if s.strip then p.strip else p
      (Listing.listing? s.full p).getD [] ++ utf8 "fingerprint " ++ p.fingerprint ++ utf8 "\n")

end Session

inductive Command where
  | help
  | full
  | strip
  | quit
  | unknown (word : Bytes)
  deriving DecidableEq, Repr

def Command.ofWord (w : Bytes) : Command :=
  if [":help", ":h", ":?"].any (utf8 · == w) then .help
  else if w = utf8 ":full" then .full
  else if w = utf8 ":strip" then .strip
  else if [":quit", ":q"].any (utf8 · == w) then .quit
  else .unknown w

def onOff (b : Bool) : Bytes := if b then utf8 "on" else utf8 "off"

def Session.obey (s : Session) : Command → Session × Bytes × Bool
  | .help => (s, utf8 "  :full    toggle listing of constants, locals and upvalues\n"
      ++ utf8 "  :strip   toggle stripping of debug information\n"
      ++ utf8 "  :quit    leave\n", false)
  | .full =>
    ({ s with full := !s.full }, utf8 "full listing " ++ onOff (!s.full) ++ utf8 "\n", false)
  | .strip => ({ s with strip := !s.strip }, utf8 "strip " ++ onOff (!s.strip) ++ utf8 "\n", false)
  | .quit => (s, [], true)
  | .unknown w => (s, utf8 "unknown command " ++ w ++ utf8 "\n", false)

def Session.command (s : Session) (line : Bytes) : Session × Bytes × Bool :=
  s.obey (.ofWord ((Text.words line).headD []))

def isCommand (line : Bytes) : Bool := Bytes.startsWith (Text.trim line) (utf8 ":")

/-- What was typed, the latest first. -/
structure History where
  items : List Bytes := []

namespace History

/-- The most items kept; older ones are dropped. -/
def limit : Nat := 1000

def add (h : History) (item : Bytes) : History := ⟨(item :: h.items).take limit⟩

def addNew (h : History) (item : Bytes) : History :=
  if h.items.head? = some item then h else h.add item

/-- The history of a file, up to a line that is too long or not UTF-8. -/
def ofFile (content : Bytes) : History :=
  ((Text.inputLines content).takeWhile fun l => !l.isPart && Utf8.valid l.text).foldl
    (fun h l => h.add l.text) {}

def toFile (h : History) : Bytes := h.items.reverse.flatMap (· ++ [byte '\n'])

end History

/-- A session with the lines of an unfinished chunk. -/
structure Conversation where
  session : Session := {}
  pending : Bytes := []
  history : History := {}

namespace Conversation

def greeting : Bytes := utf8 "lunac " ++ version ++ utf8 "  (:help for commands)\n"

def prompt (c : Conversation) : Bytes := if c.pending.isEmpty then utf8 "> " else utf8 ">> "

/-- Deals with a whole chunk; the flag says whether the conversation ends. -/
def finish (c : Conversation) (code : Bytes) : Conversation × Bytes × Bool :=
  let c := { c with pending := [] }
  if (Text.trim code).isEmpty then (c, [], false)
  else
    let c := { c with
      history := c.history.addNew (code.map fun b => if b = byte '\n' then byte ' ' else b) }
    if isCommand code then
      let (session, out, stop) := c.session.command code
      ({ c with session }, out, stop)
    else
      let (session, out) := c.session.evaluate code
      ({ c with session }, out, false)

/-- Takes a line. A command stands on a line of its own, not within a chunk. -/
def take (c : Conversation) (line : Bytes) : Conversation × Bytes × Bool :=
  if c.pending.isEmpty && isCommand line then c.finish line
  else
    let code := if c.pending.isEmpty then line else c.pending ++ byte '\n' :: line
    let (session, more) := c.session.needsMore code
    let c := { c with session }
    if more then ({ c with pending := code }, [], false) else c.finish code

/-- Takes lines until the conversation or the input ends; the end of the input closes the line of
the prompt. -/
def takeAll (c : Conversation) : List Bytes → Conversation × Bytes
  | [] => (c, c.prompt ++ utf8 "\n")
  | line :: rest =>
    let asked := c.prompt
    let (c, out, stop) := c.take line
    if stop then (c, asked ++ out)
    else
      let (c, more) := c.takeAll rest
      (c, asked ++ out ++ more)

end Conversation

/-- A whole conversation: what is shown for an input, and the history after it. -/
def converse (history : History) (input : Bytes) : Bytes × History :=
  let (c, out) := Conversation.takeAll { history } ((Text.inputLines input).map (·.text))
  (Conversation.greeting ++ out, c.history)

end Interactive

end LuaChunk
