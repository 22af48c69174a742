import LuaChunk.Text.Bytes

set_option autoImplicit false

namespace LuaChunk.Path

open LuaChunk

def slash : UInt8 := byte '/'

def dot : Bytes := utf8 "."

def dotDot : Bytes := utf8 ".."

def isAbsolute (p : Bytes) : Bool := p.head? == some slash

/-- The pieces between slashes, empty ones left out. -/
def names (p : Bytes) : List Bytes := (Bytes.splitAt slash p).filter fun n => !n.isEmpty

/-- Adds a name to a stack of names, the last one first. Going up from the root stays there; going
up from nowhere is kept. -/
def push (rooted : Bool) (stack : List Bytes) (name : Bytes) : List Bytes :=
  if name = dot then stack
  else if name = dotDot then
    match stack with
    | [] => if rooted then [] else [dotDot]
    | top :: rest => if top = dotDot then dotDot :: stack else rest
  else name :: stack

def cleanNames (p : Bytes) : List Bytes :=
  ((names p).foldl (push (isAbsolute p)) []).reverse

def ofNames (ns : List Bytes) : Bytes := slash :: Bytes.joinWith [slash] ns

def clean (p : Bytes) : Bytes :=
  if isAbsolute p then ofNames (cleanNames p)
  else match cleanNames p with
    | [] => dot
    | ns => Bytes.joinWith [slash] ns

/-- Several paths, one below the other; empty ones are left out. -/
def join (parts : List Bytes) : Bytes :=
  match parts.filter fun p => !p.isEmpty with
  | [] => []
  | ps => clean (Bytes.joinWith [slash] ps)

/-- A path as seen from a directory: an absolute one as it is. -/
def absolute (directory p : Bytes) : Bytes :=
  if isAbsolute p then clean p else join [directory, p]

def base (p : Bytes) : Bytes :=
  match (names p).getLast? with
  | some n => n
  | none => if p.isEmpty then dot else [slash]

def parent (p : Bytes) : Bytes := clean ((p.reverse.dropWhile (· != slash)).reverse)

def dropCommon : List Bytes → List Bytes → List Bytes × List Bytes
  | a :: as, b :: bs => if a = b then dropCommon as bs else (a :: as, b :: bs)
  | as, bs => (as, bs)

/-- The way from an absolute directory to a path; none if the path is not absolute. -/
def relative? (directory p : Bytes) : Option Bytes :=
  if isAbsolute p then
    let (up, down) := dropCommon (cleanNames directory) (cleanNames p)
    match up.map (fun _ => dotDot) ++ down with
    | [] => some dot
    | ns => some (Bytes.joinWith [slash] ns)
  else none

end LuaChunk.Path
