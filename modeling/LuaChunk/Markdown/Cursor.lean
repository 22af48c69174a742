import LuaChunk.Text.Blank

/-!
A position in a text that is read line by line. What is left of a line may start within the width of
a tab that was passed in part: the columns that remain of it are kept as padding, which is read as
blanks.
-/

set_option autoImplicit false

namespace LuaChunk.Markdown

open LuaChunk

def tabWidth (column : Nat) : Nat := 4 - column % 4

def byteWidth (column : Nat) (b : UInt8) : Nat := if b = 9 then tabWidth column else 1

def isBlankLine (line : Bytes) : Bool := line.all Text.isBlank

/-- The width of the blanks and tabs that a line starts with, and how many bytes they are. -/
def indentFrom (column width count : Nat) : Bytes → Nat × Nat
  | 32 :: rest => indentFrom column (width + 1) (count + 1) rest
  | 9 :: rest => indentFrom column (width + tabWidth (column + width)) (count + 1) rest
  | _ => (width, count)

def indent (column : Nat) (line : Bytes) : Nat × Nat := indentFrom column 0 0 line

/-- Passes blanks and tabs until a width is reached or they end; gives the width and how many bytes
were passed. -/
def passIndent (column width : Nat) (w count : Nat) : Bytes → Nat × Nat
  | 32 :: rest => if w < width then passIndent column width (w + 1) (count + 1) rest else (w, count)
  | 9 :: rest =>
    if w < width then passIndent column width (w + tabWidth (column + w)) (count + 1) rest
    else (w, count)
  | _ => (w, count)

/-- Where the text after an indentation of a width starts: the bytes to pass, and the columns of the
last of them that are too many. The line starts with a padding, whose bytes are not counted. -/
def indentEnd? (column padding width : Nat) (line : Bytes) : Option (Nat × Nat) :=
  if width = 0 then some (0, padding)
  else
    let (w, count) := passIndent column width padding 0 (line.drop padding)
    if width ≤ w then some (count, w - width) else none

structure Cursor where
  number : Nat := 1
  column : Nat := 0
  padding : Nat := 0
  rest : Bytes := []
  next : List Bytes := []

namespace Cursor

def linesOf (s : Bytes) : List Bytes :=
  let pieces := Bytes.lines s
  (pieces.dropLast.map (· ++ [10])) ++ (pieces.getLast?.toList.filter fun l => !l.isEmpty)

def start (s : Bytes) : Cursor :=
  match linesOf s with
  | [] => {}
  | line :: next => { rest := line, next }

/-- What is left of the line; none at the end of the text. -/
def line? (c : Cursor) : Option Bytes :=
  if c.rest.isEmpty then none else some (List.replicate c.padding 32 ++ c.rest)

def offset (c : Cursor) : Nat := c.column - c.padding

def nextLine (c : Cursor) : Cursor :=
  match c.next with
  | [] => { number := c.number + 1 }
  | line :: next => { number := c.number + 1, rest := line, next }

/-- Passes one column of padding or one byte. -/
def step (c : Cursor) : Cursor :=
  if 0 < c.padding then { c with padding := c.padding - 1 }
  else match c.rest with
    | [] => c
    | b :: rest =>
      if b = 10 then c.nextLine
      else { c with column := c.column + byteWidth c.column b, rest }

def advance : Nat → Cursor → Cursor
  | 0, c => c
  | n + 1, c => advance n c.step

/-- Passes bytes; what is left starts with at least the given padding. -/
def advancePadded (n padding : Nat) (c : Cursor) : Cursor :=
  let c := c.advance n
  { c with padding := max padding c.padding }

def toEnd (c : Cursor) : Cursor :=
  c.advance (c.padding + (c.rest.takeWhile (· != 10)).length)

end Cursor

end LuaChunk.Markdown
