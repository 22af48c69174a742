import LuaChunk.Files.Path
import LuaChunk.Text.Utf8

/-!
Patterns for file names. `*` stands for any run of bytes without a slash, `?` for one character,
`[a-z]` for one of several characters and `[^a-z]` for any other; a backslash takes the next
character as it is.

A pattern is a list of pieces, each of characters only, with or without a `*` before it. A piece
after a `*` is taken at the first place where it fits.
-/

set_option autoImplicit false

namespace LuaChunk

/-- One character of a pattern. -/
inductive GlobChar where
  | byte (b : UInt8)
  | any
  | oneOf (negated : Bool) (ranges : List (Nat × Nat))
  deriving DecidableEq, Repr

structure GlobPiece where
  star : Bool
  chars : List GlobChar
  deriving DecidableEq, Repr

structure Glob where
  pieces : List GlobPiece
  deriving DecidableEq, Repr

namespace Glob

def replacement : Nat := 0xFFFD

def runeCode : Utf8.Rune → Nat
  | .char code => code
  | .stray _ => replacement

/-- One character of a set, which must not be the last of the pattern. -/
def setChar : List Utf8.Rune → Option (Nat × List Utf8.Rune)
  | .char 92 :: .char c :: rest => if rest.isEmpty then none else some (c, rest)
  | .char c :: rest => if c = 45 || c = 93 || c = 92 || rest.isEmpty then none else some (c, rest)
  | _ => none

/-- The ranges of a set up to its closing bracket; there is at least one. -/
def setRanges : (fuel : Nat) → List Utf8.Rune → List (Nat × Nat) →
    Option (List (Nat × Nat) × List Utf8.Rune)
  | 0, _, _ => none
  | fuel + 1, s, found =>
    match s, found with
    | .char 93 :: rest, _ :: _ => some (found.reverse, rest)
    | _, _ => do
      let (lo, rest) ← setChar s
      match rest with
      | .char 45 :: more =>
        let (hi, rest) ← setChar more
        setRanges fuel rest ((lo, hi) :: found)
      | _ => setRanges fuel rest ((lo, lo) :: found)

/-- The pieces of a pattern from the end of one piece on; `current` is that piece, its characters
in reverse. -/
def readPieces : (fuel : Nat) → List Utf8.Rune → (current : GlobPiece) → Option (List GlobPiece)
  | 0, _, _ => none
  | fuel + 1, s, current =>
    let add := fun (cs : List GlobChar) rest =>
      readPieces fuel rest { current with chars := cs.reverse ++ current.chars }
    let done : GlobPiece := { current with chars := current.chars.reverse }
    match s with
    | [] => if current.star || !current.chars.isEmpty then some [done] else some []
    | .char 42 :: rest =>
      if current.chars.isEmpty then readPieces fuel rest ⟨true, []⟩
      else do
        let more ← readPieces fuel rest ⟨true, []⟩
        some (done :: more)
    | .char 63 :: rest => add [.any] rest
    | .char 91 :: .char 94 :: rest => do
      let (ranges, rest) ← setRanges fuel rest []
      add [.oneOf true ranges] rest
    | .char 91 :: rest => do
      let (ranges, rest) ← setRanges fuel rest []
      add [.oneOf false ranges] rest
    | .char 92 :: r :: rest => add (r.bytes.map .byte) rest
    | .char 92 :: [] => none
    | r :: rest => add (r.bytes.map .byte) rest

def read? (pattern : Bytes) : Option Glob :=
  let runes := Utf8.runes pattern
  (readPieces (runes.length + 1) runes ⟨false, []⟩).map Glob.mk

/-- What is left of a name after the characters of a piece, if they fit. -/
def charsRest? : List GlobChar → Bytes → Option Bytes
  | [], s => some s
  | _ :: _, [] => none
  | c :: cs, b :: s =>
    let (rune, rest) := Utf8.first b s
    match c with
    | .byte x => if x = b then charsRest? cs s else none
    | .any => if b = Path.slash then none else charsRest? cs rest
    | .oneOf negated ranges =>
      let code := runeCode rune
      if ranges.any (fun (lo, hi) => lo ≤ code && code ≤ hi) != negated then charsRest? cs rest
      else none

def pieceRest? (cs : List GlobChar) (isLast : Bool) (name : Bytes) : Option Bytes :=
  (charsRest? cs name).filter fun rest => !isLast || rest.isEmpty

def findPiece? (cs : List GlobChar) (isLast : Bool) : Bytes → Option Bytes
  | [] => none
  | b :: s =>
    if b = Path.slash then none
    else match pieceRest? cs isLast s with
      | some rest => some rest
      | none => findPiece? cs isLast s

def matchPieces : List GlobPiece → Bytes → Bool
  | [], name => name.isEmpty
  | p :: more, name =>
    if p.star && p.chars.isEmpty then !name.contains Path.slash
    else match pieceRest? p.chars more.isEmpty name with
      | some rest => matchPieces more rest
      | none =>
        if p.star then
          match findPiece? p.chars more.isEmpty name with
          | some rest => matchPieces more rest
          | none => false
        else false

def fits (g : Glob) (name : Bytes) : Bool := matchPieces g.pieces name

end Glob

end LuaChunk
