/-!
Byte strings. Source text, names, messages and compiled files are all byte strings here: a
source may hold any byte, and a message quotes it as it stands. A byte string is a list, so a
scanner recurses on it and a printer concatenates.
-/

set_option autoImplicit false

namespace LuaChunk

abbrev Bytes := List UInt8

def utf8 (s : String) : Bytes := s.toUTF8.data.toList

def byte (c : Char) : UInt8 := c.toNat.toUInt8

namespace Bytes

def digit (n : Nat) : UInt8 := (48 + n % 10).toUInt8

def ofNat (n : Nat) : Bytes :=
  if n < 10 then [digit n] else ofNat (n / 10) ++ [digit n]

def ofInt : Int → Bytes
  | .ofNat n => ofNat n
  | .negSucc n => byte '-' :: ofNat (n + 1)

def hexDigit (n : Nat) : UInt8 :=
  if n % 16 < 10 then (48 + n % 16).toUInt8 else (87 + n % 16).toUInt8

def hexPadded : Nat → Nat → Bytes
  | 0, _ => []
  | width + 1, n => hexPadded width (n / 16) ++ [hexDigit n]

def toHex (s : Bytes) : Bytes := s.flatMap fun b => hexPadded 2 b.toNat

def dropPrefix? : (p s : Bytes) → Option Bytes
  | [], s => some s
  | _ :: _, [] => none
  | a :: p, b :: s => if a = b then dropPrefix? p s else none

def startsWith (s p : Bytes) : Bool := (dropPrefix? p s).isSome

def dropSuffix? (p s : Bytes) : Option Bytes :=
  (dropPrefix? p.reverse s.reverse).map List.reverse

def endsWith (s p : Bytes) : Bool := (dropSuffix? p s).isSome

def occursIn (p : Bytes) : Bytes → Bool
  | [] => p.isEmpty
  | b :: s => startsWith (b :: s) p || occursIn p s

/-- Cut at every `sep`: the pieces joined by `sep` are the text again, and `[]` is one empty
piece. -/
def splitAt (sep : UInt8) (s : Bytes) : List Bytes :=
  s.foldr (fun b acc =>
    if b = sep then [] :: acc
    else match acc with
      | [] => [[b]]
      | piece :: more => (b :: piece) :: more) [[]]

/-- The lines of a text, its newlines removed. -/
def lines (s : Bytes) : List Bytes := splitAt 10 s

def joinWith (sep : Bytes) : List Bytes → Bytes
  | [] => []
  | [s] => s
  | s :: rest => s ++ sep ++ joinWith sep rest

def padRight (width : Nat) (s : Bytes) : Bytes := s ++ List.replicate (width - s.length) 32

/-- The order of byte strings: byte by byte, and a proper start comes first. -/
def lt : Bytes → Bytes → Bool
  | _, [] => false
  | [], _ :: _ => true
  | a :: s, b :: t => a < b || (a == b && lt s t)

def le (s t : Bytes) : Bool := !lt t s

def plural (n : Nat) : Bytes := if n = 1 then [] else utf8 "s"

end Bytes

@[simp] theorem dropPrefix?_self_append (p s : Bytes) : Bytes.dropPrefix? p (p ++ s) = some s := by
  induction p with
  | nil => rfl
  | cons a p ih => simp [Bytes.dropPrefix?, ih]

theorem eq_append_of_dropPrefix? {p s r : Bytes} (h : Bytes.dropPrefix? p s = some r) :
    s = p ++ r := by
  induction p generalizing s with
  | nil => simpa [Bytes.dropPrefix?] using h
  | cons a p ih =>
    cases s with
    | nil => simp [Bytes.dropPrefix?] at h
    | cons b s =>
      by_cases hab : a = b
      · subst hab
        simp only [Bytes.dropPrefix?, if_true] at h
        rw [ih h, List.cons_append]
      · simp [Bytes.dropPrefix?, hab] at h

end LuaChunk
