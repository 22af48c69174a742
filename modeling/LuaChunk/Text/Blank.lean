import LuaChunk.Text.Utf8

set_option autoImplicit false

namespace LuaChunk.Text

open LuaChunk

def isBlank (b : UInt8) : Bool := b == 32 || (9 ≤ b && b ≤ 13)

def isSpace (code : Nat) : Bool :=
  (9 ≤ code && code ≤ 13) || code == 0x20 || code == 0x85 || code == 0xA0 || code == 0x1680
    || (0x2000 ≤ code && code ≤ 0x200A) || code == 0x2028 || code == 0x2029 || code == 0x202F
    || code == 0x205F || code == 0x3000

def isSpaceRune : Utf8.Rune → Bool
  | .char code => isSpace code
  | .stray _ => false

def trim (s : Bytes) : Bytes :=
  let inner := (Utf8.runes s).dropWhile isSpaceRune
  ((inner.reverse.dropWhile isSpaceRune).reverse).flatMap Utf8.Rune.bytes

def words (s : Bytes) : List Bytes :=
  let pieces := (Utf8.runes s).foldr (fun r acc =>
    if isSpaceRune r then [] :: acc
    else match acc with
      | [] => [r.bytes]
      | piece :: more => (r.bytes ++ piece) :: more) [[]]
  pieces.filter fun p => !p.isEmpty

end LuaChunk.Text
