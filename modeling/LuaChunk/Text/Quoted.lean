import LuaChunk.Text.Utf8
import LuaChunk.Text.Printable

/-!
Texts in double quotes, as listings and messages show them. Printable characters stand for
themselves; the quote and the backslash are escaped; other characters have a letter escape or a
hexadecimal one, and so do bytes that are not UTF-8.
-/

set_option autoImplicit false

namespace LuaChunk.Text

open LuaChunk

def controlLetter? : Nat → Option Char
  | 7 => some 'a'
  | 8 => some 'b'
  | 12 => some 'f'
  | 10 => some 'n'
  | 13 => some 'r'
  | 9 => some 't'
  | 11 => some 'v'
  | _ => none

def quotedRune : Utf8.Rune → Bytes
  | .stray b => utf8 "\\x" ++ Bytes.hexPadded 2 b.toNat
  | .char code =>
    if code = 34 || code = 92 then byte '\\' :: [code.toUInt8]
    else if isPrintable code then Utf8.encode code
    else match controlLetter? code with
      | some c => byte '\\' :: [byte c]
      | none =>
        if code < 32 || code = 127 then utf8 "\\x" ++ Bytes.hexPadded 2 code
        else if code < 0x10000 then utf8 "\\u" ++ Bytes.hexPadded 4 code
        else utf8 "\\U" ++ Bytes.hexPadded 8 code

def quoted (s : Bytes) : Bytes :=
  byte '"' :: (Utf8.runes s).flatMap quotedRune ++ [byte '"']

end LuaChunk.Text
