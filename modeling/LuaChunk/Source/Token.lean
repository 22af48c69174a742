import LuaChunk.Text.Bytes
import LuaChunk.Number.Basic

/-!
Tokens of source text. A token is a reserved word, a symbol of two or three characters, a single
byte, the end of the input, or carries a value: a number, a name or a string.
-/

set_option autoImplicit false

namespace LuaChunk

/-- The reserved words, in the order of their numbers. -/
inductive Keyword where
  | and_ | break_ | do_ | else_ | elseif_ | end_ | false_ | for_ | function_ | global_ | goto_ | if_
  | in_ | local_ | nil_ | not_ | or_ | repeat_ | return_ | then_ | true_ | until_ | while_
  deriving DecidableEq, Repr

namespace Keyword

def all : Array Keyword := #[.and_, .break_, .do_, .else_, .elseif_, .end_, .false_, .for_,
  .function_, .global_, .goto_, .if_, .in_, .local_, .nil_, .not_, .or_, .repeat_, .return_, .then_,
  .true_, .until_, .while_]

def text : Keyword → Bytes
  | .and_ => utf8 "and"
  | .break_ => utf8 "break"
  | .do_ => utf8 "do"
  | .else_ => utf8 "else"
  | .elseif_ => utf8 "elseif"
  | .end_ => utf8 "end"
  | .false_ => utf8 "false"
  | .for_ => utf8 "for"
  | .function_ => utf8 "function"
  | .global_ => utf8 "global"
  | .goto_ => utf8 "goto"
  | .if_ => utf8 "if"
  | .in_ => utf8 "in"
  | .local_ => utf8 "local"
  | .nil_ => utf8 "nil"
  | .not_ => utf8 "not"
  | .or_ => utf8 "or"
  | .repeat_ => utf8 "repeat"
  | .return_ => utf8 "return"
  | .then_ => utf8 "then"
  | .true_ => utf8 "true"
  | .until_ => utf8 "until"
  | .while_ => utf8 "while"

def words : List Bytes := all.toList.map text

def isReserved (s : Bytes) : Bool := words.contains s

end Keyword

/-- The symbols of more than one character, in the order of their numbers. -/
inductive Symbol where
  | idiv | concat | dots | eq | ge | le | ne | shl | shr | colons
  deriving DecidableEq, Repr

namespace Symbol

def all : Array Symbol := #[.idiv, .concat, .dots, .eq, .ge, .le, .ne, .shl, .shr, .colons]

def text : Symbol → Bytes
  | .idiv => utf8 "//"
  | .concat => utf8 ".."
  | .dots => utf8 "..."
  | .eq => utf8 "=="
  | .ge => utf8 ">="
  | .le => utf8 "<="
  | .ne => utf8 "~="
  | .shl => utf8 "<<"
  | .shr => utf8 ">>"
  | .colons => utf8 "::"

end Symbol

/-- What a token is, without its value. -/
inductive TokenKind where
  | byte (b : UInt8)
  | word (k : Keyword)
  | symbol (s : Symbol)
  | eos | float | integer | name | string
  deriving DecidableEq, Repr

namespace TokenKind

abbrev char (c : Char) : TokenKind := .byte (LuaChunk.byte c)

def firstReserved : Nat := 257

def number : TokenKind → Nat
  | .byte b => b.toNat
  | .word k => firstReserved + k.ctorIdx
  | .symbol s => firstReserved + 23 + s.ctorIdx
  | .eos => firstReserved + 33
  | .float => firstReserved + 34
  | .integer => firstReserved + 35
  | .name => firstReserved + 36
  | .string => firstReserved + 37

def named : Array TokenKind :=
  Keyword.all.map .word ++ Symbol.all.map .symbol ++ #[.eos, .float, .integer, .name, .string]

/-- A number that stands for a single byte, or for none of the named kinds. -/
def byteName (n : Int) : Bytes :=
  if 32 ≤ n && n < 127 then utf8 "'" ++ [n.toNat.toUInt8] ++ utf8 "'"
  else utf8 "'<\\" ++ Bytes.ofInt n ++ utf8 ">'"

def text : TokenKind → Bytes
  | .byte b => byteName b.toNat
  | .word k => utf8 "'" ++ k.text ++ utf8 "'"
  | .symbol s => utf8 "'" ++ s.text ++ utf8 "'"
  | .eos => utf8 "<eof>"
  | .float => utf8 "<number>"
  | .integer => utf8 "<integer>"
  | .name => utf8 "<name>"
  | .string => utf8 "<string>"

def textOf? (n : Int) : Option Bytes :=
  if n < firstReserved then some (byteName n)
  else named[n.toNat - firstReserved]?.map text

end TokenKind

/-- A token with its value, and the source text of one that has a value. -/
inductive Token where
  | byte (b : UInt8)
  | word (k : Keyword)
  | symbol (s : Symbol)
  | eos
  | float (x : Double) (raw : Bytes)
  | integer (n : Int64) (raw : Bytes)
  | name (s : Bytes)
  | string (s : Bytes) (raw : Bytes)
  deriving DecidableEq

namespace Token

def kind : Token → TokenKind
  | .byte b => .byte b
  | .word k => .word k
  | .symbol s => .symbol s
  | .eos => .eos
  | .float .. => .float
  | .integer .. => .integer
  | .name _ => .name
  | .string .. => .string

/-- The source text of a token with a value, empty for others. -/
def raw : Token → Bytes
  | .float _ raw => raw
  | .integer _ raw => raw
  | .name s => s
  | .string _ raw => raw
  | _ => []

def ofKind : TokenKind → Token
  | .byte b => .byte b
  | .word k => .word k
  | .symbol s => .symbol s
  | .eos => .eos
  | .float => .float 0 []
  | .integer => .integer 0 []
  | .name => .name []
  | .string => .string [] []

def quote (s : Bytes) : Bytes := utf8 "'" ++ s ++ utf8 "'"

def near (t : Token) : Bytes :=
  match t.kind with
  | .float | .integer | .name | .string => quote t.raw
  | k => k.text

end Token

end LuaChunk
