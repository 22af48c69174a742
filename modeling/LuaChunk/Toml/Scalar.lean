import LuaChunk.Number.Numeral
import LuaChunk.Text.Utf8

/-!
Strings, numbers and times of TOML documents. Each reader takes the text from its first byte on and
gives the value and the rest, or none where the text is malformed.
-/

set_option autoImplicit false

namespace LuaChunk.Toml

open LuaChunk

def isBlank (b : UInt8) : Bool := b == 32 || b == 9

def isNewline (b : UInt8) : Bool := b == 10 || b == 13

def skipBlanks (s : Bytes) : Bytes := s.dropWhile isBlank

def hexEscape (digits : Nat) (s : Bytes) : Option (Bytes × Bytes) :=
  let ds := s.take digits
  let code := Numeral.ofHexDigits ds
  if ds.length < digits || !ds.all Numeral.isHexDigit then none
  else if 0x10FFFF < code || (0xD800 ≤ code && code ≤ 0xDFFF) then none
  else some (Utf8.encode code, s.drop digits)

def escape : Bytes → Option (Bytes × Bytes)
  | [] => none
  | c :: s =>
    match Char.ofNat c.toNat with
    | 'b' => some ([8], s)
    | 't' => some ([9], s)
    | 'n' => some ([10], s)
    | 'f' => some ([12], s)
    | 'r' => some ([13], s)
    | 'e' => some ([27], s)
    | '"' => some ([34], s)
    | '\\' => some ([92], s)
    | 'x' => hexEscape 2 s
    | 'u' => hexEscape 4 s
    | 'U' => hexEscape 8 s
    | _ => none

/-- The raw content of a string up to its quote, which a backslash may protect. A string does not
span lines. -/
def quotedContent (quote : UInt8) (escapes : Bool) : Bytes → Option (Bytes × Bytes)
  | [] => none
  | b :: s =>
    if b = quote then some ([], s)
    else if isNewline b then none
    else if escapes && b = 92 then
      match s with
      | [] => none
      | c :: s => (quotedContent quote escapes s).map fun (t, rest) => (b :: c :: t, rest)
    else (quotedContent quote escapes s).map fun (t, rest) => (b :: t, rest)

/-- The raw content of a string up to three quotes. The last three of up to five quotes end it;
`seen` is the content so far in reverse. -/
def tripleContent (quote : UInt8) (escapes : Bool) : (seen : Bytes) → Bytes → Option (Bytes × Bytes)
  | _, [] => none
  | seen, b :: s =>
    if b = quote then
      if s.take 2 = [quote, quote] then
        if (s.drop 2).head? = some quote then
          let five := seen.take 2 = [quote, quote]
          if five && !(escapes && (seen.drop 2).head? = some 92) then none
          else tripleContent quote escapes (b :: seen) s
        else some (seen.reverse, s.drop 2)
      else tripleContent quote escapes (b :: seen) s
    else if escapes && b = 92 then
      match s with
      | [] => none
      | c :: s => tripleContent quote escapes (c :: b :: seen) s
    else tripleContent quote escapes (b :: seen) s

def dropFirstNewline : Bytes → Bytes
  | 10 :: s => s
  | 13 :: 10 :: s => s
  | s => s

/-- Replaces the escapes of a raw content. In a string of several lines a backslash at the end of a
line takes away the white space up to the next character. -/
def unescape (multiline : Bool) : (fuel : Nat) → Bytes → Option Bytes
  | _, [] => some []
  | 0, _ => none
  | fuel + 1, b :: s =>
    if b = 92 then
      let space := s.takeWhile fun c => isBlank c || isNewline c
      if multiline && space.contains 10 then unescape multiline fuel (s.drop space.length)
      else do
        let (c, rest) ← escape s
        return c ++ (← unescape multiline fuel rest)
    else do return b :: (← unescape multiline fuel s)

def basicString (s : Bytes) : Option (Bytes × Bytes) := do
  let (raw, rest) ← quotedContent 34 true s
  return (← unescape false raw.length raw, rest)

def literalString (s : Bytes) : Option (Bytes × Bytes) := quotedContent 39 false s

/-- A string in one or three quotes of either sort. -/
def string : Bytes → Option (Bytes × Bytes)
  | 34 :: 34 :: 34 :: s => do
    let (raw, rest) ← tripleContent 34 true [] s
    return (← unescape true raw.length (dropFirstNewline raw), rest)
  | 39 :: 39 :: 39 :: s => do
    let (raw, rest) ← tripleContent 39 false [] s
    return (dropFirstNewline raw, rest)
  | 34 :: s => basicString s
  | 39 :: s => literalString s
  | _ => none

/-- Digits with single underscores between them; gives the digits alone. -/
def grouped (isDigit : UInt8 → Bool) (s : Bytes) : Option Bytes :=
  let groups := Bytes.splitAt (byte '_') s
  if groups.all fun g => !g.isEmpty && g.all isDigit then some groups.flatten else none

/-- Digits of a decimal number before its point: no zero stands in front of others. -/
def wholeDigits (s : Bytes) : Option Bytes := do
  let ds ← grouped Numeral.isDigit s
  match ds with
  | 48 :: _ :: _ => none
  | ds => some ds

def inRange (negative : Bool) (n : Nat) : Option Int :=
  if negative then (if n ≤ 0x8000000000000000 then some (-(n : Int)) else none)
  else if n < 0x8000000000000000 then some n else none

def decimalInteger (negative : Bool) (s : Bytes) : Option Int := do
  inRange negative (Numeral.ofDigits (← wholeDigits s))

def exponentDigits : Bytes → Option Bytes
  | 43 :: s => grouped Numeral.isDigit s
  | 45 :: s => (grouped Numeral.isDigit s).map (45 :: ·)
  | s => grouped Numeral.isDigit s

def isExponentMark (b : UInt8) : Bool := b == byte 'e' || b == byte 'E'

/-- The text of a number with a point or an exponent, after its sign. It must not be too large. -/
def decimalFloat (negative : Bool) (s : Bytes) : Option Float := do
  let mantissa := s.takeWhile fun b => !isExponentMark b
  let exponent := (s.dropWhile fun b => !isExponentMark b).drop 1
  let whole ← wholeDigits (mantissa.takeWhile (· != byte '.'))
  let fraction ← if mantissa.contains (byte '.') then
      grouped Numeral.isDigit ((mantissa.dropWhile (· != byte '.')).drop 1)
    else some []
  let power ← if mantissa.length < s.length then exponentDigits exponent else some (utf8 "0")
  let x ← Numeral.readDecimal negative (whole ++ byte '.' :: fraction ++ byte 'e' :: power)
  if x.isInf then none else some x

inductive NumberText where
  | integer (n : Int)
  | float (x : Float)

/-- The largest text that may be part of a number with a point or an exponent. -/
def isFloatByte (b : UInt8) : Bool :=
  Numeral.isDigit b || isExponentMark b || b == byte '_' || b == byte '.' || b == byte '-'
    || b == byte '+'

def decimal (negative : Bool) (s : Bytes) : Option (NumberText × Bytes) := do
  let whole := s.takeWhile fun b => Numeral.isDigit b || b == byte '_'
  let rest := s.drop whole.length
  if (whole.head?.map Numeral.isDigit).getD false then
    match rest with
    | b :: _ =>
      if b = byte '.' || isExponentMark b then
        let tail := rest.takeWhile isFloatByte
        return (.float (← decimalFloat negative (whole ++ tail)), rest.drop tail.length)
      else return (.integer (← decimalInteger negative whole), rest)
    | [] => return (.integer (← decimalInteger negative whole), rest)
  else none

def basedInteger (base : Nat) (isDigit : UInt8 → Bool) (s : Bytes) : Option (NumberText × Bytes) :=
  do
  let text := s.takeWhile fun b => isDigit b || b == byte '_'
  let ds ← grouped isDigit text
  let n ← inRange false (ds.foldl (fun n d => n * base + Numeral.hexValue d) 0)
  return (.integer n, s.drop text.length)

/-- A number; one in another base has no sign. -/
def number : Bytes → Option (NumberText × Bytes)
  | 48 :: 120 :: s => basedInteger 16 Numeral.isHexDigit s
  | 48 :: 111 :: s => basedInteger 8 (fun b => byte '0' ≤ b && b ≤ byte '7') s
  | 48 :: 98 :: s => basedInteger 2 (fun b => b == byte '0' || b == byte '1') s
  | 43 :: s => signed false s
  | 45 :: s => signed true s
  | s => signed false s
where
  signed (negative : Bool) (s : Bytes) : Option (NumberText × Bytes) :=
    match Bytes.dropPrefix? (utf8 "inf") s, Bytes.dropPrefix? (utf8 "nan") s with
    | some rest, _ => some (.float (if negative then -1.0 / 0.0 else 1.0 / 0.0), rest)
    | _, some rest => some (.float (0.0 / 0.0), rest)
    | none, none => decimal negative s

def twoDigits (s : Bytes) (least most : Nat) : Option Bytes :=
  let ds := s.take 2
  let n := Numeral.ofDigits ds
  if ds.length = 2 && ds.all Numeral.isDigit && least ≤ n && n ≤ most then some (s.drop 2) else none

def expect (c : Char) : Bytes → Option Bytes
  | b :: s => if b = byte c then some s else none
  | [] => none

def isLeapYear (y : Nat) : Bool := y % 4 == 0 && (y % 100 != 0 || y % 400 == 0)

def daysIn (year month : Nat) : Nat :=
  if month = 2 then (if isLeapYear year then 29 else 28)
  else if month = 4 || month = 6 || month = 9 || month = 11 then 30
  else 31

def date (s : Bytes) : Option Bytes := do
  let year := s.take 4
  if year.length < 4 || !year.all Numeral.isDigit then none
  let s ← expect '-' (s.drop 4)
  let month := Numeral.ofDigits (s.take 2)
  let s ← expect '-' (← twoDigits s 1 12)
  twoDigits s 1 (daysIn (Numeral.ofDigits year) month)

/-- A time of day; the seconds may be left out, and may have a fraction. -/
def timeOfDay (s : Bytes) : Option Bytes := do
  let s ← twoDigits (← expect ':' (← twoDigits s 0 23)) 0 59
  match s with
  | 58 :: s =>
    let s ← twoDigits s 0 59
    match s with
    | 46 :: c :: s => if Numeral.isDigit c then some (s.dropWhile Numeral.isDigit) else none
    | s => some s
  | s => some s

def zone : Bytes → Option Bytes
  | 90 :: s => some s
  | 43 :: s => offset s
  | 45 :: s => offset s
  | _ => none
where
  offset (s : Bytes) : Option Bytes := do twoDigits (← expect ':' (← twoDigits s 0 24)) 0 60

def isTime (s : Bytes) : Bool :=
  match date s with
  | some [] => true
  | some (84 :: s) =>
    match timeOfDay s with
    | some [] => true
    | some s => zone s == some []
    | none => false
  | _ => timeOfDay s == some []

def isTimeByte (b : UInt8) : Bool :=
  Numeral.isDigit b || (utf8 "-:Tt .Zz+").contains b

def time (s : Bytes) : Option (Bytes × Bytes) :=
  let text := s.takeWhile isTimeByte
  let trimmed := (text.reverse.dropWhile (· == 32)).reverse
  let usual := trimmed.map fun b =>
    if b = byte 'z' then byte 'Z' else if b = byte 't' || b = 32 then byte 'T' else b
  if isTime usual then some (usual, s.drop text.length) else none

/-- Whether a text that starts with a digit is a date or time: digits and then `-` or `:`. -/
def startsTime (s : Bytes) : Bool :=
  match s.dropWhile Numeral.isDigit with
  | b :: _ => b == byte '-' || b == byte ':'
  | [] => false

end LuaChunk.Toml
