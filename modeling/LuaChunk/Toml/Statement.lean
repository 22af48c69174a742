import LuaChunk.Toml.Scalar

set_option autoImplicit false

namespace LuaChunk.Toml

open LuaChunk

abbrev Key := List Bytes

mutual

/-- A value as it is written. -/
inductive Expr where
  | string (s : Bytes)
  | integer (n : Int)
  | float (x : Float)
  | boolean (b : Bool)
  | time (s : Bytes)
  | array (items : List Expr)
  | table (fields : List Field)

/-- A key with a value. -/
inductive Field where
  | mk (key : Key) (value : Expr)

end

inductive Statement where
  | table (key : Key)
  | element (key : Key)
  | field (f : Field)

def isBareByte (b : UInt8) : Bool :=
  Numeral.isDigit b || (byte 'a' ≤ b && b ≤ byte 'z') || (byte 'A' ≤ b && b ≤ byte 'Z')
    || b == byte '_' || b == byte '-'

def keyPart : Bytes → Option (Bytes × Bytes)
  | 34 :: s => basicString s
  | 39 :: s => literalString s
  | s =>
    let part := s.takeWhile isBareByte
    if part.isEmpty then none else some (part, s.drop part.length)

/-- A key up to a closing byte, which is read too. -/
def key (close : UInt8) : (fuel : Nat) → Bytes → Option (Key × Bytes)
  | 0, _ => none
  | fuel + 1, s => do
    let (part, rest) ← keyPart (skipBlanks s)
    match skipBlanks rest with
    | [] => none
    | b :: rest =>
      if b = close then some ([part], rest)
      else if b = byte '.' then
        let (more, rest) ← key close fuel rest
        some (part :: more, rest)
      else none

def skipComment (s : Bytes) : Bytes := s.dropWhile fun b => !isNewline b

def skipLines : (fuel : Nat) → Bytes → Bytes
  | 0, s => s
  | fuel + 1, s =>
    match s.dropWhile fun b => isBlank b || isNewline b with
    | 35 :: rest => skipLines fuel (skipComment rest)
    | rest => rest

def word (w : String) (e : Expr) (s : Bytes) : Option (Expr × Bytes) :=
  (Bytes.dropPrefix? (utf8 w) s).map fun rest => (e, rest)

def scalar (s : Bytes) : Option (Expr × Bytes) :=
  match s with
  | [] => none
  | b :: _ =>
    if b = 34 || b = 39 then (string s).map fun (t, rest) => (.string t, rest)
    else if b = byte 't' then word "true" (.boolean true) s
    else if b = byte 'f' then word "false" (.boolean false) s
    else if Numeral.isDigit b && startsTime s then (time s).map fun (t, rest) => (.time t, rest)
    else match number s with
      | some (.integer n, rest) => some (.integer n, rest)
      | some (.float x, rest) => some (.float x, rest)
      | none => none

mutual

def value : (fuel : Nat) → Bytes → Option (Expr × Bytes)
  | 0, _ => none
  | fuel + 1, s =>
    match s with
    | 91 :: rest => (items fuel rest).map fun (es, rest) => (.array es, rest)
    | 123 :: rest => (fields fuel rest).map fun (fs, rest) => (.table fs, rest)
    | s => scalar s

def items : (fuel : Nat) → Bytes → Option (List Expr × Bytes)
  | 0, _ => none
  | fuel + 1, s =>
    match skipLines s.length s with
    | 93 :: rest => some ([], rest)
    | s => do
      let (e, rest) ← value fuel s
      match skipLines rest.length rest with
      | 44 :: rest =>
        let (es, rest) ← items fuel rest
        some (e :: es, rest)
      | 93 :: rest => some ([e], rest)
      | _ => none

def fields : (fuel : Nat) → Bytes → Option (List Field × Bytes)
  | 0, _ => none
  | fuel + 1, s =>
    match skipLines s.length s with
    | 125 :: rest => some ([], rest)
    | s => do
      let (k, rest) ← key (byte '=') (s.length + 1) s
      let (e, rest) ← value fuel (skipBlanks rest)
      match skipLines rest.length rest with
      | 44 :: rest =>
        let (fs, rest) ← fields fuel rest
        some (.mk k e :: fs, rest)
      | 125 :: rest => some ([.mk k e], rest)
      | _ => none

end

def statement (s : Bytes) : Option (Statement × Bytes) :=
  let fuel := 2 * s.length + 2
  match s with
  | 91 :: 91 :: rest => do
    let (k, rest) ← key (byte ']') fuel rest
    some (.element k, ← expect ']' rest)
  | 91 :: rest => do
    let (k, rest) ← key (byte ']') fuel rest
    some (.table k, rest)
  | s => do
    let (k, rest) ← key (byte '=') fuel s
    let (e, rest) ← value fuel (skipBlanks rest)
    some (.field (.mk k e), rest)

def lineEnd (s : Bytes) : Option Bytes :=
  match skipBlanks s with
  | [] => some []
  | b :: rest => if b = 35 then some (skipComment rest) else if isNewline b then some rest else none

def statementsFrom : (fuel : Nat) → Bytes → Option (List Statement)
  | 0, _ => none
  | fuel + 1, s =>
    match skipLines s.length s with
    | [] => some []
    | s => do
      let (first, rest) ← statement s
      let more ← statementsFrom fuel (← lineEnd rest)
      some (first :: more)

/-- Control characters stand nowhere in a document; a carriage return stands before a newline. -/
def allowed : Bytes → Bool
  | [] => true
  | 13 :: 10 :: s => allowed s
  | b :: s => (31 < b || b == 9 || b == 10) && b != 127 && allowed s

def dropMark : Bytes → Bytes
  | 0xFF :: 0xFE :: s => s
  | 0xFE :: 0xFF :: s => s
  | 0xEF :: 0xBB :: 0xBF :: s => s
  | s => s

def statements (document : Bytes) : Option (List Statement) :=
  let s := dropMark document
  if Utf8.valid s && allowed s then statementsFrom (s.length + 1) s else none

end LuaChunk.Toml
