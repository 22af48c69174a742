import LuaChunk.Text.Quoted

/-!
Flags on a command line. A flag starts with one or two hyphens. Switches and counters need no value
and take one only after an equals sign; a flag with a text takes it from there or from the next
argument. The first argument that is no flag ends the flags, and so does `--`, which is dropped.
-/

set_option autoImplicit false

namespace LuaChunk.CommandLine

open LuaChunk

/-- The value of a flag. -/
inductive Setting where
  | switch (on : Bool)
  /-- how often a flag was given since it was last turned off -/
  | count (n : Nat)
  | text (s : Bytes)
  deriving DecidableEq, Repr

structure Flag where
  name : Bytes
  usage : Bytes
  initial : Setting
  deriving DecidableEq, Repr

def Flag.switch (name usage : String) : Flag := ⟨utf8 name, utf8 usage, .switch false⟩

def Flag.count (name usage : String) : Flag := ⟨utf8 name, utf8 usage, .count 0⟩

def Flag.text (name initial usage : String) : Flag := ⟨utf8 name, utf8 usage, .text (utf8 initial)⟩

/-- The values of flags; of two values of a flag the first one counts. -/
abbrev Settings := List (Bytes × Setting)

namespace Settings

def isOn (s : Settings) (name : String) : Bool :=
  match s.lookup (utf8 name) with
  | some (.switch on) => on
  | _ => false

def count (s : Settings) (name : String) : Nat :=
  match s.lookup (utf8 name) with
  | some (.count n) => n
  | _ => 0

def text (s : Settings) (name : String) : Bytes :=
  match s.lookup (utf8 name) with
  | some (.text t) => t
  | _ => []

end Settings

inductive FlagError where
  | badSyntax (arg : Bytes)
  | undefined (name : Bytes)
  | badSwitch (name value : Bytes)
  | badCount (name value : Bytes)
  | noValue (name : Bytes)
  | help
  deriving DecidableEq, Repr

def FlagError.text? : FlagError → Option Bytes
  | .badSyntax arg => some (utf8 "bad flag syntax: " ++ arg)
  | .undefined name => some (utf8 "flag provided but not defined: -" ++ name)
  | .badSwitch name value => some (utf8 "invalid boolean value " ++ Text.quoted value
      ++ utf8 " for -" ++ name ++ utf8 ": parse error")
  | .badCount name value => some (utf8 "invalid boolean value " ++ Text.quoted value
      ++ utf8 " for -" ++ name ++ utf8 ": strconv.ParseBool: parsing " ++ Text.quoted value
      ++ utf8 ": invalid syntax")
  | .noValue name => some (utf8 "flag needs an argument: -" ++ name)
  | .help => none

def truth? (s : Bytes) : Option Bool :=
  if ["1", "t", "T", "true", "TRUE", "True"].any (utf8 · == s) then some true
  else if ["0", "f", "F", "false", "FALSE", "False"].any (utf8 · == s) then some false
  else none

/-- An argument that may be a flag. -/
inductive Argument where
  | plain
  | stop
  | bad
  | flag (name : Bytes) (value : Option Bytes)
  deriving DecidableEq, Repr

/-- A flag's name and the value after the first equals sign, which is not the first byte. -/
def Argument.ofBody (body : Bytes) : Argument :=
  match body with
  | [] => .bad
  | b :: rest =>
    if b = byte '-' || b = byte '=' then .bad
    else
      let name := b :: rest.takeWhile (· != byte '=')
      match rest.dropWhile (· != byte '=') with
      | [] => .flag name none
      | _ :: value => .flag name (some value)

def Argument.read (arg : Bytes) : Argument :=
  match arg with
  | 45 :: 45 :: [] => .stop
  | 45 :: 45 :: body => .ofBody body
  | 45 :: b :: body => .ofBody (b :: body)
  | _ => .plain

abbrev FlagSet := List Flag

namespace FlagSet

def initial (fs : FlagSet) : Settings := fs.map fun f => (f.name, f.initial)

/-- The value of a flag that is given with a value or none; none if it wants the next argument. -/
def valueOf (name : Bytes) (old : Setting) (value : Option Bytes) :
    Except FlagError (Option Setting) :=
  match old with
  | .text _ => .ok (value.map .text)
  | .switch _ =>
    match truth? (value.getD (utf8 "true")) with
    | some on => .ok (some (.switch on))
    | none => .error (.badSwitch name (value.getD []))
  | .count n =>
    match truth? (value.getD (utf8 "true")) with
    | some on => .ok (some (.count (if on then n + 1 else 0)))
    | none => .error (.badCount name (value.getD []))

/-- Reads the flags of a command line, given the values so far; gives the values and the arguments
after the flags. -/
def readFrom (s : Settings) : List Bytes → Except FlagError (Settings × List Bytes)
  | [] => .ok (s, [])
  | arg :: rest =>
    match Argument.read arg with
    | .plain => .ok (s, arg :: rest)
    | .stop => .ok (s, rest)
    | .bad => .error (.badSyntax arg)
    | .flag name value =>
      match s.lookup name with
      | none =>
        .error (if name = utf8 "help" || name = utf8 "h" then .help else .undefined name)
      | some old =>
        match valueOf name old value with
        | .error e => .error e
        | .ok (some new) => readFrom ((name, new) :: s) rest
        | .ok none =>
          match rest with
          | [] => .error (.noValue name)
          | text :: rest => readFrom ((name, .text text) :: s) rest

def read (fs : FlagSet) (args : List Bytes) : Except FlagError (Settings × List Bytes) :=
  readFrom fs.initial args

/-- How a flag is shown in a table of flags. One with a short name and no value has its usage on the
same line. -/
def describe (f : Flag) : Bytes :=
  let head := utf8 "  -" ++ f.name ++ (match f.initial with
    | .text _ => utf8 " string"
    | _ => [])
  let gap := if head.length ≤ 4 then utf8 "\t" else utf8 "\n    \t"
  let default := match f.initial with
    | .text [] => []
    | .text s => utf8 " (default " ++ Text.quoted s ++ utf8 ")"
    | _ => []
  head ++ gap ++ f.usage ++ default ++ utf8 "\n"

/-- The table of flags, in order of their names. -/
def table (fs : FlagSet) : Bytes :=
  (fs.mergeSort fun a b => Bytes.le a.name b.name).flatMap describe

end FlagSet

end LuaChunk.CommandLine
