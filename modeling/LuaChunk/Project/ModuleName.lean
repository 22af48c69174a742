import LuaChunk.Source.Token
import LuaChunk.Text.Quoted

/-!
Module names. The chunks of a dependency are grouped under a name made from the dependency's own:
`my-lib` gives `my_lib`, and a name that starts with a digit is given an underscore before it.
-/

set_option autoImplicit false

namespace LuaChunk.Project

open LuaChunk

def isDigit (code : Nat) : Bool := 48 ≤ code && code ≤ 57

def isLetter (code : Nat) : Bool := (97 ≤ code && code ≤ 122) || (65 ≤ code && code ≤ 90)

/-- What a character of a dependency's name becomes: letters, digits and underscores stay, the
usual separators become underscores, and all else is left out. -/
def modulePart : Utf8.Rune → Bytes
  | .stray _ => []
  | .char code =>
    if code = 45 || code = 46 || code = 32 || code = 95 then [byte '_']
    else if isLetter code || isDigit code then [code.toUInt8]
    else []

def startsWithDigit : List Utf8.Rune → Bool
  | .char code :: _ => isDigit code
  | _ => false

/-- The module name made from a dependency's name. -/
def moduleName (dependency : Bytes) : Bytes :=
  let runes := Utf8.runes dependency
  (if startsWithDigit runes then [byte '_'] else []) ++ runes.flatMap modulePart

/-- Why a dependency's name gives no module name. -/
inductive BadName where
  | unusable (dependency : Bytes)
  | reserved (dependency module : Bytes)
  deriving DecidableEq, Repr

def BadName.text : BadName → Bytes
  | .unusable d => utf8 "dependency " ++ Text.quoted d ++ utf8 " has no usable module name"
  | .reserved d m =>
    utf8 "dependency " ++ Text.quoted d ++ utf8 " resolves to reserved word " ++ Text.quoted m

/-- The module name of a dependency: it is not empty and no reserved word. -/
def checkedModuleName (dependency : Bytes) : Except BadName Bytes :=
  let m := moduleName dependency
  if m.isEmpty then .error (.unusable dependency)
  else if Keyword.isReserved m then .error (.reserved dependency m)
  else .ok m

end LuaChunk.Project
