import LuaChunk.Compile.Chunk
import LuaChunk.Markdown.Document
import LuaChunk.Text.Quoted

/-!
Examples in Markdown texts. A fenced block whose language is `lua` is an example. It has to compile,
or, if a word `error=…` comes after the language, to fail with an error that has the text after the
equals sign in it, where underscores stand for blanks.
-/

set_option autoImplicit false

namespace LuaChunk.Doctest

open LuaChunk

structure Example where
  file : Bytes
  /-- the line of the file with the first line of the source -/
  line : Nat
  source : Bytes
  /-- what the error has to say; empty if the example has to compile -/
  want : Bytes
  deriving DecidableEq, Repr

/-- The expected error that the words after the language ask for; the last one counts. -/
def wantOf (words : List Bytes) : Bytes :=
  let wants := words.filterMap (Bytes.dropPrefix? (utf8 "error="))
  (wants.getLast?.getD []).map fun b => if b = byte '_' then 32 else b

def Example.ofFence? (file : Bytes) (f : Markdown.Fence) : Option Example :=
  if f.info.takeWhile (· != 32) = utf8 "lua" then
    some ⟨file, f.line?.getD 1, f.content, wantOf ((Text.words f.info).drop 1)⟩
  else none

def examples (file text : Bytes) : List Example :=
  (Markdown.fences text).filterMap (Example.ofFence? file)

structure Result where
  subject : Example
  complaint : Option Bytes
  deriving DecidableEq, Repr

def Result.passed (r : Result) : Bool := r.complaint.isNone

/-- The name of an example's chunk: where it stands. -/
def Example.chunk (e : Example) : Bytes :=
  utf8 "=" ++ e.file ++ utf8 ":" ++ Bytes.ofNat e.line

/-- What is wrong with the outcome of a compilation, given as the text of its error. -/
def complaint? (want : Bytes) : (error : Option Bytes) → Option Bytes
  | none =>
    if want.isEmpty then none
    else some (utf8 "compiled, expected error containing " ++ Text.quoted want)
  | some error =>
    if want.isEmpty then some error
    else if Bytes.occursIn want error then none
    else some (utf8 "error " ++ Text.quoted error ++ utf8 " does not contain " ++ Text.quoted want)

def Example.check (e : Example) : Result :=
  let error := match compile e.chunk e.source with
    | .ok _ => none
    | .error f => some (f.text?.getD [])
  ⟨e, complaint? e.want error⟩

def check (file text : Bytes) : List Result := (examples file text).map Example.check

/-- The codes that change how a terminal shows text. -/
inductive Shade where
  | bold
  | red
  | green
  | dim
  deriving DecidableEq, Repr

def Shade.code : Shade → Nat
  | .bold => 1
  | .red => 31
  | .green => 32
  | .dim => 90

def escape (code : Nat) : Bytes := 27 :: utf8 "[" ++ Bytes.ofNat code ++ utf8 "m"

def shaded (shade : Shade) (s : Bytes) : Bytes := escape shade.code ++ s ++ escape 0

def Example.title (e : Example) : Bytes := (Text.trim e.source).takeWhile (· != 10)

def Result.report (r : Result) : Bytes :=
  let line := fun (sign : Bytes) => utf8 "  " ++ sign ++ utf8 " line " ++ Bytes.ofNat r.subject.line
    ++ utf8 ": " ++ r.subject.title ++ utf8 "\n"
  match r.complaint with
  | none => line (shaded .green (utf8 "✓"))
  | some c => line (shaded .red (utf8 "✗")) ++ utf8 "    " ++ shaded .red c ++ utf8 "\n"

def reports : (file : Bytes) → List Result → Bytes
  | file, [] => if file.isEmpty then [] else utf8 "\n"
  | file, r :: rest =>
    let header :=
      if r.subject.file = file then []
      else (if file.isEmpty then [] else utf8 "\n") ++ shaded .bold r.subject.file ++ utf8 "\n"
    header ++ r.report ++ reports r.subject.file rest

def report (verbose : Bool) (rs : List Result) : Bytes :=
  reports [] (rs.filter fun r => verbose || !r.passed)

def passedCount (rs : List Result) : Nat := (rs.filter Result.passed).length

def failedCount (rs : List Result) : Nat := (rs.filter fun r => !r.passed).length

/-- The last lines of a report: how many examples passed and failed, and how long it took. -/
def summary (rs : List Result) (elapsed : Bytes) : Bytes :=
  let count := fun (n : Nat) (what : String) => Bytes.ofNat n ++ utf8 what
  let total := utf8 ", " ++ count rs.length " total (" ++ elapsed ++ utf8 ")\n"
  let passed := utf8 "Results: " ++ shaded .green (count (passedCount rs) " passed")
  shaded .dim (List.replicate 40 (utf8 "─")).flatten ++ utf8 "\n" ++
    if rs.isEmpty then utf8 "No lua blocks found.\n"
    else if failedCount rs = 0 then passed ++ total
    else passed ++ utf8 ", " ++ shaded .red (count (failedCount rs) " failed") ++ total

end LuaChunk.Doctest
