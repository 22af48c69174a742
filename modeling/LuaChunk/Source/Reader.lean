import LuaChunk.Number.Numeral
import LuaChunk.Source.Token

/-!
Reading lexemes byte by byte. A reader stands on the current byte and saves the text of a token in a
buffer, which messages show and from which the texts of names, numerals and strings are cut. There
is a longest token and a last line.
-/

set_option autoImplicit false

namespace LuaChunk.Scan

open LuaChunk

/-- A place in the input: the bytes from there on and the line they start on. -/
structure Cursor where
  rest : Bytes
  line : Nat

/-- A malformed token: what is wrong, the text that messages show, and the place reached. -/
structure Fault where
  message : Bytes
  near : Bytes
  place : Cursor

/-- A token before names are told from reserved words. -/
inductive Lexeme where
  | byte (b : UInt8)
  | symbol (s : Symbol)
  | eos
  | number (n : Number) (raw : Bytes)
  | word (s : Bytes)
  | string (s : Bytes) (raw : Bytes)

def isNewline (b : UInt8) : Bool := b == 10 || b == 13

def isLetter (b : UInt8) : Bool :=
  b == byte '_' || (byte 'a' ≤ b && b ≤ byte 'z') || (byte 'A' ≤ b && b ≤ byte 'Z')

def isNameByte (b : UInt8) : Bool := isLetter b || Numeral.isDigit b

def simpleEscape? (b : UInt8) : Option UInt8 :=
  if b = byte 'a' then some 7
  else if b = byte 'b' then some 8
  else if b = byte 'f' then some 12
  else if b = byte 'n' then some 10
  else if b = byte 'r' then some 13
  else if b = byte 't' then some 9
  else if b = byte 'v' then some 11
  else if b = byte '\\' || b = byte '"' || b = 39 then some b
  else none

end LuaChunk.Scan

namespace LuaChunk

open Scan (Fault Lexeme Cursor isNewline isLetter isNameByte simpleEscape?)
open Numeral (isDigit isHexDigit)

def maxTokenSize : Nat := 1073741824

def maxLines : Nat := 2147483647

structure Reader where
  /-- the bytes from the current one on; there is none at the end of the input -/
  rest : Bytes
  line : Nat
  buffer : Array UInt8

namespace Reader

/-- Why reading stops before the end of a lexeme: the text is at fault, or a slice of the buffer is
out of range. -/
inductive Halt where
  | fault (f : Fault)
  | outOfRange

variable {α β : Type} (r : Reader)

def current? : Option UInt8 := r.rest.head?

def advance : Reader := { r with rest := r.rest.tail }

def clear : Reader := { r with buffer := #[] }

def text : Bytes := r.buffer.toList

def cursor : Cursor := ⟨r.rest, r.line⟩

def fail (message near : Bytes) : Except Halt α := .error (.fault ⟨message, near, r.cursor⟩)

def save (b : UInt8) : Except Halt Reader :=
  if maxTokenSize ≤ r.buffer.size then r.fail (utf8 "lexical element too long") []
  else .ok { r with buffer := r.buffer.push b }

/-- Saves the current byte and moves on; the end of the input counts as 255. -/
def saveAndAdvance : Except Halt Reader := do return (← r.save (r.current?.getD 255)).advance

def unsave (n : Nat) : Except Halt Reader :=
  if n ≤ r.buffer.size then .ok { r with buffer := r.buffer.shrink (r.buffer.size - n) }
    else .error .outOfRange

def inside (n : Nat) : Except Halt Bytes :=
  if 2 * n ≤ r.buffer.size then .ok (r.buffer.extract n (r.buffer.size - n)).toList
    else .error .outOfRange

def takeOf (set : List UInt8) : Except Halt (Bool × Reader) :=
  if r.current?.any set.contains then do return (true, ← r.saveAndAdvance) else .ok (false, r)

def skipNewline : Except Halt Reader :=
  let after := r.advance
  let after := if after.current?.any fun c => isNewline c && some c != r.current? then after.advance
    else after
  let after := { after with line := r.line + 1 }
  if maxLines ≤ after.line then after.fail (utf8 "chunk has too many lines") [] else .ok after

def Leaves (n : Nat) (place : α → Reader) (m : Except Halt α) : Prop := ∀ a, m = .ok a →
  (place a).rest.length ≤ n

namespace Leaves

variable {j n : Nat} {p : α → Reader} {q : β → Reader} {m : Except Halt α} {f : α → Except Halt β}
  {r : Reader}

theorem bind (h : Leaves j p m) (hf : ∀ a, (p a).rest.length ≤ j → Leaves n q (f a)) :
    Leaves n q (m >>= f) := by
  intro b hb
  cases m with
  | error e => cases hb
  | ok a => exact hf a (h a rfl) b hb

theorem pure {a : α} (h : (p a).rest.length ≤ n) : Leaves n p (Pure.pure a) := by
  rintro _ ⟨⟩
  exact h

theorem ok {a : α} (h : (p a).rest.length ≤ n) : Leaves n p (.ok a) := Leaves.pure h

theorem error {e : Halt} : Leaves n p (.error e) := by
  rintro _ ⟨⟩

theorem ite {c : Prop} [Decidable c] {m' : Except Halt α} (h : Leaves n p m) (h' : Leaves n p m') :
    Leaves n p (if c then m else m') := by
  split
  · exact h
  · exact h'

theorem stay {m : Except Halt β} {f : β → Except Halt α} (hf : ∀ b, Leaves n p (f b)) :
    Leaves n p (m >>= f) := by
  intro a ha
  cases m with
  | error e => cases ha
  | ok b => exact hf b a ha

theorem save (b : UInt8) : Leaves r.rest.length id (r.save b) := .ite .error (.ok (Nat.le_refl _))

theorem saveAndAdvance : Leaves (r.rest.length - 1) id r.saveAndAdvance := by
  refine (save _).bind fun r' h => .pure ?_
  show r'.rest.tail.length ≤ _
  rw [List.length_tail]
  exact Nat.sub_le_sub_right h 1

theorem unsave (k : Nat) : Leaves r.rest.length id (r.unsave k) := .ite (.ok (Nat.le_refl _)) .error

theorem takeOf (set : List UInt8) : Leaves r.rest.length Prod.snd (r.takeOf set) :=
  .ite (saveAndAdvance.bind fun _ h => .pure (Nat.le_trans h (Nat.sub_le ..))) (.ok (Nat.le_refl _))

theorem skipNewline : Leaves (r.rest.length - 1) id r.skipNewline := by
  refine .ite .error (.ok ?_)
  show (if _ then r.advance.advance else r.advance).rest.length ≤ _
  have : r.advance.rest.length = r.rest.length - 1 := List.length_tail
  split
  · show r.advance.rest.tail.length ≤ _
    rw [List.length_tail]
    omega
  · omega

end Leaves

def saveWhile (p : UInt8 → Bool) (count : Nat) (r : Reader) : Except Halt (Nat × Reader) :=
  match _hr : r.rest with
  | [] => .ok (count, r)
  | b :: _ =>
    if p b then
      match _h : r.saveAndAdvance with
      | .ok r' => saveWhile p (count + 1) r'
      | .error e => .error e
    else .ok (count, r)
termination_by r.rest.length
decreasing_by
  have : r'.rest.length ≤ _ := Leaves.saveAndAdvance r' _h
  simp only [_hr, List.length_cons] at this ⊢
  omega

theorem Leaves.saveWhile (p : UInt8 → Bool) (count : Nat) :
    Leaves r.rest.length Prod.snd (saveWhile p count r) := by
  fun_induction Reader.saveWhile p count r with
  | case1 | case4 => exact .ok (Nat.le_refl _)
  | case2 count r b s hr hb r' h ih =>
    have : r'.rest.length ≤ _ := Leaves.saveAndAdvance r' h
    exact fun a ha => Nat.le_trans (ih a ha) (Nat.le_trans this (Nat.sub_le ..))
  | case3 => exact .error

def skipBlanks (r : Reader) : Except Halt Reader :=
  match _hr : r.rest with
  | [] => .ok r
  | b :: _ =>
    if Text.isBlank b then
      match _h : if isNewline b then r.skipNewline else .ok r.advance with
      | .ok r' => skipBlanks r'
      | .error e => .error e
    else .ok r
termination_by r.rest.length
decreasing_by
  have : Leaves (r.rest.length - 1) id (if isNewline b then r.skipNewline else .ok r.advance) :=
    .ite .skipNewline (.ok (Nat.le_of_eq List.length_tail))
  have : r'.rest.length ≤ _ := this r' _h
  simp only [_hr, List.length_cons] at this ⊢
  omega

theorem Leaves.skipBlanks : Leaves r.rest.length id r.skipBlanks := by
  fun_induction Reader.skipBlanks r with
  | case1 | case4 => exact .ok (Nat.le_refl _)
  | case2 r b s hr hb r' h ih =>
    have hstep : Leaves (r.rest.length - 1) id
        (if isNewline b then r.skipNewline else .ok r.advance) :=
      .ite .skipNewline (.ok (Nat.le_of_eq List.length_tail))
    have : r'.rest.length ≤ _ := hstep r' h
    exact fun a ha => Nat.le_trans (ih a ha) (Nat.le_trans this (Nat.sub_le ..))
  | case3 => exact .error

/-- Reads a bracket, its signs and what may be a second bracket: 2 and their number if there is one,
else 1 for no signs and 0 for some. -/
def skipSep : Except Halt (Nat × Reader) := do
  let first := r.current?
  let (count, r) ← saveWhile (· == byte '=') 0 (← r.saveAndAdvance)
  if r.current? = first then return (count + 2, r)
  else if count = 0 then return (1, r)
  else return (0, r)

theorem Leaves.skipSep : Leaves (r.rest.length - 1) Prod.snd r.skipSep :=
  Leaves.saveAndAdvance.bind fun _ h => (Leaves.saveWhile _ _ _).bind fun _ h' =>
    have := Nat.le_trans h' h
    .ite (.pure this) (.ite (.pure this) (.pure this))

def unfinishedLong (keep : Bool) (start : Nat) : Bytes :=
  utf8 "unfinished long " ++ utf8 (if keep then "string" else "comment") ++
    utf8 " (starting at line "
    ++ Bytes.ofNat start ++ utf8 ")"

def longStep (keep : Bool) (b : UInt8) : Except Halt Reader :=
  if isNewline b then do
    let r ← (← r.save 10).skipNewline
    return if keep then r else r.clear
  else if keep then r.saveAndAdvance
  else .ok r.advance

theorem Leaves.longStep (keep : Bool) (b : UInt8) :
    Leaves (r.rest.length - 1) id (r.longStep keep b) := by
  refine .ite ((Leaves.save 10).bind fun r' h => Leaves.skipNewline.bind fun r'' h' => .pure ?_)
    (.ite .saveAndAdvance (.ok (Nat.le_of_eq List.length_tail)))
  have : r''.rest.length ≤ _ := Nat.le_trans h' (Nat.sub_le_sub_right h 1)
  show (if keep then r'' else r''.clear).rest.length ≤ _
  split
  · exact this
  · exact this

def longBody (keep : Bool) (sep start : Nat) (r : Reader) : Except Halt Reader :=
  match _hr : r.rest with
  | [] => r.fail (unfinishedLong keep start) TokenKind.eos.text
  | b :: _ =>
    if b = byte ']' then
      match _h : r.skipSep with
      | .ok (run, r') => if run = sep then r'.saveAndAdvance else longBody keep sep start r'
      | .error e => .error e
    else
      match _h : r.longStep keep b with
      | .ok r' => longBody keep sep start r'
      | .error e => .error e
termination_by r.rest.length
decreasing_by
  · have : r'.rest.length ≤ _ := Leaves.skipSep r (run, r') _h
    simp only [_hr, List.length_cons] at this ⊢
    omega
  · have : r'.rest.length ≤ _ := Leaves.longStep r keep b r' _h
    simp only [_hr, List.length_cons] at this ⊢
    omega

theorem Leaves.longBody (keep : Bool) (sep start : Nat) :
    Leaves r.rest.length id (longBody keep sep start r) := by
  fun_induction Reader.longBody keep sep start r with
  | case1 => exact .error
  | case2 r s r' hr h =>
    have : r'.rest.length ≤ _ := Leaves.skipSep r (sep, r') h
    exact fun a ha => Nat.le_trans (Leaves.saveAndAdvance a ha) (by omega)
  | case3 r s run r' h hne hr ih =>
    have : r'.rest.length ≤ _ := Leaves.skipSep r (run, r') h
    exact fun a ha => Nat.le_trans (ih a ha) (by omega)
  | case4 | case6 => exact .error
  | case5 r b s hr hb r' h ih =>
    have : r'.rest.length ≤ _ := Leaves.longStep r keep b r' h
    exact fun a ha => Nat.le_trans (ih a ha) (by omega)

/-- A long bracket from its second opening bracket on. A newline right after it is not kept. -/
def longString (keep : Bool) (sep : Nat) : Except Halt Reader := do
  let r' ← r.saveAndAdvance
  let r' ← (if r'.current?.any isNewline then r'.skipNewline else .ok r')
  longBody keep sep r.line r'

theorem Leaves.longString (keep : Bool) (sep : Nat) :
    Leaves r.rest.length id (r.longString keep sep) :=
  Leaves.saveAndAdvance.bind fun r' (h : r'.rest.length ≤ _) =>
    have hnewline : Leaves r'.rest.length id
        (if r'.current?.any isNewline then r'.skipNewline else .ok r') :=
      .ite (fun a ha => Nat.le_trans (Leaves.skipNewline a ha) (Nat.sub_le ..))
        (.ok (Nat.le_refl _))
    hnewline.bind fun r'' (h' : r''.rest.length ≤ _) a ha =>
      Nat.le_trans (Leaves.longBody r'' keep sep r.line a ha)
        (Nat.le_trans h' (Nat.le_trans h (Nat.sub_le ..)))

def check (ok : Bool) (message : String) : Except Halt Unit :=
  if ok then .ok ()
  else do
    let r ← (if r.current?.isSome then r.saveAndAdvance else .ok r)
    r.fail (utf8 message) (Token.quote r.text)

/-- Saves the current byte; the next one is to be a hexadecimal digit. -/
def hexDigit : Except Halt (Nat × Reader) := do
  let r ← r.saveAndAdvance
  r.check (r.current?.any isHexDigit) "hexadecimal digit expected"
  return (Numeral.hexValue (r.current?.getD 255), r)

def hexEscape : Except Halt (UInt8 × Reader) := do
  let (high, r) ← r.hexDigit
  let (low, r) ← r.hexDigit
  return ((16 * high + low).toUInt8, ← r.unsave 2)

/-- Saves up to `n` decimal digits: their value and how many there are. -/
def decimalDigits : (n value count : Nat) → Reader → Except Halt (Nat × Nat × Reader)
  | 0, value, count, r => .ok (value, count, r)
  | n + 1, value, count, r =>
    match r.current? with
    | some b =>
      if isDigit b
        then do decimalDigits n (10 * value + Numeral.digitValue b) (count + 1) (← r.saveAndAdvance)
      else .ok (value, count, r)
    | none => .ok (value, count, r)

def decimalEscape : Except Halt (UInt8 × Reader) := do
  let (value, count, r) ← decimalDigits 3 0 0 r
  r.check (value ≤ 255) "decimal escape too large"
  return (value.toUInt8, ← r.unsave count)

/-- The digits of a code after the first one, which is the current byte: how many bytes are saved,
and the value. -/
def codeDigits (count : Nat) (value : UInt32) (r : Reader) : Except Halt (Nat × UInt32 × Reader) :=
  match _h : r.saveAndAdvance with
  | .ok r' =>
    match _hr : r'.rest with
    | b :: _ =>
      if isHexDigit b then
        match r'.check (value ≤ 0x7FFFFFF) "UTF-8 value too large" with
        | .ok () => codeDigits (count + 1) (value <<< 4 + (Numeral.hexValue b).toUInt32) r'
        | .error e => .error e
      else .ok (count, value, r')
    | [] => .ok (count, value, r')
  | .error e => .error e
termination_by r.rest.length
decreasing_by
  have : r'.rest.length ≤ _ := Leaves.saveAndAdvance r' _h
  simp only [_hr, List.length_cons] at this ⊢
  omega

def codeEscape : Except Halt Reader := do
  let r ← r.saveAndAdvance
  r.check (r.current? == some 123) "missing '\x7b' in \\u\x7bxxxx\x7d"
  let (first, r) ← r.hexDigit
  let (count, value, r) ← codeDigits 4 first.toUInt32 r
  r.check (r.current? == some 125) "missing '\x7d' in \\u\x7bxxxx\x7d"
  let r ← r.advance.unsave count
  (Utf8.encode value.toNat).foldlM (fun r b => r.save b) r

def replace (b : UInt8) : Except Halt Reader := do (← r.unsave 1).save b

/-- An escape from its backslash on. At the end of the input it is left to the caller to
complain. -/
def escape : Except Halt Reader := do
  let r ← r.saveAndAdvance
  match r.current? with
  | none => return r
  | some b =>
    match simpleEscape? b with
    | some c => r.advance.replace c
    | none =>
      if b = byte 'x' then
        let (c, r) ← r.hexEscape
        r.advance.replace c
      else if b = byte 'u' then r.codeEscape
      else if isNewline b then (← r.skipNewline).replace 10
      else if b = byte 'z' then (← r.unsave 1).advance.skipBlanks
      else
        r.check (isDigit b) "invalid escape sequence"
        let (c, r) ← r.decimalEscape
        r.replace c

theorem Leaves.hexDigit : Leaves (r.rest.length - 1) Prod.snd r.hexDigit :=
  Leaves.saveAndAdvance.bind fun _ h => .stay fun _ => .pure h

theorem Leaves.decimalDigits (n value count : Nat) :
    Leaves r.rest.length (fun p => p.2.2) (Reader.decimalDigits n value count r) := by
  induction n generalizing value count r with
  | zero => exact .ok (Nat.le_refl _)
  | succ n ih =>
    unfold Reader.decimalDigits
    split
    · refine .ite (Leaves.saveAndAdvance.bind fun r' h a ha => ?_) (.ok (Nat.le_refl _))
      exact Nat.le_trans (ih r' _ _ a ha) (Nat.le_trans h (Nat.sub_le ..))
    · exact .ok (Nat.le_refl _)

theorem Leaves.codeDigits (count : Nat) (value : UInt32) :
    Leaves (r.rest.length - 1) (fun p => p.2.2) (codeDigits count value r) := by
  fun_induction Reader.codeDigits count value r with
  | case1 count value r r' h b s hr hb _ ih =>
    have : r'.rest.length ≤ _ := Leaves.saveAndAdvance r' h
    exact fun a ha => Nat.le_trans (ih a ha) (Nat.le_trans (Nat.sub_le ..) this)
  | case2 | case5 => exact .error
  | case3 count value r r' h | case4 count value r r' h => exact .ok (Leaves.saveAndAdvance r' h)

theorem Leaves.replace (b : UInt8) : Leaves r.rest.length id (r.replace b) :=
  (Leaves.unsave 1).bind fun r' (h : r'.rest.length ≤ _) a ha => Nat.le_trans (Leaves.save b a ha) h

theorem Leaves.codeEscape : Leaves (r.rest.length - 1) id r.codeEscape := by
  have hsaves : ∀ (bytes : Bytes) (r : Reader),
      Leaves r.rest.length id (bytes.foldlM (fun r b => r.save b) r) := by
    intro bytes
    induction bytes with
    | nil => exact fun r => .ok (Nat.le_refl _)
    | cons b bytes ih =>
      intro r
      rw [List.foldlM_cons]
      exact (Leaves.save b).bind fun r' (h : r'.rest.length ≤ _) a ha => Nat.le_trans (ih r' a ha) h
  refine Leaves.saveAndAdvance.bind fun r₁ (h₁ : r₁.rest.length ≤ _) => .stay fun _ => ?_
  refine Leaves.hexDigit r₁ |>.bind fun p h₂ => (Leaves.codeDigits p.2 4 _).bind fun p' h₃ =>
    .stay fun _ => ?_
  refine (Leaves.unsave p'.1).bind fun r₄ (h₄ : r₄.rest.length ≤ p'.2.2.rest.tail.length) a ha =>
    Nat.le_trans (hsaves _ r₄ a ha) ?_
  rw [List.length_tail] at h₄
  omega

theorem Leaves.escape : Leaves (r.rest.length - 1) id r.escape := by
  refine Leaves.saveAndAdvance.bind fun r₁ (h₁ : r₁.rest.length ≤ _) => ?_
  have hadvance : ∀ r : Reader, r.advance.rest.length ≤ r.rest.length := fun r => by
    show r.rest.tail.length ≤ _
    rw [List.length_tail]
    exact Nat.sub_le ..
  have hreplace : ∀ {r : Reader} {c : UInt8}, r.rest.length ≤ r₁.rest.length →
      Leaves _ id (r.replace c) :=
    fun {r c} h a ha => Nat.le_trans (Leaves.replace r c a ha) (Nat.le_trans h h₁)
  dsimp only
  split
  · exact .pure h₁
  split
  · exact hreplace (hadvance _)
  refine .ite ?_ (.ite ?_ (.ite ?_ (.ite ?_ ?_)))
  · refine Leaves.bind (j := r₁.rest.length) (p := Prod.snd) ?_ fun p h =>
      hreplace (Nat.le_trans (hadvance _) h)
    refine (Leaves.hexDigit r₁).bind fun p h₂ => (Leaves.hexDigit p.2).bind fun p' h₃ =>
      (Leaves.unsave 2).bind fun r₄ h₄ => .pure ?_
    exact Nat.le_trans h₄ (by omega)
  · exact fun a ha => Nat.le_trans (Leaves.codeEscape r₁ a ha) (Nat.le_trans (Nat.sub_le ..) h₁)
  · exact Leaves.skipNewline.bind fun r₂ (h₂ : r₂.rest.length ≤ _) =>
      hreplace (Nat.le_trans h₂ (Nat.sub_le ..))
  · refine (Leaves.unsave 1).bind fun r₂ (h₂ : r₂.rest.length ≤ _) a ha => ?_
    exact Nat.le_trans (Leaves.skipBlanks _ a ha) (Nat.le_trans (hadvance _) (Nat.le_trans h₂ h₁))
  · refine .stay fun _ => Leaves.bind (j := r₁.rest.length) (p := Prod.snd) ?_ fun p h => hreplace h
    refine (Leaves.decimalDigits r₁ 3 0 0).bind fun p h₂ => .stay fun _ =>
      (Leaves.unsave p.2.1).bind fun r₃ h₃ => .pure ?_
    exact Nat.le_trans h₃ h₂

def quotedBody (delim : UInt8) (r : Reader) : Except Halt Reader :=
  match _hr : r.rest with
  | [] => r.fail (utf8 "unfinished string") TokenKind.eos.text
  | b :: _ =>
    if b = delim then .ok r
    else if isNewline b then r.fail (utf8 "unfinished string") (Token.quote r.text)
    else
      match _h : if b = byte '\\' then r.escape else r.saveAndAdvance with
      | .ok r' => quotedBody delim r'
      | .error e => .error e
termination_by r.rest.length
decreasing_by
  have hstep : Leaves (r.rest.length - 1) id
      (if b = byte '\\' then r.escape else r.saveAndAdvance) := .ite (.escape r) .saveAndAdvance
  have : r'.rest.length ≤ _ := hstep r' _h
  simp only [_hr, List.length_cons] at this ⊢
  omega

def quoted (delim : UInt8) : Except Halt (Lexeme × Reader) := do
  let r ← quotedBody delim (← r.saveAndAdvance)
  let r ← r.saveAndAdvance
  return (.string (← r.inside 1) r.text, r)

/-- Saves the bytes that may belong to a numeral. A sign may follow the letter of an exponent. -/
def numeralDigits (exponent : List UInt8) (r : Reader) : Except Halt Reader :=
  match _hr : r.rest with
  | [] => .ok r
  | b :: _ =>
    if exponent.contains b || isHexDigit b || b == byte '.' then
      match _h : r.saveAndAdvance with
      | .ok r' =>
        if exponent.contains b then
          match _h' : r'.takeOf [byte '-', byte '+'] with
          | .ok (_, r'') => numeralDigits exponent r''
          | .error e => .error e
        else numeralDigits exponent r'
      | .error e => .error e
    else .ok r
termination_by r.rest.length
decreasing_by
  · have : r'.rest.length ≤ _ := Leaves.saveAndAdvance r' _h
    have : r''.rest.length ≤ _ := Leaves.takeOf _ _ _h'
    simp only [_hr, List.length_cons] at *
    omega
  · have : r'.rest.length ≤ _ := Leaves.saveAndAdvance r' _h
    simp only [_hr, List.length_cons] at *
    omega

/-- A numeral: permissive, its text tells whether it is one. A letter right after it belongs to it,
so that it is none. -/
def numeral : Except Halt (Lexeme × Reader) := do
  let first := r.current?
  let r ← r.saveAndAdvance
  let (hex, r) ← (if first = some (byte '0') then r.takeOf [byte 'x', byte 'X'] else .ok (false, r))
  let r ← numeralDigits (if hex then [byte 'P', byte 'p'] else [byte 'E', byte 'e']) r
  let r ← (if r.current?.any isLetter then r.saveAndAdvance else .ok r)
  match Numeral.read r.text with
  | some n => return (.number n r.text, r)
  | none => r.fail (utf8 "malformed number") (Token.quote r.text)

/-- A symbol of two bytes if its second one follows, else the first byte alone. -/
def symbol (b : UInt8) (table : List (UInt8 × Symbol)) : Lexeme × Reader :=
  match r.advance.current?.bind fun c => table.lookup c with
  | some s => (.symbol s, r.advance.advance)
  | none => (.byte b, r.advance)

def bracket : Except Halt (Lexeme × Reader) := do
  let (sep, r) ← r.skipSep
  if 2 ≤ sep then
    let r ← r.longString true sep
    return (.string (← r.inside sep) r.text, r)
  else if sep = 0 then r.fail (utf8 "invalid long string delimiter") (Token.quote r.text)
  else return (.byte (byte '['), r)

def points : Except Halt (Lexeme × Reader) := do
  let (second, r) ← (← r.saveAndAdvance).takeOf [byte '.']
  if second then
    let (third, r) ← r.takeOf [byte '.']
    return (.symbol (if third then .dots else .concat), r)
  else if r.current?.any isDigit then r.numeral
  else return (.byte (byte '.'), r)

def lexeme (b : UInt8) : Except Halt (Lexeme × Reader) :=
  if b = byte '[' then r.bracket
  else if b = byte '=' then .ok (r.symbol b [(byte '=', .eq)])
  else if b = byte '<' then .ok (r.symbol b [(byte '=', .le), (byte '<', .shl)])
  else if b = byte '>' then .ok (r.symbol b [(byte '=', .ge), (byte '>', .shr)])
  else if b = byte '/' then .ok (r.symbol b [(byte '/', .idiv)])
  else if b = byte '~' then .ok (r.symbol b [(byte '=', .ne)])
  else if b = byte ':' then .ok (r.symbol b [(byte ':', .colons)])
  else if b = byte '"' || b = 39 then r.quoted b
  else if b = byte '.' then r.points
  else if isDigit b then r.numeral
  else if isLetter b then do
    let (_, r) ← saveWhile isNameByte 0 r
    return (.word r.text, r)
  else .ok (.byte b, r.advance)

def skipLine : Reader := { r with rest := r.rest.dropWhile fun b => !isNewline b }

/-- A comment after its dashes: a long bracket, or the rest of the line. -/
def comment : Except Halt Reader := do
  if r.current? = some (byte '[') then
    let (sep, r) ← r.skipSep
    let r := r.clear
    if 2 ≤ sep then return (← r.longString false sep).clear
    else return r.skipLine
  else return r.skipLine

theorem Leaves.comment : Leaves r.rest.length id r.comment := by
  have hline : ∀ r : Reader, (r.rest.dropWhile fun b => !isNewline b).length ≤ r.rest.length :=
    fun r => (List.dropWhile_sublist _).length_le
  refine .ite ((Leaves.skipSep r).bind fun p h => .ite ?_ (.pure ?_)) (.pure (hline r))
  · exact (Leaves.longString _ false p.1).bind fun r' h' =>
      .pure (Nat.le_trans h' (Nat.le_trans h (Nat.sub_le ..)))
  · exact Nat.le_trans (hline p.2) (Nat.le_trans h (Nat.sub_le ..))

/-- The next lexeme, after blanks, newlines and comments. -/
def next (r : Reader) : Except Halt (Lexeme × Reader) :=
  match _hr : r.rest with
  | [] => .ok (.eos, r)
  | b :: _ =>
    if isNewline b then
      match _h : r.skipNewline with
      | .ok r' => next r'
      | .error e => .error e
    else if Text.isBlank b then next r.advance
    else if b = byte '-' then
      if r.advance.current? = some (byte '-') then
        match _h : r.advance.advance.comment with
        | .ok r' => next r'
        | .error e => .error e
      else .ok (.byte b, r.advance)
    else r.lexeme b
termination_by r.rest.length
decreasing_by
  · have : r'.rest.length ≤ _ := Leaves.skipNewline r' _h
    simp only [_hr, List.length_cons] at this ⊢
    omega
  · simp [advance, _hr]
  · have : r'.rest.length ≤ _ := Leaves.comment _ r' _h
    simp only [advance, _hr, List.length_cons, List.tail_cons, List.length_tail] at this ⊢
    omega

/-- The next lexeme of an input, and the place after it. -/
def scan (s : Bytes) (line : Nat) : Except Halt (Lexeme × Cursor) := do
  let (x, r) ← next ⟨s, line, #[]⟩
  return (x, r.cursor)

end Reader

end LuaChunk
