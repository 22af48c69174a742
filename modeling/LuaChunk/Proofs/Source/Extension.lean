import Mathlib.Data.List.TakeWhile
import LuaChunk.Proofs.Source.Stream
import LuaChunk.Proofs.Source.Lookahead

set_option autoImplicit false

namespace LuaChunk

open Scan (Fault Lexeme Cursor isNewline isLetter isNameByte)
open Numeral (isDigit isHexDigit)

namespace Reader

class Placed (α : Type) where
  left : α → Bytes
  more : α → Bytes → α

export Placed (left more)

instance : Placed Reader := ⟨Reader.rest, fun r x => { r with rest := r.rest ++ x }⟩

instance : Placed Cursor := ⟨Cursor.rest, fun c x => ⟨c.rest ++ x, c.line⟩⟩

instance {α β : Type} [Placed β] : Placed (α × β) :=
  ⟨fun p => left p.2, fun p x => (p.1, more p.2 x)⟩

instance : Placed Fault := ⟨fun f => left f.place, fun f x => { f with place := more f.place x }⟩

instance : Placed Halt where
  left
    | .fault f => left f
    | .outOfRange => []
  more
    | .fault f, x => .fault (more f x)
    | .outOfRange, _ => .outOfRange

def Ended {ε α : Type} [Placed ε] [Placed α] : Except ε α → Prop
  | .ok a => left a = []
  | .error e => left e = []

/-- The second result is the first one on input that goes on with `x`, unless the first one was
found where the input ended. -/
inductive Settled {ε α : Type} [Placed ε] [Placed α] (x : Bytes) : Except ε α → Except ε α → Prop
  | ok (a : α) : Settled x (.ok a) (.ok (more a x))
  | error (e : ε) : Settled x (.error e) (.error (more e x))
  | ended {m m' : Except ε α} (h : Ended m) : Settled x m m'

/-- The results of an action before `rest`, where the input ends after it and where it goes on.
Where nothing is left the input has ended. -/
structure Steady {α : Type} [Placed α] (x rest : Bytes) (m m' : Except Halt α) : Prop where
  settled : Settled x m m'
  ended : rest = [] → Ended m

variable {α β : Type} [Placed α] [Placed β] {x rest : Bytes} {r : Reader} {m m' : Except Halt α}

theorem Ended.bind {f : α → Except Halt β} (h : Ended m)
    (hf : ∀ a, m = .ok a → left a = [] → Ended (f a)) : Ended (m >>= f) := by
  cases m with
  | error e => exact h
  | ok a => exact hf a rfl h

theorem Settled.bind {f f' : α → Except Halt β} (h : Settled x m m')
    (hf : ∀ a, m = .ok a → Steady x (left a) (f a) (f' (more a x))) : Settled x (m >>= f)
    (m' >>= f') := by
  cases h with
  | ok a => exact (hf a rfl).settled
  | error e => exact .error e
  | ended h => exact .ended (h.bind fun a ha => (hf a ha).ended)

namespace Steady

/-- What is done with the current byte: at the end of the input only the one result counts, and
elsewhere the byte is the same. -/
theorem of_current {F G : Option UInt8 → Except Halt α}
    (h : ∀ c, r.current? = c → Steady x r.rest (F c) (G c)) :
    Steady x r.rest (F r.current?) (G (more r x).current?) := by
  have hsteady := h _ rfl
  by_cases hr : r.rest = []
  · exact ⟨.ended (hsteady.ended hr), hsteady.ended⟩
  · have hcurrent : (more r x).current? = r.current? := by
      obtain ⟨b, s, hr⟩ := List.exists_cons_of_ne_nil hr
      show (r.rest ++ x).head? = r.rest.head?
      rw [hr]
      rfl
    rw [hcurrent]
    exact hsteady

theorem bind {f g : α → Except Halt β} (h : Steady x rest m m')
    (hf : ∀ a, m = .ok a → Steady x (left a) (f a) (g (more a x))) : Steady x rest (m >>= f)
    (m' >>= g) :=
  ⟨h.settled.bind hf, fun hr => (h.ended hr).bind fun a ha => (hf a ha).ended⟩

theorem ok {a : α} (h : rest = [] → left a = []) : Steady x rest (.ok a) (.ok (more a x)) :=
  ⟨.ok a, h⟩

omit [Placed α] [Placed β] in
theorem pair (b : β) : Steady x r.rest (.ok (b, r)) (.ok (b, more r x)) := ok id

theorem fail {message near : Bytes} : Steady x r.rest (r.fail message near : Except Halt α)
    ((more r x).fail message near) :=
  ⟨.error _, id⟩

theorem outOfRange : Steady x rest (.error .outOfRange : Except Halt α) (.error .outOfRange) :=
  ⟨.error Halt.outOfRange, fun _ => rfl⟩

theorem ite {c : Prop} [Decidable c] {n n' : Except Halt α} (h : Steady x rest m m')
    (h' : Steady x rest n n') :
    Steady x rest (if c then m else n) (if c then m' else n') := by
  split
  · exact h
  · exact h'

theorem elim {n n' : Except Halt α} {F G : UInt8 → Except Halt α} (h₀ : Steady x r.rest n n')
    (h : ∀ b s, r.rest = b :: s → Steady x r.rest (F b) (G b)) :
    Steady x r.rest (r.current?.elim n F) ((more r x).current?.elim n' G) := by
  refine of_current (F := fun c => c.elim n F) (G := fun c => c.elim n' G) fun c hc => ?_
  cases c with
  | none => exact h₀
  | some b =>
    obtain ⟨s, hs⟩ := List.head?_eq_some_iff.1 hc
    exact h b s hs

end Steady

theorem steady_advance : Steady x r.rest (.ok r.advance) (.ok (more r x).advance) := by
  cases hr : r.rest with
  | nil =>
    have hend : r.advance.rest = [] := congrArg List.tail hr
    exact ⟨.ended hend, fun _ => hend⟩
  | cons b s =>
    have hmore : (more r x).advance = more r.advance x := by
      show ({ r with rest := (r.rest ++ x).tail } : Reader) = { r with rest := r.rest.tail ++ x }
      rw [hr]
      rfl
    rw [hmore]
    exact .ok fun h => by cases h

theorem steady_save (b : UInt8) : Steady x r.rest (r.save b) ((more r x).save b) :=
  .ite .fail (.ok id)

theorem steady_saveAndAdvance : Steady x r.rest r.saveAndAdvance (more r x).saveAndAdvance :=
  .of_current (F := fun c => r.save (c.getD 255) >>= fun r => .ok r.advance)
    (G := fun c => (more r x).save (c.getD 255) >>= fun r => .ok r.advance)
    fun _ _ => (steady_save _).bind fun _ _ => steady_advance

theorem steady_unsave (n : Nat) : Steady x r.rest (r.unsave n) ((more r x).unsave n) :=
  .ite (.ok id) .outOfRange

theorem steady_takeOf (set : List UInt8) : Steady x r.rest (r.takeOf set) ((more r x).takeOf set) :=
  .of_current (F := fun c => if c.any set.contains then r.saveAndAdvance >>= fun r =>
    .ok (true, r) else .ok (false, r))
    (G := fun c => if c.any set.contains then (more r x).saveAndAdvance >>= fun r =>
      .ok (true, r) else .ok (false, more r x))
    fun _ _ => .ite (steady_saveAndAdvance.bind fun _ _ => .pair _) (.pair _)

theorem skipNewline_eq (r : Reader) : r.skipNewline = (.ok r.advance : Except Halt Reader) >>=
    fun r' =>
    (if r'.current?.any fun c => isNewline c && some c != r.current? then .ok r'.advance
      else .ok r') >>= fun r' =>
      if maxLines ≤ r.line + 1 then { r' with line := r.line + 1 }.fail
        (utf8 "chunk has too many lines") []
      else .ok { r' with line := r.line + 1 } := by
  show (if maxLines ≤ r.line + 1 then _ else _) = (if _ then Except.ok _ else Except.ok _) >>= _
  split <;> split <;> rfl

theorem steady_skipNewline : Steady x r.rest r.skipNewline (more r x).skipNewline := by
  rw [skipNewline_eq, skipNewline_eq]
  refine .of_current
    (F := fun b => (.ok r.advance : Except Halt Reader) >>= fun r' =>
      (if r'.current?.any fun c => isNewline c && some c != b then .ok r'.advance else .ok r') >>=
        fun r' =>
        if maxLines ≤ r.line + 1 then { r' with line := r.line + 1 }.fail
          (utf8 "chunk has too many lines") []
        else .ok { r' with line := r.line + 1 })
    (G := fun b => (.ok (more r x).advance : Except Halt Reader) >>= fun r' =>
      (if r'.current?.any fun c => isNewline c && some c != b then .ok r'.advance else .ok r') >>=
        fun r' =>
        if maxLines ≤ r.line + 1 then { r' with line := r.line + 1 }.fail
          (utf8 "chunk has too many lines") []
        else .ok { r' with line := r.line + 1 }) fun b _ => steady_advance.bind fun r' _ => ?_
  refine .bind (.of_current
    (F := fun d => if d.any fun c => isNewline c && some c != b then .ok r'.advance else .ok r')
    (G := fun d => if d.any fun c => isNewline c && some c != b then .ok (more r' x).advance
      else .ok (more r' x))
    fun _ _ => .ite steady_advance (.ok id)) fun r'' _ => .ite ?_ ?_
  · exact .fail (r := { r'' with line := r.line + 1 })
  · exact .ok (a := { r'' with line := r.line + 1 }) id

theorem steady_saveWhile (p : UInt8 → Bool) (count : Nat) :
    Steady x r.rest (saveWhile p count r) (saveWhile p count (more r x)) := by
  induction hn : r.rest.length using Nat.strongRecOn generalizing r count with
  | ind n ih =>
    rw [saveWhile_eq, saveWhile_eq]
    refine .elim (.pair _) fun b s hs =>
      .ite (steady_saveAndAdvance.bind fun r' hr' => ?_) (.pair _)
    have hle : r'.rest.length ≤ r.rest.length - 1 := Leaves.saveAndAdvance r' hr'
    rw [hs, List.length_cons] at hn hle
    exact ih _ (by omega) _ rfl

theorem steady_skipBlanks : Steady x r.rest r.skipBlanks (more r x).skipBlanks := by
  induction hn : r.rest.length using Nat.strongRecOn generalizing r with
  | ind n ih =>
    have hstep (b : UInt8) : Leaves (r.rest.length - 1) id
        (if isNewline b then r.skipNewline else .ok r.advance) :=
      .ite .skipNewline (.ok (Nat.le_of_eq List.length_tail))
    rw [skipBlanks_eq, skipBlanks_eq]
    refine .elim (.ok id) fun b s hs =>
      .ite (Steady.bind (.ite steady_skipNewline steady_advance) fun r' hr' => ?_) (.ok id)
    have hle : r'.rest.length ≤ r.rest.length - 1 := hstep b r' hr'
    rw [hs, List.length_cons] at hn hle
    exact ih _ (by omega) rfl

theorem steady_skipSep : Steady x r.rest r.skipSep (more r x).skipSep :=
  .of_current
    (F := fun first => r.saveAndAdvance >>= fun r => saveWhile (· == byte '=') 0 r >>= fun p =>
      if p.2.current? = first then .ok (p.1 + 2, p.2) else if p.1 = 0 then .ok (1, p.2)
        else .ok (0, p.2))
    (G := fun first => (more r x).saveAndAdvance >>= fun r => saveWhile (· == byte '=') 0 r >>=
      fun p =>
      if p.2.current? = first then .ok (p.1 + 2, p.2) else if p.1 = 0 then .ok (1, p.2)
        else .ok (0, p.2))
    fun first _ => steady_saveAndAdvance.bind fun _ _ => (steady_saveWhile _ _).bind fun p _ =>
      .of_current (r := p.2)
        (F := fun c => if c = first then .ok (p.1 + 2, p.2) else if p.1 = 0 then .ok (1, p.2)
          else .ok (0, p.2))
        (G := fun c => if c = first then .ok (p.1 + 2, more p.2 x) else if p.1 =
          0 then .ok (1, more p.2 x) else .ok (0, more p.2 x))
        fun _ _ => .ite (.pair _) (.ite (.pair _) (.pair _))

theorem steady_longStep (keep : Bool) (b : UInt8) : Steady x r.rest (r.longStep keep b)
    ((more r x).longStep keep b) := by
  refine .ite ((steady_save 10).bind fun _ _ => steady_skipNewline.bind fun r' _ => ?_)
    (.ite steady_saveAndAdvance steady_advance)
  cases keep with
  | true => exact .ok (a := r') id
  | false => exact .ok (a := r'.clear) id

theorem steady_longBody (keep : Bool) (sep start : Nat) :
    Steady x r.rest (longBody keep sep start r) (longBody keep sep start (more r x)) := by
  induction hn : r.rest.length using Nat.strongRecOn generalizing r with
  | ind n ih =>
    rw [longBody_eq, longBody_eq]
    refine .elim .fail fun b s hs =>
      .ite (steady_skipSep.bind fun p hp => .ite steady_saveAndAdvance ?_)
      ((steady_longStep keep b).bind fun r' hr' => ?_)
    · have hle : p.2.rest.length ≤ r.rest.length - 1 := Leaves.skipSep r p hp
      rw [hs, List.length_cons] at hn hle
      exact ih _ (by omega) rfl
    · have hle : r'.rest.length ≤ r.rest.length - 1 := Leaves.longStep r keep b r' hr'
      rw [hs, List.length_cons] at hn hle
      exact ih _ (by omega) rfl

theorem steady_longString (keep : Bool) (sep : Nat) : Steady x r.rest (r.longString keep sep)
    ((more r x).longString keep sep) :=
  steady_saveAndAdvance.bind fun r' _ =>
    Steady.bind (.of_current (F := fun c => if c.any isNewline then r'.skipNewline else .ok r')
      (G := fun c => if c.any isNewline then (more r' x).skipNewline else .ok (more r' x))
      fun _ _ => .ite steady_skipNewline (.ok id)) fun _ _ => steady_longBody keep sep r.line

theorem steady_check {ok : Bool} {message : String} {f f' : Unit → Except Halt α}
    (hf : Steady x r.rest (f ()) (f' ())) :
    Steady x r.rest (r.check ok message >>= f) ((more r x).check ok message >>= f') := by
  cases ok with
  | true => exact hf
  | false =>
    have hfails (r : Reader) (f : Unit → Except Halt α) : r.check false message >>= f =
        (if r.current?.isSome then r.saveAndAdvance else .ok r) >>= fun r =>
          r.fail (utf8 message) (Token.quote r.text) := by
      show ((if r.current?.isSome then r.saveAndAdvance else .ok r) >>= fun r =>
          r.fail (utf8 message) (Token.quote r.text)) >>= f = _
      rw [bind_assoc]
      rfl
    rw [hfails, hfails]
    exact .of_current
      (F := fun c => (if c.isSome then r.saveAndAdvance else .ok r) >>= fun r =>
        r.fail (utf8 message) (Token.quote r.text))
      (G := fun c => (if c.isSome then (more r x).saveAndAdvance else .ok (more r x)) >>= fun r =>
        r.fail (utf8 message) (Token.quote r.text))
      fun _ _ => (Steady.ite steady_saveAndAdvance (.ok id)).bind fun _ _ => .fail

theorem steady_hexDigit : Steady x r.rest r.hexDigit (more r x).hexDigit :=
  steady_saveAndAdvance.bind fun r _ =>
    .of_current
      (F := fun c => r.check (c.any isHexDigit) "hexadecimal digit expected" >>= fun _ =>
        .ok (Numeral.hexValue (c.getD 255), r))
      (G := fun c => (more r x).check (c.any isHexDigit) "hexadecimal digit expected" >>= fun _ =>
        .ok (Numeral.hexValue (c.getD 255), more r x))
      fun _ _ => steady_check (.pair _)

theorem steady_hexEscape : Steady x r.rest r.hexEscape (more r x).hexEscape :=
  steady_hexDigit.bind fun _ _ => steady_hexDigit.bind fun _ _ => (steady_unsave 2).bind fun _ _ =>
    .pair _

theorem decimalDigits_eq (n value count : Nat) (r : Reader) : decimalDigits (n + 1) value count r =
    r.current?.elim (.ok (value, count, r)) fun b =>
      if isDigit b then r.saveAndAdvance >>= decimalDigits n (10 * value + Numeral.digitValue b)
        (count + 1)
      else .ok (value, count, r) := by
  rw [decimalDigits]
  cases r.current? <;> rfl

theorem steady_decimalDigits (n value count : Nat) :
    Steady x r.rest (decimalDigits n value count r) (decimalDigits n value count (more r x)) := by
  induction n generalizing value count r with
  | zero => exact .ok (a := (value, count, r)) id
  | succ n ih =>
    rw [decimalDigits_eq, decimalDigits_eq]
    exact .elim (.ok (a := (value, count, r)) id) fun b s _ =>
      .ite (steady_saveAndAdvance.bind fun _ _ => ih _ _) (.ok (a := (value, count, r)) id)

theorem steady_decimalEscape : Steady x r.rest r.decimalEscape (more r x).decimalEscape :=
  (steady_decimalDigits 3 0 0).bind fun p _ => steady_check ((steady_unsave p.2.1).bind fun _ _ =>
    .pair _)

theorem steady_codeDigits (count : Nat) (value : UInt32) :
    Steady x r.rest (codeDigits count value r) (codeDigits count value (more r x)) := by
  induction hn : r.rest.length using Nat.strongRecOn generalizing r count value with
  | ind n ih =>
    rw [codeDigits_eq, codeDigits_eq]
    refine steady_saveAndAdvance.bind fun r' hr' => ?_
    have hle : r'.rest.length ≤ r.rest.length - 1 := Leaves.saveAndAdvance r' hr'
    refine .elim (.ok (a := (count, value, r')) id) fun b s hs =>
      .ite (steady_check ?_) (.ok (a := (count, value, r')) id)
    rw [hs, List.length_cons] at hle
    exact ih _ (by rw [hs, List.length_cons]; omega) _ _ rfl

theorem steady_saveAll (bytes : Bytes) : Steady x r.rest (bytes.foldlM (fun r b => r.save b) r)
    (bytes.foldlM (fun r b => r.save b) (more r x)) := by
  induction bytes generalizing r with
  | nil => exact .ok id
  | cons b bytes ih =>
    rw [List.foldlM_cons, List.foldlM_cons]
    exact (steady_save b).bind fun _ _ => ih

theorem steady_codeEscape : Steady x r.rest r.codeEscape (more r x).codeEscape := by
  refine steady_saveAndAdvance.bind fun r₁ _ => .of_current
    (F := fun c => r₁.check (c == some 123) "missing '\x7b' in \\u\x7bxxxx\x7d" >>= fun _ =>
      r₁.hexDigit >>= fun p =>
      codeDigits 4 p.1.toUInt32 p.2 >>= codeEnd)
    (G := fun c => (more r₁ x).check (c == some 123) "missing '\x7b' in \\u\x7bxxxx\x7d" >>=
      fun _ =>
      (more r₁ x).hexDigit >>= fun p => codeDigits 4 p.1.toUInt32 p.2 >>= codeEnd)
    fun c _ => steady_check (steady_hexDigit.bind fun p _ => (steady_codeDigits 4 _).bind fun q _ =>
      ?_)
  exact .of_current (r := q.2.2)
    (F := fun c => q.2.2.check (c == some 125) "missing '\x7d' in \\u\x7bxxxx\x7d" >>= fun _ =>
      (.ok q.2.2.advance : Except Halt Reader) >>= fun r =>
      r.unsave q.1 >>= (Utf8.encode q.2.1.toNat).foldlM (fun r b => r.save b))
    (G := fun c => (more q.2.2 x).check (c == some 125) "missing '\x7d' in \\u\x7bxxxx\x7d" >>=
      fun _ =>
      (.ok (more q.2.2 x).advance : Except Halt Reader) >>= fun r => r.unsave q.1 >>=
        (Utf8.encode q.2.1.toNat).foldlM (fun r b => r.save b))
    fun c _ => steady_check (steady_advance.bind fun _ _ => (steady_unsave q.1).bind fun _ _ =>
      steady_saveAll _)

theorem steady_replace (b : UInt8) : Steady x r.rest (r.replace b) ((more r x).replace b) :=
  (steady_unsave 1).bind fun _ _ => steady_save b

theorem steady_after {f g : Reader → Except Halt α}
    (h : Steady x r.advance.rest (f r.advance) (g (more r.advance x))) :
    Steady x r.rest (f r.advance) (g (more r x).advance) :=
  steady_advance.bind (f := f) (g := g) fun _ hr' => Except.ok.inj hr' ▸ h

theorem escape_eq (r : Reader) : r.escape = r.saveAndAdvance >>= fun r =>
    r.current?.elim (.ok r) fun b =>
    (Scan.simpleEscape? b).elim
      (if b = byte 'x' then r.hexEscape >>= fun p => p.2.advance.replace p.1
        else if b = byte 'u' then r.codeEscape
        else if isNewline b then r.skipNewline >>= fun r => r.replace 10
        else if b = byte 'z' then r.unsave 1 >>= fun r => r.advance.skipBlanks
        else r.check (isDigit b) "invalid escape sequence" >>= fun _ => r.decimalEscape >>= fun p =>
          p.2.replace p.1)
      fun c => r.advance.replace c := by
  unfold Reader.escape
  refine congrArg (r.saveAndAdvance >>= ·) (funext fun r => ?_)
  cases r.current? with
  | none => rfl
  | some b =>
    dsimp only [Option.elim_some]
    cases Scan.simpleEscape? b <;> rfl

theorem steady_escape : Steady x r.rest r.escape (more r x).escape := by
  rw [escape_eq, escape_eq]
  refine steady_saveAndAdvance.bind fun r _ => .elim (.ok id) fun b s _ => ?_
  cases Scan.simpleEscape? b with
  | some c =>
    exact steady_after (f := fun r => r.replace c) (g := fun r => r.replace c) (steady_replace c)
  | none =>
    refine .ite (steady_hexEscape.bind fun p _ => ?_)
      (.ite steady_codeEscape (.ite ?_ (.ite ?_ (steady_check ?_))))
    · exact steady_after (f := fun r => r.replace p.1) (g := fun r => r.replace p.1)
        (steady_replace p.1)
    · exact steady_skipNewline.bind fun _ _ => steady_replace 10
    · exact (steady_unsave 1).bind fun r _ =>
        steady_after (f := skipBlanks) (g := skipBlanks) steady_skipBlanks
    · exact steady_decimalEscape.bind fun p _ => steady_replace p.1

theorem steady_quotedBody (delim : UInt8) : Steady x r.rest (quotedBody delim r)
    (quotedBody delim (more r x)) := by
  induction hn : r.rest.length using Nat.strongRecOn generalizing r with
  | ind n ih =>
    have hstep (b : UInt8) : Leaves (r.rest.length - 1) id
        (if b = byte '\\' then r.escape else r.saveAndAdvance) :=
      .ite (.escape r) .saveAndAdvance
    rw [quotedBody_eq, quotedBody_eq]
    refine .elim .fail fun b s hs =>
      .ite (.ok id) (.ite .fail
      (Steady.bind (.ite steady_escape steady_saveAndAdvance) fun r' hr' => ?_))
    have hle : r'.rest.length ≤ r.rest.length - 1 := hstep b r' hr'
    rw [hs, List.length_cons] at hn hle
    exact ih _ (by omega) rfl

theorem steady_inside (n : Nat) {f f' : Bytes → Except Halt α}
    (h : ∀ t, Steady x r.rest (f t) (f' t)) :
    Steady x r.rest (r.inside n >>= f) ((more r x).inside n >>= f') := by
  have hsame : (more r x).inside n = r.inside n := rfl
  rw [hsame]
  unfold Reader.inside
  split
  · exact h _
  · exact .outOfRange

theorem steady_quoted (delim : UInt8) : Steady x r.rest (r.quoted delim)
    ((more r x).quoted delim) :=
  steady_saveAndAdvance.bind fun _ _ => (steady_quotedBody delim).bind fun _ _ =>
    steady_saveAndAdvance.bind fun _ _ =>
    steady_inside 1 fun _ => .pair _

theorem steady_numeralDigits (exponent : List UInt8) :
    Steady x r.rest (numeralDigits exponent r) (numeralDigits exponent (more r x)) := by
  induction hn : r.rest.length using Nat.strongRecOn generalizing r with
  | ind n ih =>
    rw [numeralDigits_eq, numeralDigits_eq]
    refine .elim (.ok id) fun b s hs => .ite (steady_saveAndAdvance.bind fun r' hr' => ?_) (.ok id)
    have hle : r'.rest.length ≤ r.rest.length - 1 := Leaves.saveAndAdvance r' hr'
    rw [hs, List.length_cons] at hn hle
    refine .ite ((steady_takeOf _).bind fun p hp => ?_) (ih _ (by omega) rfl)
    have hle' : p.2.rest.length ≤ r'.rest.length := Leaves.takeOf _ p hp
    exact ih _ (by omega) rfl

theorem steady_numeral : Steady x r.rest r.numeral (more r x).numeral := by
  rw [numeral_eq, numeral_eq]
  refine .of_current
    (F := fun c => r.saveAndAdvance >>= fun r' =>
      (if c = some (byte '0') then r'.takeOf [byte 'x', byte 'X'] else .ok (false, r')) >>= fun p =>
        numeralDigits (exponents p.1) p.2 >>= fun r =>
          (if r.current?.any isLetter then r.saveAndAdvance else .ok r) >>= numeralEnd)
    (G := fun c => (more r x).saveAndAdvance >>= fun r' =>
      (if c = some (byte '0') then r'.takeOf [byte 'x', byte 'X'] else .ok (false, r')) >>= fun p =>
        numeralDigits (exponents p.1) p.2 >>= fun r =>
          (if r.current?.any isLetter then r.saveAndAdvance else .ok r) >>= numeralEnd)
    fun c _ => steady_saveAndAdvance.bind fun r' _ =>
      Steady.bind (.ite (steady_takeOf _) (.pair _)) fun p _ =>
        (steady_numeralDigits _).bind fun r'' _ => ?_
  refine .bind (.of_current (F := fun c => if c.any isLetter then r''.saveAndAdvance else .ok r'')
    (G := fun c => if c.any isLetter then (more r'' x).saveAndAdvance else .ok (more r'' x))
    fun _ _ => .ite steady_saveAndAdvance (.ok id)) fun r₃ _ => ?_
  have htext : (more r₃ x).text = r₃.text := rfl
  unfold numeralEnd
  rw [htext]
  cases Numeral.read r₃.text with
  | none => exact .fail
  | some n => exact .pair _

theorem symbol_eq (r : Reader) (b : UInt8) (table : List (UInt8 × Symbol)) :
    (.ok (r.symbol b table) : Except Halt (Lexeme × Reader)) =
    (.ok r.advance : Except Halt Reader) >>= fun r => (r.current?.bind fun c => table.lookup c).elim
      (.ok (.byte b, r)) fun s => .ok (.symbol s, r.advance) := by
  unfold symbol
  show _ = Option.elim _ _ _
  cases r.advance.current?.bind fun c => table.lookup c <;> rfl

theorem steady_symbol (b : UInt8) (table : List (UInt8 × Symbol)) :
    Steady x r.rest (.ok (r.symbol b table) : Except Halt (Lexeme × Reader))
      (.ok ((more r x).symbol b table)) := by
  rw [symbol_eq, symbol_eq]
  refine steady_advance.bind fun r _ => .of_current
    (F := fun d => (d.bind fun c => table.lookup c).elim (.ok (Lexeme.byte b, r)) fun s =>
      .ok (Lexeme.symbol s, r.advance))
    (G := fun d => (d.bind fun c => table.lookup c).elim (.ok (Lexeme.byte b, more r x)) fun s =>
      .ok (Lexeme.symbol s, (more r x).advance))
    fun d _ => ?_
  cases d.bind fun c => table.lookup c with
  | none => exact .pair _
  | some s =>
    exact steady_after (f := fun r => .ok (Lexeme.symbol s, r))
      (g := fun r => .ok (Lexeme.symbol s, r)) (.pair _)

theorem steady_bracket : Steady x r.rest r.bracket (more r x).bracket :=
  steady_skipSep.bind fun p _ => .ite
    ((steady_longString true p.1).bind fun _ _ => steady_inside p.1 fun _ => .pair _)
    (.ite .fail (.pair _))

theorem steady_points : Steady x r.rest r.points (more r x).points :=
  steady_saveAndAdvance.bind fun _ _ => (steady_takeOf _).bind fun p _ => .ite
    ((steady_takeOf _).bind fun _ _ => .pair _)
    (.of_current (r := p.2) (F := fun c =>
      if c.any isDigit then p.2.numeral else .ok (.byte (byte '.'), p.2))
      (G := fun c => if c.any isDigit then (more p.2 x).numeral
        else .ok (.byte (byte '.'), more p.2 x))
      fun _ _ => .ite steady_numeral (.pair _))

theorem steady_byte (b : UInt8) :
    Steady x r.rest (.ok (Lexeme.byte b, r.advance)) (.ok (Lexeme.byte b, (more r x).advance)) :=
  steady_after (f := fun r => .ok (Lexeme.byte b, r)) (g := fun r => .ok (Lexeme.byte b, r))
    (.pair _)

theorem steady_lexeme (b : UInt8) : Steady x r.rest (r.lexeme b) ((more r x).lexeme b) := by
  refine .ite steady_bracket
    (.ite (steady_symbol _ _) (.ite (steady_symbol _ _) (.ite (steady_symbol _ _) ?_)))
  refine .ite (steady_symbol _ _)
    (.ite (steady_symbol _ _) (.ite (steady_symbol _ _) (.ite (steady_quoted b) ?_)))
  refine .ite steady_points (.ite steady_numeral (.ite ?_ (steady_byte b)))
  exact (steady_saveWhile _ 0).bind fun p _ => .pair _

theorem steady_skipLine : Steady x r.rest (.ok r.skipLine) (.ok (more r x).skipLine) := by
  have hend : r.rest = [] → r.skipLine.rest = [] :=
    fun hr => congrArg (List.dropWhile fun b => !isNewline b) hr
  by_cases hline : r.skipLine.rest = []
  · exact ⟨.ended hline, hend⟩
  · have hmore : (more r x).skipLine = more r.skipLine x := by
      have hne : ¬(r.rest.dropWhile fun b => !isNewline b).isEmpty = true :=
        fun h => hline (List.isEmpty_iff.1 h)
      show ({ r with rest := (r.rest ++ x).dropWhile fun b => !isNewline b } : Reader) = _
      rw [List.dropWhile_append, if_neg hne]
      rfl
    rw [hmore]
    exact .ok hend

theorem steady_comment : Steady x r.rest r.comment (more r x).comment := by
  refine .of_current
    (F := fun c => if c = some (byte '[') then r.skipSep >>= fun p =>
        if 2 ≤ p.1 then p.2.clear.longString false p.1 >>= fun r =>
          .ok r.clear else .ok p.2.clear.skipLine
      else .ok r.skipLine)
    (G := fun c => if c = some (byte '[') then (more r x).skipSep >>= fun p =>
        if 2 ≤ p.1 then p.2.clear.longString false p.1 >>= fun r =>
          .ok r.clear else .ok p.2.clear.skipLine
      else .ok (more r x).skipLine)
    fun _ _ => .ite (steady_skipSep.bind fun p _ => .ite ?_ ?_) steady_skipLine
  · exact (steady_longString (r := p.2.clear) false p.1).bind fun r _ => .ok (a := r.clear) id
  · exact steady_skipLine (r := p.2.clear)

theorem steady_next : Steady x r.rest r.next (more r x).next := by
  induction hn : r.rest.length using Nat.strongRecOn generalizing r with
  | ind n ih =>
    rw [next_eq r, next_eq (more r x)]
    refine .elim (.pair _) fun b s hs => ?_
    have hlen : r.rest.length = s.length + 1 := by rw [hs, List.length_cons]
    have hadvance : r.advance.rest.length = s.length := by
      rw [show r.advance.rest = r.rest.tail from rfl, hs, List.tail_cons]
    refine .ite (steady_skipNewline.bind fun r' hr' => ?_) (.ite ?_ (.ite ?_ (steady_lexeme b)))
    · have hle : r'.rest.length ≤ r.rest.length - 1 := Leaves.skipNewline r' hr'
      exact ih _ (by omega) rfl
    · exact steady_after (f := next) (g := next) (ih _ (by omega) rfl)
    · refine steady_after (f := fun r => if r.current? = some (byte '-') then r.advance.comment >>=
        next else .ok (.byte b, r))
        (g := fun r => if r.current? = some (byte '-') then r.advance.comment >>=
          next else .ok (.byte b, r)) ?_
      refine .of_current
        (F := fun c => if c = some (byte '-') then r.advance.advance.comment >>=
          next else .ok (.byte b, r.advance))
        (G := fun c => if c = some (byte '-') then (more r.advance x).advance.comment >>=
          next else .ok (.byte b, more r.advance x))
        fun _ _ => .ite ?_ (.pair _)
      refine steady_after (f := fun r => r.comment >>= next) (g := fun r => r.comment >>= next)
        (steady_comment.bind fun r' hr' => ?_)
      have hle : r'.rest.length ≤ r.advance.advance.rest.length := Leaves.comment _ r' hr'
      have htail : r.advance.advance.rest.length = r.advance.rest.length - 1 := List.length_tail
      exact ih _ (by omega) rfl

theorem steady_scan (s : Bytes) (line : Nat) : Steady x s (scan s line) (scan (s ++ x) line) :=
  (steady_next (r := ⟨s, line, #[]⟩)).bind fun p _ => .ok (a := (p.1, p.2.cursor)) id

theorem Settled.of_faulty {α : Type} [Placed α] {x : Bytes} {m m' : Except Fault α}
    (h : Settled x (faulty m) (faulty m')) :
    Settled x m m' := by
  cases m with
  | ok a =>
    cases m' with
    | ok a' =>
      cases h with
      | ok => exact .ok a
      | ended h => exact .ended h
    | error f' =>
      cases h with
      | ended h => exact .ended h
  | error f =>
    cases m' with
    | ok a' =>
      cases h with
      | ended h => exact .ended h
    | error f' =>
      cases h with
      | error => exact .error f
      | ended h => exact .ended h

theorem settled_read (s : Bytes) (line : Nat) (x : Bytes) : Settled x (read s line)
    (read (s ++ x) line) := by
  have hs := (steady_scan (x := x) s line).settled
  rw [scan_eq_read, scan_eq_read] at hs
  exact hs.of_faulty

end Reader

namespace Lexer

def unread? (l : Lexer) (rest : Bytes) : Option Failure :=
  match rest, l.failure with
  | [], some failure => some (readFailure l.source failure)
  | _, _ => none

def passed (l : Lexer) (x : Scan.Lexeme) (c : Scan.Cursor) : Lexer :=
  { l with input := c.rest, line := c.line, noted := (internedText? x).elim l.noted l.noted.push }

theorem checkRead_result (l : Lexer) (rest : Bytes) : checkRead rest l = (match l.unread? rest with
    | some e => .error e l
    | none => .ok () l) := by
  have hget : (get : M Lexer) l = .ok l l := rfl
  unfold checkRead unread?
  rw [bind_eq hget]
  cases rest with
  | nil => cases l.failure <;> rfl
  | cons b rest => rfl

theorem scan_result (l : Lexer) : scan l = (match Reader.read l.input l.line with
    | .error f =>
      .error ((l.unread? f.place.rest).getD
        (.error ⟨.lexical, l.source, f.place.line, f.message, f.near⟩)) l
    | .ok (x, c) =>
      match l.unread? c.rest with
      | some e => .error e l
      | none => .ok (tokenOf l.numberOf x) (l.passed x c)) := by
  rw [scan_step]
  cases Reader.read l.input l.line with
  | error f =>
    have hcheck := checkRead_result l f.place.rest
    dsimp only
    cases hu : l.unread? f.place.rest with
    | some e =>
      rw [hu] at hcheck
      exact bind_error hcheck
    | none =>
      rw [hu] at hcheck
      rw [bind_eq hcheck]
      rfl
  | ok r =>
    obtain ⟨x, c⟩ := r
    have hcheck := checkRead_result l c.rest
    dsimp only
    cases hu : l.unread? c.rest with
    | some e =>
      rw [hu] at hcheck
      exact bind_error hcheck
    | none =>
      rw [hu] at hcheck
      rw [bind_eq hcheck]
      unfold passed
      cases internedText? x <;> rfl

def continued (l : Lexer) (x : Bytes) : Lexer := { l with input := l.input ++ x, failure := none }

end Lexer

/-- How an action ends if the input goes on: in the same way, unless it ended because of what was
missing. `onward` is the state on more input, and `Missing` are the failures that more input may
avert. -/
inductive Continues {σ α : Type} (onward : σ → σ) (Missing : Failure → Prop) :
    EStateM.Result Failure σ α → EStateM.Result Failure σ α → Prop
  | ok (a : α) (s : σ) : Continues onward Missing (.ok a s) (.ok a (onward s))
  | error (e : Failure) (s s' : σ) : Continues onward Missing (.error e s) (.error e s')
  | missing {e : Failure} {s : σ} {r : EStateM.Result Failure σ α} (h : Missing e) : Continues
    onward Missing (.error e s) r

theorem Continues.bind {σ α β : Type} {onward : σ → σ} {Missing : Failure → Prop}
    {m : EStateM Failure σ α}
    {f f' : α → EStateM Failure σ β} {s s' : σ} (h : Continues onward Missing (m s) (m s'))
    (hf : ∀ a t, m s = .ok a t → Continues onward Missing (f a t) (f' a (onward t))) :
    Continues onward Missing ((m >>= f) s) ((m >>= f') s') := by
  change Continues onward Missing (EStateM.bind m f s) (EStateM.bind m f' s')
  unfold EStateM.bind
  generalize m s' = r' at h
  cases hm : m s with
  | ok a t =>
    rw [hm] at h
    cases h
    exact hf a t hm
  | error e t =>
    rw [hm] at h
    cases h with
    | error => exact .error e _ _
    | missing h => exact .missing h

namespace Lexer

variable {l : Lexer} {x : Bytes}

theorem unread?_continued (rest : Bytes) : (l.continued x).unread? rest = none := by
  unfold unread?
  split
  · rename_i h
    cases h
  · rfl

theorem scan_continues {failure : Bytes} (hf : l.failure = some failure) (x : Bytes) :
    Continues (continued · x) (· = readFailure l.source failure) (scan l)
      (scan (l.continued x)) := by
  have hend : l.unread? [] = some (readFailure l.source failure) := by
    unfold unread?
    rw [hf]
  have hmore (b : UInt8) (rest : Bytes) : l.unread? (b :: rest) = none := rfl
  have hs := Reader.settled_read l.input l.line x
  rw [scan_result l, scan_result (l.continued x)]
  change Continues _ _ _ (match Reader.read (l.input ++ x) l.line with
    | .error f => _
    | .ok (x, c) => _)
  generalize Reader.read l.input l.line = r, Reader.read (l.input ++ x) l.line = r' at hs
  cases hs with
  | ok a =>
    obtain ⟨y, rest, line⟩ := a
    cases rest with
    | nil =>
      dsimp only
      rw [hend]
      exact .missing rfl
    | cons b rest =>
      dsimp only
      rw [hmore, unread?_continued]
      exact .ok _ (l.passed y ⟨b :: rest, line⟩)
  | error f =>
    obtain ⟨message, near, rest, line⟩ := f
    cases rest with
    | nil =>
      dsimp only
      rw [hend]
      exact .missing rfl
    | cons b rest =>
      dsimp only
      rw [hmore, unread?_continued]
      exact .error _ _ _
  | ended h =>
    cases r with
    | ok a =>
      dsimp only
      rw [show a.2.rest = [] from h, hend]
      exact .missing rfl
    | error f =>
      dsimp only
      rw [show f.place.rest = [] from h, hend]
      exact .missing rfl

def fetch : Option Token → M Unit
  | some t => modify fun l => { l with token := t, ahead := none }
  | none => do
    let t ← scan
    modify fun l => { l with token := t }

theorem next_fetch (l : Lexer) : next l = fetch l.ahead l.counted := by
  rw [next_step]
  cases l.ahead <;> rfl

theorem fetch_continues {failure : Bytes} (hf : l.failure = some failure) (ahead : Option Token)
    (x : Bytes) :
    Continues (continued · x) (· = readFailure l.source failure) (fetch ahead l)
      (fetch ahead (l.continued x)) := by
  cases ahead with
  | some t => exact .ok () { l with token := t, ahead := none }
  | none => exact (scan_continues hf x).bind fun t l' _ => .ok () { l' with token := t }

theorem next_continues {failure : Bytes} (hf : l.failure = some failure) (x : Bytes) :
    Continues (continued · x) (· = readFailure l.source failure) (next l)
      (next (l.continued x)) := by
  rw [next_fetch, next_fetch]
  exact fetch_continues (l := l.counted) hf l.ahead x

/-- The kind of the token that was read ahead, or else of one that is read. -/
def peek : Option Token → M TokenKind
  | some t => pure t.kind
  | none => do
    let t ← scan
    modify fun l => { l with ahead := some t }
    pure t.kind

theorem lookahead_peek (l : Lexer) : lookahead l = peek l.ahead l := by
  rw [lookahead_step]
  cases l.ahead <;> rfl

theorem peek_continues {failure : Bytes} (hf : l.failure = some failure) (ahead : Option Token)
    (x : Bytes) :
    Continues (continued · x) (· = readFailure l.source failure) (peek ahead l)
      (peek ahead (l.continued x)) := by
  cases ahead with
  | some t => exact .ok t.kind l
  | none => exact (scan_continues hf x).bind fun t l' _ => .ok t.kind { l' with ahead := some t }

theorem lookahead_continues {failure : Bytes} (hf : l.failure = some failure) (x : Bytes) :
    Continues (continued · x) (· = readFailure l.source failure) (lookahead l)
      (lookahead (l.continued x)) := by
  rw [lookahead_peek, lookahead_peek]
  exact peek_continues hf l.ahead x

section

variable {l' : Lexer} {t : Token} {P : Token → Prop}

theorem exists_lexeme (h : scan l = .ok t l') : ∃ y c, Reader.read l.input l.line = .ok (y, c) ∧
    l.unread? c.rest = none ∧
    t = tokenOf l.numberOf y ∧ l' = l.passed y c := by
  rw [scan_result] at h
  split at h
  · cases h
  · rename_i y c hs
    split at h
    · cases h
    · cases h
      exact ⟨y, c, hs, ‹_›, rfl, rfl⟩

def Delivers (P : Token → Prop) (l : Lexer) : Prop :=
  ∀ y c, Reader.read l.input l.line = .ok (y, c) → l.unread? c.rest = none →
    P (tokenOf l.numberOf y)

def Expects (P : Token → Prop) (l : Lexer) : Prop := ∀ t, l.ahead = some t → P t

theorem Delivers.scan (hd : l.Delivers P) (h : scan l = .ok t l') : P t := by
  obtain ⟨y, c, hs, hu, rfl, -⟩ := exists_lexeme h
  exact hd y c hs hu

theorem Delivers.fetch (hd : l.Delivers P) (hl : l.Expects P) {ahead : Option Token}
    (hahead : l.ahead = ahead)
    (h : fetch ahead l = .ok () l') : P l'.token ∧ l'.Expects P := by
  cases ahead with
  | some t =>
    cases h
    exact ⟨hl t hahead, nofun⟩
  | none =>
    cases hs : Lexer.scan l with
    | error e u => cases (bind_error hs).symm.trans h
    | ok t u =>
      cases (bind_eq hs).symm.trans h
      have ht := hd.scan hs
      obtain ⟨y, c, -, -, -, rfl⟩ := exists_lexeme hs
      exact ⟨ht, fun t' ht' => nomatch hahead.symm.trans ht'⟩

theorem Delivers.next (hd : l.Delivers P) (hl : l.Expects P) (h : next l = .ok () l') : P l'.token ∧
    l'.Expects P := by
  rw [next_fetch] at h
  exact Delivers.fetch (l := l.counted) hd hl rfl h

theorem Delivers.peek (hd : l.Delivers P) (hl : l.Expects P) {ahead : Option Token} {k : TokenKind}
    (h : peek ahead l = .ok k l') :
    l'.Expects P ∧ l'.token = l.token ∧ l'.number = l.number := by
  cases ahead with
  | some t =>
    cases h
    exact ⟨hl, rfl, rfl⟩
  | none =>
    cases hs : Lexer.scan l with
    | error e u => cases (bind_error hs).symm.trans h
    | ok t u =>
      cases (bind_eq hs).symm.trans h
      have ht := hd.scan hs
      obtain ⟨y, c, -, -, -, rfl⟩ := exists_lexeme hs
      exact ⟨fun t' ht' => Option.some.inj ht' ▸ ht, rfl, rfl⟩

theorem Delivers.lookahead (hd : l.Delivers P) (hl : l.Expects P) {k : TokenKind}
    (h : lookahead l = .ok k l') :
    l'.Expects P ∧ l'.token = l.token ∧ l'.number = l.number := by
  rw [lookahead_peek] at h
  exact hd.peek hl h

end

end Lexer

end LuaChunk
