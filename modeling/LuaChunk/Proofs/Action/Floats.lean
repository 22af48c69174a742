import LuaChunk.Proofs.Action.Statement
import LuaChunk.Proofs.Compile.Chunk
import LuaChunk.Proofs.Number.Integer
import LuaChunk.Proofs.Source.Extension
import LuaChunk.Proofs.Wire.RoundTrip

/-!
The floats of a compiled program. None is a NaN or a negative zero: the numerals of a source have no
sign, and what is folded from them is neither. So each float constant stays the very same float
wherever it is kept, in the pool, in the instruction that loads it, in a declaration, and in a
written program.
-/

set_option autoImplicit false

namespace LuaChunk

namespace Numeral

theorem sign_of_ne {b : UInt8} {s : Bytes} (h : b ≠ 45) : (sign (b :: s)).1 = false := by
  unfold sign
  split
  · rename_i heq
    exact absurd (List.cons.inj heq).1 h
  · rfl
  · rfl

theorem sign_trimBlank {b : UInt8} {s : Bytes} (hb : Text.isBlank b = false) (h : b ≠ 45) :
    (sign (trimBlank (b :: s))).1 = false := by
  have hprefix : trimBlank (b :: s) <+: b :: s := by
    unfold trimBlank
    rw [List.dropWhile_cons_of_neg (by rw [hb]; exact Bool.false_ne_true)]
    exact List.reverse_suffix.1 (by rw [List.reverse_reverse]; exact List.dropWhile_suffix _)
  rcases List.prefix_cons_iff.1 hprefix with hnil | ⟨t, ht, -⟩
  · rw [hnil]
    rfl
  · rw [ht]
    exact sign_of_ne h

end Numeral

namespace Scan

theorem prefix_numeralText (hex : Bool) (acc s : Bytes) :
    acc.reverse <+: (numeralText hex acc s).1 := by
  fun_induction numeralText hex acc s with
  | case1 acc | case6 acc => exact List.prefix_rfl
  | case4 acc b =>
    rw [List.reverse_cons]
    exact List.prefix_append _ _
  | case2 acc b isExponent _ c rest _ ih =>
    refine List.IsPrefix.trans ?_ ih
    rw [List.reverse_cons, List.reverse_cons, List.append_assoc]
    exact List.prefix_append _ _
  | case3 acc b isExponent _ c rest _ ih | case5 acc b rest isExponent _ _ ih =>
    refine List.IsPrefix.trans ?_ ih
    rw [List.reverse_cons]
    exact List.prefix_append _ _

theorem prefix_numeralExtent (start : Bytes) (first : UInt8) (rest : Bytes) :
    start ++ [first] <+: (numeralExtent start first rest).1 := by
  have hplain := prefix_numeralText false (first :: start.reverse) rest
  rw [List.reverse_cons, List.reverse_reverse] at hplain
  have hletter (p : Bytes × Bytes) (h : start ++ [first] <+: p.1) :
      start ++ [first] <+: (withLetter p).1 := by
    unfold withLetter
    split
    · split
      · exact h.trans (List.prefix_append _ _)
      · exact h
    · exact h
  rw [numeralExtent_eq]
  refine hletter _ ?_
  unfold numeralDigits
  split
  · split
    · rename_i c body _
      have hhex := prefix_numeralText true (c :: first :: start.reverse) body
      rw [List.reverse_cons, List.reverse_cons, List.reverse_reverse] at hhex
      exact (List.prefix_append _ _).trans hhex
    · exact hplain
  · exact hplain

/-- What a lexeme is in a source: its number has no sign. -/
def Lexeme.Regular : Lexeme → Prop
  | .number n _ => n.Regular
  | _ => True

def Regular (r : Except Fault (Lexeme × Cursor)) : Prop := ∀ x c, r = .ok (x, c) → x.Regular

theorem Regular.ite {p : Prop} [Decidable p] {r r' : Except Fault (Lexeme × Cursor)}
    (h : p → Regular r) (h' : ¬ p → Regular r') : Regular (if p then r else r') := by
  split
  · exact h ‹_›
  · exact h' ‹_›

theorem Regular.ok {x : Lexeme} {c : Cursor} (h : x.Regular) : Regular (.ok (x, c)) := by
  rintro _ _ ⟨⟩
  exact h

theorem Regular.error (f : Fault) : Regular (.error f) := nofun

theorem regular_numeral {start : Bytes} {first : UInt8} (hstart : start = [] ∨ start = [byte '.'])
    (hfirst : Numeral.isDigit first = true)
    (rest : Bytes) (line : Nat) : Regular (numeral start first rest line) := by
  unfold numeral
  dsimp only
  split
  · rename_i n hn
    refine .ok ?_
    obtain ⟨text, htext⟩ := prefix_numeralExtent start first rest
    cases n with
    | int n => trivial
    | float x =>
      refine (Numeral.unsigned_read ?_ hn).regular
      rw [← htext]
      rcases hstart with rfl | rfl
      · exact Numeral.sign_trimBlank (Numeral.isBlank_of_isDigit hfirst)
          (ne_of_isDigit hfirst (by decide))
      · exact Numeral.sign_trimBlank (by decide) (by decide)
  · exact .error _

theorem regular_points (rest : Bytes) (line : Nat) : Regular (points rest line) := by
  unfold points
  split
  · refine .ite (fun _ => ?_) fun _ => .ite (fun h => regular_numeral (.inr rfl) h _ _) fun _ =>
      .ok trivial
    split
    · exact .ite (fun _ => .ok trivial) fun _ => .ok trivial
    · exact .ok trivial
  · exact .ok trivial

theorem regular_twoBytes (b second : UInt8) (double : Symbol) (rest : Bytes) (line : Nat) :
    Regular (.ok (twoBytes b second double rest line)) := by
  unfold twoBytes
  split
  · split <;> exact .ok trivial
  · exact .ok trivial

theorem regular_twoBytesOf (b : UInt8) (table : List (UInt8 × Symbol)) (rest : Bytes) (line : Nat) :
    Regular (.ok (twoBytesOf b table rest line)) := by
  unfold twoBytesOf
  split
  · split <;> exact .ok trivial
  · exact .ok trivial

theorem regular_bracket (rest : Bytes) (line : Nat) : Regular (bracket rest line) := by
  unfold bracket
  split
  · split
    · exact .ok trivial
    · exact .error _
  · exact .ite (fun _ => .ok trivial) fun _ => .error _

theorem regular_lexeme (s : Bytes) (line : Nat) : Regular (lexeme s line) := by
  cases s with
  | nil => exact .ok trivial
  | cons b rest =>
    refine .ite (fun _ => regular_bracket _ _) fun _ =>
      .ite (fun _ => regular_twoBytes _ _ _ _ _) fun _ => ?_
    refine .ite (fun _ => regular_twoBytesOf _ _ _ _) fun _ =>
      .ite (fun _ => regular_twoBytesOf _ _ _ _) fun _ => ?_
    refine .ite (fun _ => regular_twoBytes _ _ _ _ _) fun _ =>
      .ite (fun _ => regular_twoBytes _ _ _ _ _) fun _ => ?_
    refine .ite (fun _ => regular_twoBytes _ _ _ _ _) fun _ => .ite (fun _ => ?_) fun _ => ?_
    · cases quotedText b rest line [b] with
      | ok r => exact .ok trivial
      | error f => exact .error f
    · refine .ite (fun _ => regular_points _ _) fun _ =>
        .ite (fun hb => regular_numeral (.inl rfl) hb _ _) fun _ => ?_
      exact .ite (fun _ => .ok trivial) fun _ => .ok trivial

theorem regular_scan {s : Bytes} {line : Nat} {x : Lexeme} {c : Cursor}
    (h : scan s line = .ok (x, c)) : x.Regular := by
  unfold scan at h
  split at h
  · exact regular_lexeme _ _ x c h
  · cases h

end Scan

theorem Token.regular_ofKind (k : TokenKind) : (Token.ofKind k).Regular := by
  cases k with
  | float => exact (Binary64.unsigned_digit (show 0 < 16 by decide)).regular
  | _ => trivial

namespace Lexer

theorem regular_tokenOf (numberOf : Bytes → Nat) {x : Scan.Lexeme} (h : x.Regular) :
    (tokenOf numberOf x).Regular := by
  cases x with
  | number n raw =>
    cases n with
    | int n => trivial
    | float y => exact h
  | word s =>
    unfold tokenOf
    dsimp only
    split
    · trivial
    · split
      · exact Token.regular_ofKind _
      · trivial
  | _ => trivial

theorem delivers_regular (l : Lexer) : l.Delivers Token.Regular := fun _ _ h _ =>
  regular_tokenOf _ (Scan.regular_scan (Reader.scan_of_read h))

structure Lasting (L : Lexer → Prop) : Prop where
  core : ∀ l l' : Lexer, l'.core = l.core → L l → L l'
  next : ∀ l l' : Lexer, L l → next l = .ok () l' → L l'
  lookahead : ∀ (l l' : Lexer) (k : TokenKind), L l → lookahead l = .ok k l' → L l'

end Lexer

namespace Compile

theorem Builder.Clean.prototype {f : Builder} (h : f.Clean) (source : Bytes) :
    (f.prototype source).Regular := by
  intro q hq v hv
  rcases Prototype.mem_walk.1 hq with rfl | ⟨p, hp, hq⟩
  · exact h.pool v hv
  · exact h.nested p (Array.mem_toList_iff.1 hp) q hq v hv

namespace State

variable {s : State}

theorem Clean.nest (h : s.Clean) (line : Nat) : (s.nest line).Clean where
  token := h.token
  ahead := h.ahead
  vars := h.vars
  fn :=
    ⟨fun v hv => absurd hv (Array.not_mem_empty v), fun p hp => absurd hp (Array.not_mem_empty p),
    fun r hr => absurd hr (Array.not_mem_empty r)⟩
  outer := List.forall_mem_cons.2 ⟨h.fn, h.outer⟩
  floats := h.floats
  closings := h.closings

theorem Clean.leave {b : Builder} {rest : List Builder} (h : s.Clean) (ho : s.outer = b :: rest) :
    ({ s with fn := b, outer := rest } : State).Clean where
  token := h.token
  ahead := h.ahead
  vars := h.vars
  fn := h.outer b (ho ▸ List.mem_cons_self ..)
  outer f hf := h.outer f (ho ▸ List.mem_cons_of_mem _ hf)
  floats := h.floats
  closings := h.closings

theorem Clean.atLevel (h : s.Clean) (depth deepest : Nat) : (s.atLevel depth deepest).Clean :=
  { h with }

theorem Clean.backIn {fn : Builder} (h : s.Clean) (hf : fn.Clean) : (s.backIn fn).Clean where
  token := h.token
  ahead := h.ahead
  vars := h.vars
  fn := hf
  outer := List.forall_mem_cons.2 ⟨h.fn, h.outer⟩
  floats := h.floats
  closings := h.closings

theorem Clean.attached {b : Builder} {rest : List Builder} (h : s.Clean)
    (ho : s.outer = b :: rest) :
    ({ s with
      fn := { b with nested := b.nested.push (s.fn.prototype s.lexer.source) },
      outer := rest } : State).Clean where
  token := h.token
  ahead := h.ahead
  vars := h.vars
  fn := by
    have hb := h.outer b (ho ▸ List.mem_cons_self ..)
    refine ⟨hb.pool, fun p hp => ?_, hb.meant⟩
    rcases Array.mem_push.1 hp with hp | rfl
    · exact hb.nested p hp
    · exact h.fn.prototype _
  outer f hf := h.outer f (ho ▸ List.mem_cons_of_mem _ hf)
  floats := h.floats
  closings := h.closings

end State

/-- A clean state stays clean, and its token stream keeps what every action on it keeps. -/
theorem Built.keeps {L : Lexer → Prop} (hL : Lexer.Lasting L) {levels : Option Nat} {α : Type}
    {P : α → Prop} {m : M α}
    (h : Built levels P m) {s t : State} {a : α} (hs : s.Clean) (hl : L s.lexer)
    (hr : m s = .ok a t) :
    P a ∧ t.Clean ∧ L t.lexer := by
  induction h generalizing s t with
  | single h =>
    obtain ⟨ha, ht, hstep⟩ := h.ok s a t hs hr
    exact ⟨ha, ht, hL.core _ _ hstep.lexer hl⟩
  | bind hm hf ihm ihf =>
    obtain ⟨b, u, hb, ha⟩ := exists_of_bind hr
    obtain ⟨hb, hu, hlu⟩ := ihm hs hl hb
    exact ihf b hb hu hlu ha
  | get hf hc ih => exact ih s hs hs hl hr
  | next =>
    obtain ⟨l, hn, rfl⟩ := onLexer_ok hr
    obtain ⟨htoken, hahead⟩ := (Lexer.delivers_regular _).next hs.ahead hn
    exact ⟨trivial, { hs with token := htoken, ahead := hahead }, hL.next _ _ hl hn⟩
  | lookahead =>
    obtain ⟨l, hn, rfl⟩ := onLexer_ok hr
    obtain ⟨hahead, htoken, -⟩ := (Lexer.delivers_regular _).lookahead hs.ahead hn
    exact ⟨trivial, { hs with token := htoken ▸ hs.token, ahead := hahead },
      hL.lookahead _ _ _ hl hn⟩
  | @loop _ _ _ P Q turn b hb ht ih =>
    change iterate turn s.bound b s = _ at hr
    generalize s.bound = n at hr
    induction n generalizing b s with
    | zero => cases hr
    | succ n ihn =>
      obtain ⟨_, _, htaken, hr⟩ := exists_of_bind hr
      cases htaken
      obtain ⟨r, u, hturn, hr⟩ := exists_of_bind hr
      obtain ⟨hr', hu, hlu⟩ := ih b hb hs hl hturn
      cases r with
      | again b' =>
        change (checkAdvance _ >>= fun _ => iterate turn n b') u = _ at hr
        obtain ⟨_, v, hcheck, hrest⟩ := exists_of_bind hr
        obtain ⟨-, rfl⟩ := ok_of_checkAdvance hcheck
        exact ihn hr' hu hlu hrest
      | done b' =>
        cases hr
        exact ⟨hr', hu, hlu⟩
  | @enclosing _ _ P m h ih =>
    cases ho : s.outer with
    | nil =>
      rw [inEnclosing_nil ho] at hr
      cases hr
    | cons b rest =>
      rw [inEnclosing_cons ho] at hr
      obtain ⟨u, hm, rfl⟩ := exists_of_inState hr
      obtain ⟨ha, hu, hlu⟩ := ih (hs.leave ho) hl hm
      exact ⟨ha, hu.backIn hs.fn, hlu⟩
  | metered h ih =>
    obtain ⟨_, u, ⟨⟩, hr⟩ := exists_of_bind hr
    obtain ⟨b, u, hm, hr⟩ := exists_of_bind hr
    obtain ⟨hb, hu, hlu⟩ := ih (s := s.deeper) (hs.atLevel _ _) hl hm
    cases hr
    exact ⟨hb, hu.atLevel _ _, hlu⟩
  | @nested _ _ P m line h ih =>
    obtain ⟨_, u, hnest, hr⟩ := exists_of_bind hr
    cases hnest
    obtain ⟨b, u, hm, hr⟩ := exists_of_bind hr
    obtain ⟨hb, hu, hlu⟩ := ih (hs.nest line) hl hm
    obtain ⟨_, v, hattach, hr⟩ := exists_of_bind hr
    cases hr
    refine ⟨hb, ?_⟩
    cases ho : u.outer with
    | nil => cases (attach_nil ho).symm.trans hattach
    | cons b' rest =>
      cases (attach_cons ho).symm.trans hattach
      exact ⟨hu.attached ho, hlu⟩

theorem Built.clean {levels : Option Nat} {α : Type} {P : α → Prop} {m : M α} (h : Built levels P m)
    {s t : State} {a : α}
    (hs : s.Clean) (hr : m s = .ok a t) : P a ∧ t.Clean := by
  have hL : Lexer.Lasting fun _ => True := ⟨fun _ _ _ h => h, fun _ _ h _ => h, fun _ _ _ h _ => h⟩
  obtain ⟨ha, ht, -⟩ := h.keeps hL hs trivial hr
  exact ⟨ha, ht⟩

theorem started_clean (o : Options) (source : Bytes) : (initial o source).started.Clean where
  token := trivial
  ahead := nofun
  vars v hv := absurd hv (Array.not_mem_empty v)
  fn :=
    ⟨fun v hv => absurd hv (Array.not_mem_empty v), fun p hp => absurd hp (Array.not_mem_empty p),
    fun r hr => absurd hr (Array.not_mem_empty r)⟩
  outer := nofun
  floats := .inr fun u hu => absurd hu (Array.not_mem_empty u)
  closings c hc := absurd hc (Array.not_mem_empty c)

/-- The main function of a source that compiles is clean, and so is all that was recorded of it. -/
theorem run_clean {o : Options} {source : Bytes} {p : Prototype}
    (h : (run o source).result = .ok p) :
    p.Regular ∧ ((run o source).spilled = true ∨ ∀ u ∈ (run o source).floats, u.Kept) ∧
      ∀ c ∈ (run o source).closings, RegularRows c.meant := by
  have hbody : ∀ a s, mainFunction (initial o source) = .ok a s → s.Clean := by
    intro a s hm
    rw [mainFunction_started] at hm
    exact ((Acts.nesting maxNesting).clean (started_clean o source) hm).2
  unfold run at h ⊢
  generalize mainFunction (initial o source) = r at h hbody ⊢
  cases r with
  | error e s => cases h
  | ok a s =>
    cases h
    have hs := hbody a s rfl
    exact ⟨hs.fn.prototype _, hs.floats, hs.closings⟩

end Compile

open Compile

/-- No float of a compiled chunk is a NaN or a negative zero: no constant of any of its functions,
and none of those that the compiler put into a pool, had loaded by an instruction, or kept as the
value of a declaration. What stands for such a constant is the very same float, and so is what is
read back where it was written. -/
theorem compile_floats {chunk source : Bytes} {p : Prototype} (h : compile chunk source = .ok p) :
    (∀ q ∈ p.walk, ∀ x, Value.num (.float x) ∈ q.constants → Binary64.Regular x ∧
      Wire.readFloat ((if x.value == 0 then none else some (Cbor.Item.float x)).getD .null) =
        some x) ∧
    ∀ u ∈ (run { chunk } source).floats, Binary64.Regular u.value ∧
      u.keeper.float? = some u.value := by
  obtain ⟨hp, hfloats, -⟩ := run_clean h
  have hfits := (run_sound (o := { chunk }) rfl (Int.le_refl _) source).fits p h
  refine ⟨fun q hq x hx => ?_, fun u hu => ?_⟩
  · have hregular : Binary64.Regular x := hp q hq _ hx
    refine ⟨hregular, Wire.readFloat_field fun hzero => hregular.2 ?_⟩
    rw [hzero, Double.value_of]
  · have hu := hfloats.resolve_left (by rw [hfits]; exact Bool.false_ne_true) u hu
    exact ⟨hu.regular, hu.float⟩

/-- A source with a float and a folded one, which are both loaded by an instruction. -/
def floatSource : Bytes := utf8 "(-{})(3., -2. * 4)"

theorem floatSource_floats : ∃ p, compile (utf8 "floats") floatSource = .ok p ∧
    (run { chunk := utf8 "floats" } floatSource).floats.size = 2 ∧
    ∀ u ∈ (run { chunk := utf8 "floats" } floatSource).floats, Binary64.Regular u.value ∧
      u.keeper.float? = some u.value := by
  obtain ⟨p, hp⟩ := exists_ok (r := compile (utf8 "floats") floatSource) (by decide +kernel)
  exact ⟨p, hp, by decide +kernel, (compile_floats hp).2⟩

end LuaChunk
