import LuaChunk.Proofs.Source.Bracket
import LuaChunk.Proofs.Source.Escape

set_option autoImplicit false

namespace LuaChunk

open Scan (Cursor Lexeme Fault isNewline isLetter isNameByte)
open Numeral (isDigit isHexDigit)

namespace Scan

/-- The digits of a numeral, before a letter right after them is counted. -/
def numeralDigits (start : Bytes) (first : UInt8) (rest : Bytes) : Bytes × Bytes :=
  match rest with
  | c :: body =>
    if first = byte '0' && (c = byte 'x' || c = byte 'X') then numeralText true
      (c :: first :: start.reverse) body
    else numeralText false (first :: start.reverse) rest
  | [] => numeralText false (first :: start.reverse) rest

def withLetter (p : Bytes × Bytes) : Bytes × Bytes :=
  match p.2 with
  | b :: more => if isLetter b then (p.1 ++ [b], more) else (p.1, p.2)
  | [] => (p.1, [])

theorem numeralExtent_eq (start : Bytes) (first : UInt8) (rest : Bytes) :
    numeralExtent start first rest = withLetter (numeralDigits start first rest) := rfl

theorem length_numeralText (hex : Bool) (acc s : Bytes) :
    acc.length ≤ (numeralText hex acc s).1.length := by
  fun_induction numeralText hex acc s with
  | case1 | case6 => simp
  | case4 => simp
  | case2 acc b isExponent he c rest hc ih
  | case3 acc b isExponent he c rest hc ih
  | case5 acc b rest isExponent he hb ih =>
    simp only [List.length_cons] at ih
    omega

theorem length_withLetter (p : Bytes × Bytes) : p.1.length ≤ (withLetter p).1.length := by
  obtain ⟨text, after⟩ := p
  cases after with
  | nil => exact Nat.le_refl _
  | cons b after =>
    unfold withLetter
    dsimp only
    split
    · rw [List.length_append]
      exact Nat.le_add_right ..
    · exact Nat.le_refl _

theorem length_numeralDigits (start : Bytes) (first : UInt8) (rest : Bytes) :
    start.length < (numeralDigits start first rest).1.length := by
  have hplain := length_numeralText false (first :: start.reverse) rest
  simp only [List.length_cons, List.length_reverse] at hplain
  cases rest with
  | nil => exact hplain
  | cons c body =>
    have hhex := length_numeralText true (c :: first :: start.reverse) body
    simp only [List.length_cons, List.length_reverse] at hhex
    unfold numeralDigits
    dsimp only
    split
    · omega
    · omega

end Scan

namespace Reader

variable {small : Prop} {hex : Bool} {b first : UInt8} {s t start acc rest : Bytes} {line : Nat}

def exponents (hex : Bool) : List UInt8 :=
  if hex then [byte 'P', byte 'p'] else [byte 'E', byte 'e']

theorem contains_exponents (hex : Bool) (b : UInt8) :
    (exponents hex).contains b = if hex then b = byte 'p' || b = byte 'P' else b = byte 'e' || b =
      byte 'E' := by
  cases hex <;> simp [exponents, Bool.or_comm]

theorem numeralDigits_eq (exponent : List UInt8) (r : Reader) : numeralDigits exponent r =
    r.current?.elim (.ok r) fun b =>
      if exponent.contains b || isHexDigit b || b == byte '.' then
        r.saveAndAdvance >>= fun r =>
          if exponent.contains b then r.takeOf [byte '-', byte '+'] >>= fun p =>
            numeralDigits exponent p.2
          else numeralDigits exponent r
      else .ok r := by
  rw [numeralDigits.eq_def]
  unfold current?
  split <;> rename_i hr <;> rw [hr]
  · rfl
  rw [List.head?_cons, Option.elim_some]
  split
  · split <;> rename_i h <;> rw [h]
    · show _ = (if _ then _ else _)
      split
      · split <;> rename_i h' <;> rw [h'] <;> rfl
      · rfl
    · rfl
  · rfl

section

variable {exponent : List UInt8} {z : Except Halt Reader}

theorem numeralDigits_letter (he : exponent.contains b = true)
    (ht : small → t.length < maxTokenSize)
    (h
    : Agrees small ((on s line (t ++ [b])).takeOf [byte '-', byte '+'] >>= fun p =>
    numeralDigits exponent p.2) z) :
    Agrees small (numeralDigits exponent (on (b :: s) line t)) z := by
  rw [numeralDigits_eq]
  refine .trans (.of_eq (if_pos ?_))
    ((saveAndAdvance_agrees ht).step (.trans (.of_eq (if_pos he)) h))
  rw [he, Bool.true_or, Bool.true_or]

theorem numeralDigits_digit (he : exponent.contains b = false)
    (hb : isHexDigit b = true ∨ b = byte '.')
    (ht : small → t.length < maxTokenSize)
    (h : Agrees small (numeralDigits exponent (on s line (t ++ [b]))) z) :
    Agrees small (numeralDigits exponent (on (b :: s) line t)) z := by
  rw [numeralDigits_eq]
  refine .trans (.of_eq (if_pos ?_))
    ((saveAndAdvance_agrees ht).step (.trans (.of_eq (if_neg ?_)) h))
  · rcases hb with hb | hb <;> simp [hb]
  · rw [he]
    exact Bool.false_ne_true

theorem numeralDigits_end (he : exponent.contains b = false)
    (hb : ¬(isHexDigit b = true ∨ b = byte '.')) :
    numeralDigits exponent (on (b :: s) line t) = .ok (on (b :: s) line t) := by
  rw [numeralDigits_eq]
  refine if_neg ?_
  rw [he, Bool.false_or, Bool.or_eq_true, beq_iff_eq]
  exact hb

end

theorem numeralDigits_agrees (h : small → (Scan.numeralText hex acc s).1.length ≤ maxTokenSize) :
    Agrees small (numeralDigits (exponents hex) (on s line acc.reverse))
      (.ok (on (Scan.numeralText hex acc s).2 line (Scan.numeralText hex acc s).1)) := by
  have hroom {b : UInt8} {acc s : Bytes}
      (h : small → (Scan.numeralText hex (b :: acc) s).1.length ≤ maxTokenSize) :
      small → acc.reverse.length < maxTokenSize := fun hs => by
    have hle := Scan.length_numeralText hex (b :: acc) s
    have := h hs
    rw [List.length_cons] at hle
    rw [List.length_reverse]
    omega
  fun_induction Scan.numeralText hex acc s with
  | case1 acc =>
    rw [numeralDigits_eq]
    exact .refl _
  | case2 acc b isExponent he c rest hc ih =>
    have hle := Scan.length_numeralText hex (c :: b :: acc) rest
    have hsign : [byte '-', byte '+'].contains c = true := by simpa using hc
    have hroom' : small → (acc.reverse ++ [b]).length < maxTokenSize := fun hs => by
      have := h hs
      simp only [List.length_cons] at hle
      simp only [List.length_append, List.length_reverse, List.length_singleton]
      omega
    refine numeralDigits_letter ((contains_exponents hex b).trans he) (fun hs => ?_)
      (.step (takeOf_true hsign hroom') ?_)
    · have := hroom' hs
      rw [List.length_append] at this
      omega
    · rw [List.reverse_cons, List.reverse_cons] at ih
      exact ih h
  | case3 acc b isExponent he c rest hc ih =>
    have hsign : (c :: rest).head?.any [byte '-', byte '+'].contains = false :=
      Bool.eq_false_iff.2 (by simpa using hc)
    refine numeralDigits_letter ((contains_exponents hex b).trans he) (hroom h) ?_
    rw [takeOf_false hsign]
    rw [List.reverse_cons] at ih
    exact ih h
  | case4 acc b isExponent he =>
    refine numeralDigits_letter ((contains_exponents hex b).trans he) (fun hs => ?_) ?_
    · have := h hs
      rw [List.length_reverse] at this ⊢
      exact this
    · rw [takeOf_false (by rfl), List.reverse_cons]
      refine .of_eq ((numeralDigits_eq _ _).trans ?_)
      rfl
  | case5 acc b rest isExponent he hb ih =>
    rw [List.reverse_cons] at ih
    exact numeralDigits_digit ((contains_exponents hex b).trans (Bool.eq_false_iff.2 he))
      (by simpa using hb) (hroom h) (ih h)
  | case6 acc b rest isExponent he hb =>
    exact .of_eq (numeralDigits_end ((contains_exponents hex b).trans (Bool.eq_false_iff.2 he))
      (by simpa using hb))

theorem numeralStart_agrees (line : Nat)
    (h : small → (Scan.numeralDigits start first rest).1.length ≤ maxTokenSize) :
    Agrees small ((if some first
      = some (byte '0') then (on rest line (start ++ [first])).takeOf [byte 'x', byte 'X']
        else .ok (false, on rest line (start ++ [first]))) >>= fun p =>
          numeralDigits (exponents p.1) p.2)
      (.ok (on (Scan.numeralDigits start first rest).2 line
        (Scan.numeralDigits start first rest).1)) := by
  have hplain (h : small → (Scan.numeralText false (first :: start.reverse) rest).1.length ≤
      maxTokenSize) :
      Agrees small (numeralDigits (exponents false) (on rest line (first :: start.reverse).reverse))
        _ := numeralDigits_agrees h
  have hhex {c : UInt8} {body : Bytes}
      (h : small → (Scan.numeralText true (c :: first :: start.reverse) body).1.length ≤
      maxTokenSize) :
      Agrees small (numeralDigits (exponents true)
        (on body line (c :: first :: start.reverse).reverse)) _ := numeralDigits_agrees h
  simp only [List.reverse_cons, List.reverse_reverse] at hplain hhex
  unfold Scan.numeralDigits at h ⊢
  by_cases hzero : first = byte '0'
  · rw [if_pos (congrArg some hzero)]
    cases rest with
    | nil =>
      rw [takeOf_false (by rfl)]
      exact hplain h
    | cons c body =>
      dsimp only at h ⊢
      by_cases hc : (c = byte 'x' || c = byte 'X') = true
      · have hletter : [byte 'x', byte 'X'].contains c = true := by simpa using hc
        have hbase : (first = byte '0' && (c = byte 'x' || c = byte 'X')) = true := by
          rw [hc]; simp [hzero]
        rw [if_pos hbase] at h ⊢
        have hle := Scan.length_numeralText true (c :: first :: start.reverse) body
        refine Agrees.step (takeOf_true hletter fun hs => ?_) (hhex h)
        have := h hs
        simp only [List.length_cons, List.length_reverse] at hle
        rw [List.length_append, List.length_singleton]
        omega
      · have hletter : (c :: body).head?.any [byte 'x', byte 'X'].contains = false :=
          Bool.eq_false_iff.2 (by simpa using hc)
        have hbase : ¬(first = byte '0' && (c = byte 'x' || c = byte 'X')) = true := by
          rw [Bool.and_eq_true]
          exact fun h => hc h.2
        rw [if_neg hbase] at h ⊢
        rw [takeOf_false hletter]
        exact hplain h
  · rw [if_neg fun h => hzero (Option.some.inj h)]
    cases rest with
    | nil => exact hplain h
    | cons c body =>
      have hbase : ¬(first = byte '0' && (c = byte 'x' || c = byte 'X')) = true := by
        rw [Bool.and_eq_true]
        exact fun h => hzero (of_decide_eq_true h.1)
      dsimp only at h ⊢
      rw [if_neg hbase] at h ⊢
      exact hplain h

theorem letter_agrees (line : Nat) {p : Bytes × Bytes}
    (h : small → (Scan.withLetter p).1.length ≤ maxTokenSize) :
    Agrees small (if (on p.2 line p.1).current?.any isLetter then (on p.2 line p.1).saveAndAdvance
      else .ok (on p.2 line p.1))
      (.ok (on (Scan.withLetter p).2 line (Scan.withLetter p).1)) := by
  obtain ⟨text, after⟩ := p
  cases after with
  | nil => exact .refl _
  | cons b after =>
    unfold Scan.withLetter at h ⊢
    dsimp only at h ⊢
    by_cases hb : isLetter b = true
    · rw [if_pos hb] at h ⊢
      refine .trans (.of_eq (if_pos hb)) (saveAndAdvance_agrees fun hs => ?_)
      have := h hs
      rw [List.length_append, List.length_singleton] at this
      omega
    · rw [if_neg hb]
      exact .of_eq (if_neg hb)

def numeralEnd (r : Reader) : Except Halt (Lexeme × Reader) :=
  match Numeral.read r.text with
  | some n => .ok (.number n r.text, r)
  | none => r.fail (utf8 "malformed number") (Token.quote r.text)

theorem numeral_eq (r : Reader) : r.numeral = r.saveAndAdvance >>= fun r' =>
    (if r.current? = some (byte '0') then r'.takeOf [byte 'x', byte 'X'] else .ok (false, r')) >>=
      fun p =>
      numeralDigits (exponents p.1) p.2 >>= fun r =>
        (if r.current?.any isLetter then r.saveAndAdvance else .ok r) >>= numeralEnd := rfl

theorem numeral_agrees (h : small → (Scan.numeralExtent start first rest).1.length ≤ maxTokenSize) :
    Agrees small (placed (on (first :: rest) line start).numeral)
      (faulty (Scan.numeral start first rest line)) := by
  rw [Scan.numeralExtent_eq] at h
  unfold Scan.numeral
  rw [Scan.numeralExtent_eq]
  have hstart : small → (Scan.numeralDigits start first rest).1.length ≤ maxTokenSize := fun hs =>
    Nat.le_trans (Scan.length_withLetter _) (h hs)
  have hdigits := numeralStart_agrees line hstart
  have hletter := letter_agrees line h
  have hfirst : Agrees small (on (first :: rest) line start).saveAndAdvance
      (.ok (on rest line (start ++ [first]))) :=
    saveAndAdvance_agrees fun hs =>
      Nat.lt_of_lt_of_le (Nat.lt_of_lt_of_le (Scan.length_numeralDigits ..)
        (Scan.length_withLetter _)) (h hs)
  rw [numeral_eq]
  refine .trans (hfirst.step
    (.trans (.of_eq (bind_assoc ..).symm) (hdigits.step (hletter.step (.refl _))))).placed ?_
  generalize Scan.withLetter (Scan.numeralDigits start first rest) = p
  obtain ⟨text, after⟩ := p
  unfold numeralEnd
  dsimp only
  rw [text_on]
  cases Numeral.read text <;> exact .refl _

theorem symbol_on {table : List (UInt8 × Symbol)} : (on (b :: s) line t).symbol b table =
    ((Scan.twoBytesOf b table s line).1,
      on (Scan.twoBytesOf b table s line).2.rest (Scan.twoBytesOf b table s line).2.line t) := by
  unfold symbol Scan.twoBytesOf
  cases s with
  | nil => rfl
  | cons c s =>
    unfold on advance current?
    dsimp only [List.tail_cons, List.head?_cons, Option.bind_some]
    cases table.lookup c <;> rfl

theorem twoBytes_eq (b second : UInt8) (double : Symbol) (s : Bytes) (line : Nat) :
    Scan.twoBytes b second double s line = Scan.twoBytesOf b [(second, double)] s line := by
  cases s with
  | nil => rfl
  | cons c s =>
    unfold Scan.twoBytes Scan.twoBytesOf
    dsimp only
    by_cases hc : c = second
    · subst hc
      rw [if_pos rfl, List.lookup_cons_self]
    · rw [if_neg hc, List.lookup_cons, beq_false_of_ne hc]
      rfl

theorem symbol_agrees {table : List (UInt8 × Symbol)} :
    Agrees small (placed (.ok ((on (b :: s) line t).symbol b table)))
      (faulty (.ok (Scan.twoBytesOf b table s line))) := by
  rw [symbol_on]
  exact .refl _

theorem points_agrees (h : small → ∀ d more, s = d :: more → isDigit d = true →
      (Scan.numeralExtent [byte '.'] d more).1.length ≤ maxTokenSize) :
    Agrees small (placed (on (byte '.' :: s) line []).points) (faulty (Scan.points s line)) := by
  have hfirst : Agrees small (on (byte '.' :: s) line []).saveAndAdvance
      (.ok (on s line [byte '.'])) :=
    saveAndAdvance_agrees fun _ => by decide
  have hpoint : [byte '.'].contains (byte '.') = true := by decide
  cases s with
  | nil =>
    refine .trans (hfirst.step
      (.trans (.of_eq (congrArg (· >>= _) (takeOf_false rfl))) (.refl _))).placed (.refl _)
  | cons d s =>
    by_cases hd : d = byte '.'
    · subst hd
      have hsecond : Agrees small ((on (byte '.' :: s) line [byte '.']).takeOf [byte '.'])
          (.ok (true, on s line [byte '.', byte '.'])) :=
        takeOf_true hpoint fun _ => by decide
      cases s with
      | nil => exact .trans (hfirst.step (hsecond.step (.refl _))).placed (.refl _)
      | cons c s =>
        by_cases hc : c = byte '.'
        · subst hc
          have hthird : Agrees small
              ((on (byte '.' :: s) line [byte '.', byte '.']).takeOf [byte '.'])
              (.ok (true, on s line [byte '.', byte '.', byte '.'])) :=
                takeOf_true hpoint fun _ => by decide
          exact .trans (hfirst.step (hsecond.step (hthird.step (.refl _)))).placed (.refl _)
        · have hthird : Agrees small ((on (c :: s) line [byte '.', byte '.']).takeOf [byte '.'])
              (.ok (false, on (c :: s) line [byte '.', byte '.'])) :=
                .of_eq (takeOf_false (by simpa using hc))
          refine .trans (hfirst.step (hsecond.step (hthird.step (.refl _)))).placed ?_
          unfold Scan.points
          dsimp only
          rw [if_pos rfl, if_neg hc]
          exact .refl _
    · have hsecond : Agrees small ((on (d :: s) line [byte '.']).takeOf [byte '.'])
          (.ok (false, on (d :: s) line [byte '.'])) :=
        .of_eq (takeOf_false (by simpa using hd))
      refine .trans (hfirst.step (hsecond.step (.refl _))).placed ?_
      unfold Scan.points
      dsimp only
      rw [if_neg hd]
      by_cases hdigit : isDigit d = true
      · rw [if_pos hdigit, if_neg Bool.false_ne_true, if_pos (by exact hdigit)]
        exact numeral_agrees fun hs => h hs d s rfl hdigit
      · rw [if_neg hdigit, if_neg Bool.false_ne_true, if_neg (by exact hdigit)]
        exact .refl _

theorem word_agrees (h : small → ((b :: s).takeWhile isNameByte).length ≤ maxTokenSize) :
    Agrees small (placed (saveWhile isNameByte 0 (on (b
      :: s) line []) >>= fun p => .ok (.word p.2.text, p.2)))
      (faulty (.ok (.word ((b
        :: s).takeWhile isNameByte), ⟨(b :: s).dropWhile isNameByte, line⟩))) := by
  have hrun : Agrees small (saveWhile isNameByte 0 (on (b :: s) line [])) _ :=
    saveWhile_agrees fun hs => by
    rw [List.length_nil, Nat.zero_add]
    exact h hs
  exact (hrun.step (.refl _)).placed

theorem head?_quotedText {delim : UInt8} {acc text : Bytes} {c : Cursor}
    (h : Scan.quotedText delim s line acc = .ok (text, c)) :
    ∃ more, text = acc.reverse ++ more := by
  fun_induction Scan.quotedText delim s line acc with
  | case1 | case3 | case4 | case6 => cases h
  | case2 =>
    cases h
    exact ⟨[], (List.append_nil _).symm⟩
  | case5 line acc e rest bytes place he hd hn ih =>
    obtain ⟨more, rfl⟩ := ih h
    exact ⟨bytes ++ more, by simp⟩
  | case7 line acc b rest hd hn hs ih =>
    obtain ⟨more, rfl⟩ := ih h
    exact ⟨b :: more, by simp⟩

theorem quoted_body {delim : UInt8} {text : Bytes} {c : Cursor}
    (hbody : Agrees small (quotedBody delim (on s line [delim]))
    (.ok (on (delim :: c.rest) c.line ([delim] ++ text))))
    (h : small → text.length + 2 ≤ maxTokenSize) :
    Agrees small (placed ((on (delim :: s) line []).quoted delim))
      (.ok (.string text ([delim] ++ text ++ [delim]), c)) := by
  have hfirst : Agrees small (on (delim :: s) line []).saveAndAdvance (.ok (on s line [delim])) :=
    saveAndAdvance_agrees fun _ => by decide
  have hlast : Agrees small (on (delim :: c.rest) c.line ([delim] ++ text)).saveAndAdvance
      (.ok (on c.rest c.line ([delim] ++ text ++ [delim]))) := saveAndAdvance_agrees fun hs => by
    have hroom := h hs
    rw [List.length_append, List.length_singleton]
    omega
  have hinside : (on c.rest c.line ([delim] ++ text ++ [delim])).inside 1 = .ok text :=
    inside_on rfl rfl
  have hquoted : Agrees small ((on (delim :: s) line []).quoted delim)
      (.ok (.string text ([delim]
        ++ text ++ [delim]), on c.rest c.line ([delim] ++ text ++ [delim]))) := by
    refine Agrees.step hfirst (Agrees.step hbody (Agrees.step hlast ?_))
    rw [hinside]
    exact .refl _
  exact hquoted.placed

theorem quoted_agrees {delim : UInt8} :
    Agrees False (placed ((on (delim :: s) line []).quoted delim))
    (faulty (match Scan.quotedText delim s line [delim] with
      | .ok (text, c) => .ok (.string (text.drop 1) (text ++ [delim]), c)
      | .error f => .error f)) := by
  have hbody := quotedBody_agrees delim s line [delim]
  rw [List.reverse_singleton] at hbody
  cases hq : Scan.quotedText delim s line [delim] with
  | error f =>
    rw [hq] at hbody
    have hfirst : Agrees False (on (delim :: s) line []).saveAndAdvance (.ok (on s line [delim])) :=
      saveAndAdvance_agrees False.elim
    have hstop : Agrees False ((on (delim :: s) line []).quoted delim) (.error (.fault f)) :=
      Agrees.step hfirst (Agrees.stop hbody)
    exact hstop.placed
  | ok p =>
    obtain ⟨text, c⟩ := p
    rw [hq] at hbody
    obtain ⟨more, rfl⟩ := head?_quotedText hq
    exact quoted_body hbody False.elim

/-- How much of a lexeme the buffer holds at most, but for a quoted string. -/
def need (b : UInt8) (s : Bytes) : Nat :=
  if b = byte '[' then Scan.bracketNeed true s
  else if b = byte '.' then
    match s with
    | d :: more => if isDigit d then (Scan.numeralExtent [byte '.'] d more).1.length else 3
    | [] => 1
  else if isDigit b then (Scan.numeralExtent [] b s).1.length
  else if isLetter b then ((b :: s).takeWhile isNameByte).length
  else 0

theorem lexeme_agrees (h : small → (b ≠ byte '"' ∧ b ≠ 39) ∧ need b s ≤ maxTokenSize ∧
      Scan.endLine ((Scan.lexeme (b :: s) line).map Prod.snd) < maxLines) :
    Agrees small (placed ((on (b :: s) line []).lexeme b))
      (faulty (Scan.lexeme (b :: s) line)) := by
  unfold need Scan.lexeme at h
  unfold Reader.lexeme Scan.lexeme
  dsimp only at h ⊢
  by_cases hbracket : b = byte '['
  · subst hbracket
    exact bracket_agrees fun hs => (h hs).2
  rw [if_neg hbracket, if_neg hbracket] at h ⊢
  by_cases heq : b = byte '='
  · rw [if_pos heq, if_pos heq, twoBytes_eq]
    exact symbol_agrees
  rw [if_neg heq] at h
  rw [if_neg heq, if_neg heq]
  by_cases hlt : b = byte '<'
  · rw [if_pos hlt, if_pos hlt]
    exact symbol_agrees
  rw [if_neg hlt] at h
  rw [if_neg hlt, if_neg hlt]
  by_cases hgt : b = byte '>'
  · rw [if_pos hgt, if_pos hgt]
    exact symbol_agrees
  rw [if_neg hgt] at h
  rw [if_neg hgt, if_neg hgt]
  by_cases hslash : b = byte '/'
  · rw [if_pos hslash, if_pos hslash, twoBytes_eq]
    exact symbol_agrees
  rw [if_neg hslash] at h
  rw [if_neg hslash, if_neg hslash]
  by_cases htilde : b = byte '~'
  · rw [if_pos htilde, if_pos htilde, twoBytes_eq]
    exact symbol_agrees
  rw [if_neg htilde] at h
  rw [if_neg htilde, if_neg htilde]
  by_cases hcolon : b = byte ':'
  · rw [if_pos hcolon, if_pos hcolon, twoBytes_eq]
    exact symbol_agrees
  rw [if_neg hcolon] at h
  rw [if_neg hcolon, if_neg hcolon]
  by_cases hquote : (b = byte '"' || b = 39) = true
  · rw [if_pos hquote, if_pos hquote]
    refine quoted_agrees.mono fun hs => ?_
    have hne := (h hs).1
    simp [hne] at hquote
  rw [if_neg hquote] at h
  rw [if_neg hquote, if_neg hquote]
  by_cases hpoint : b = byte '.'
  · subst hpoint
    rw [if_pos rfl, if_pos rfl]
    refine points_agrees fun hs d more hd hdigit => ?_
    subst hd
    have hneed := (h hs).2.1
    rw [if_pos rfl] at hneed
    exact Nat.le_trans (Nat.le_of_eq (if_pos hdigit).symm) hneed
  rw [if_neg hpoint, if_neg hpoint] at h ⊢
  by_cases hdigit : isDigit b = true
  · rw [if_pos hdigit] at h
    rw [if_pos hdigit, if_pos hdigit]
    exact numeral_agrees fun hs => (h hs).2.1
  rw [if_neg hdigit] at h
  rw [if_neg hdigit, if_neg hdigit]
  by_cases hletter : isLetter b = true
  · rw [if_pos hletter] at h
    rw [if_pos hletter, if_pos hletter]
    exact word_agrees fun hs => (h hs).2.1
  · rw [if_neg hletter, if_neg hletter]
    exact .refl _

theorem next_eq (r : Reader) : r.next = r.current?.elim (.ok (.eos, r)) fun b =>
    if isNewline b then r.skipNewline >>= next
    else if Text.isBlank b then next r.advance
    else if b = byte '-' then
      if r.advance.current? = some (byte '-') then r.advance.advance.comment >>=
        next else .ok (.byte b, r.advance)
    else r.lexeme b := by
  rw [next.eq_def, show r.current? = r.rest.head? from rfl]
  split <;> rename_i hr <;> rw [hr]
  · rfl
  rw [List.head?_cons, Option.elim_some]
  split
  · split <;> rename_i h <;> rw [h] <;> rfl
  split
  · rfl
  split
  · split
    · split <;> rename_i h <;> rw [h] <;> rfl
    · rfl
  · rfl

theorem next_newline (hb : isNewline b = true) (h : small → line + 1 < maxLines) :
    Agrees small (on (b :: s) line t).next (on (Scan.afterNewline b s) (line + 1) t).next := by
  rw [next_eq]
  exact .trans (.of_eq (if_pos hb)) (Agrees.step (skipNewline_agrees h) (.refl _))

theorem next_blank (hb : ¬isNewline b = true) (hblank : Text.isBlank b = true) :
    (on (b :: s) line t).next = (on s line t).next := by
  rw [next_eq]
  exact (if_neg hb).trans (if_pos hblank)

theorem next_dashes : (on (byte '-' :: byte '-' :: s) line t).next = (on s line t).comment >>=
    next := by
  rw [next_eq]
  rw [current?_on, List.head?_cons, Option.elim_some, if_neg (by decide), if_neg (by decide),
    if_pos rfl]
  exact if_pos rfl

theorem next_token (h : StartsToken (b :: s)) :
    (on (b :: s) line t).next = (on (b :: s) line t).lexeme b := by
  have hblank := h.1 b rfl
  have hnewline : ¬isNewline b = true :=
    fun hb => Bool.false_ne_true (hblank.symm.trans (isBlank_of_isNewline hb))
  rw [next_eq]
  refine (if_neg hnewline).trans ((if_neg (Bool.eq_false_iff.1 hblank)).trans ?_)
  by_cases hb : b = byte '-'
  · subst hb
    have hdash : ¬s.head? = some (byte '-') := by
      intro hs
      obtain ⟨s, rfl⟩ := List.head?_eq_some_iff.1 hs
      exact Option.some_ne_none _ ((dropPrefix?_self_append (utf8 "--") s).symm.trans h.2)
    exact (if_pos rfl).trans (if_neg hdash)
  · exact if_neg hb

theorem next_agrees (s : Bytes) (line : Nat) : Agrees False (placed (on s line []).next)
    (faulty (Scan.scan s line)) := by
  unfold Scan.scan
  fun_induction Scan.skip s line with
  | case1 line =>
    rw [next_eq]
    exact .refl _
  | case2 line b rest hb ih => exact (next_newline hb False.elim).placed.trans ih
  | case3 line b rest hb hblank ih =>
    rw [next_blank hb hblank]
    exact ih
  | case4 line b rest hb hblank hdash =>
    have hstarts : StartsToken (b :: rest) := by
      refine ⟨?_, hdash⟩
      rintro _ ⟨⟩
      exact Bool.eq_false_iff.2 hblank
    rw [next_token hstarts]
    exact lexeme_agrees False.elim
  | case5 line b rest hb hblank body hdash place hcomment ih =>
    have hcommented : Agrees False (on body line []).comment _ := comment_agrees False.elim
    rw [hcomment] at hcommented
    rw [eq_append_of_dropPrefix? hdash]
    have hskip : Agrees False (on (byte '-' :: byte '-' :: body) line []).next
        (on place.rest place.line []).next :=
      .trans (.of_eq next_dashes) (Agrees.step hcommented (.refl _))
    exact hskip.placed.trans ih
  | case6 line b rest hb hblank body hdash f hcomment =>
    have hcommented : Agrees False (on body line []).comment _ := comment_agrees False.elim
    rw [hcomment] at hcommented
    rw [eq_append_of_dropPrefix? hdash]
    exact (Agrees.trans (.of_eq next_dashes) (Agrees.stop hcommented)).placed

theorem scan_agrees (s : Bytes) (line : Nat) : Agrees False (scan s line)
    (faulty (Scan.scan s line)) := next_agrees s line

theorem scan_eq_of_ok {p : Lexeme × Cursor} (h : scan s line = .ok p) :
    Scan.scan s line = .ok p := by
  rcases scan_agrees s line with heq | ⟨-, e, he, -⟩
  · rw [h] at heq
    cases hs : Scan.scan s line with
    | ok q => rw [Except.ok.inj (heq.trans (congrArg faulty hs))]
    | error f => cases heq.trans (congrArg faulty hs)
  · cases h.symm.trans he

/-- What is read, or the fault that it has: no slice of the buffer is out of range. -/
def read (s : Bytes) (line : Nat) : Except Fault (Lexeme × Cursor) :=
  match scan s line with
  | .ok p => .ok p
  | .error (.fault f) => .error f
  | .error .outOfRange => Scan.scan s line

theorem scan_eq_read (s : Bytes) (line : Nat) : scan s line = faulty (read s line) := by
  have hagrees := scan_agrees s line
  unfold read
  cases hs : scan s line with
  | ok p => rfl
  | error e =>
    cases e with
    | fault f => rfl
    | outOfRange =>
      rw [hs] at hagrees
      rcases hagrees with heq | ⟨-, e, he, hlimit⟩
      · exact heq
      · cases he
        cases hlimit

theorem faulty_injective {α : Type} {x y : Except Fault α} (h : faulty x = faulty y) : x = y := by
  cases x <;> cases y <;> cases h <;> rfl

theorem read_eq {x : Except Fault (Lexeme × Cursor)} (h : scan s line = faulty x) :
    read s line = x :=
  faulty_injective ((scan_eq_read s line).symm.trans h)

theorem read_eq_ok {p : Lexeme × Cursor} : read s line = .ok p ↔ scan s line = .ok p := by
  rw [scan_eq_read]
  cases read s line with
  | ok q => exact ⟨congrArg faulty, fun h => congrArg Except.ok (Except.ok.inj h)⟩
  | error f =>
    constructor
    · rintro ⟨⟩
    · rintro ⟨⟩

theorem scan_of_read {p : Lexeme × Cursor} (h : read s line = .ok p) : Scan.scan s line = .ok p :=
  scan_eq_of_ok (read_eq_ok.1 h)

end Reader

end LuaChunk
