import LuaChunk.Proofs.Source.Spacing
import LuaChunk.Proofs.Source.Stream

set_option autoImplicit false

namespace LuaChunk

theorem Plain.head {b : UInt8} {s : Bytes} (h : Plain (b :: s)) : Scan.isNewline b = false :=
  h b (List.mem_cons_self ..)

theorem Plain.tail {b : UInt8} {s : Bytes} (h : Plain (b :: s)) : Plain s :=
  fun c hc => h c (List.mem_cons_of_mem _ hc)

theorem Plain.of_suffix {s t : Bytes} (h : Plain s) (ht : t <:+ s) : Plain t :=
  fun b hb => h b (ht.subset hb)

theorem Plain.dropPrefix {p s t : Bytes} (h : Plain s) (ht : Bytes.dropPrefix? p s = some t) :
    Plain t :=
  h.of_suffix ⟨p, (eq_append_of_dropPrefix? ht).symm⟩

namespace Scan

/-- Whether a place is on a line, with no newline after it. -/
structure Cursor.OnLine (c : Cursor) (line : Nat) : Prop where
  line : c.line = line
  plain : Plain c.rest

variable {s t rest acc : Bytes} {line level : Nat} {c : Cursor}

theorem onLine_skipBlanks (hs : Plain s) : (skipBlanks s line).OnLine line := by
  fun_induction skipBlanks s line with
  | case1 => exact ⟨rfl, hs⟩
  | case2 line b rest hb => exact absurd hb (by simp [hs.head])
  | case3 line b rest _ _ ih => exact ih hs.tail
  | case4 => exact ⟨rfl, hs⟩

theorem onLine_longText (hs : Plain s) (h : longText level s line acc = .ok (t, c)) :
    c.OnLine line := by
  fun_induction longText level s line acc with
  | case1 => cases h
  | case2 line acc b rest hb => exact absurd hb (by simp [hs.head])
  | case3 line acc rest after hc =>
    cases h
    exact ⟨rfl, hs.tail.dropPrefix hc⟩
  | case4 line acc rest _ _ ih => exact ih hs.tail h
  | case5 line acc b rest _ _ ih => exact ih hs.tail h

theorem onLine_longBracket (hs : Plain s) (h : longBracket level s line = .ok (t, c)) :
    c.OnLine line := by
  cases s with
  | nil => cases h
  | cons b rest =>
    simp only [longBracket, hs.head, Bool.false_eq_true, if_false] at h
    exact onLine_longText hs h

theorem plain_openBracket? (hs : Plain s) (h : openBracket? s = some (level, rest)) :
    Plain rest := by
  have hb := (prefix_of_openBracket? h).symm
  have hplain : Plain (byte '[' :: s) := by
    intro b hb
    rcases List.mem_cons.1 hb with rfl | hb
    · rfl
    · exact hs b hb
  exact hplain.of_suffix ⟨_, hb⟩

theorem plain_dropWhile (hs : Plain s) (p : UInt8 → Bool) : Plain (s.dropWhile p) :=
  hs.of_suffix (List.dropWhile_suffix p)

theorem onLine_comment (hs : Plain s) (h : comment s line = .ok c) : c.OnLine line := by
  have hshort := plain_dropWhile hs fun b => !isNewline b
  unfold comment at h
  simp only at h
  split at h
  · rename_i b rest
    split at h
    · split at h
      · rename_i level body ho
        split at h
        · rename_i t c' hl
          cases h
          exact onLine_longBracket (plain_openBracket? hs.tail ho) hl
        · cases h
      · cases h
        exact ⟨rfl, hshort⟩
    · cases h
      exact ⟨rfl, hshort⟩
  · cases h
    exact ⟨rfl, hshort⟩

theorem onLine_skip (hs : Plain s) (h : skip s line = .ok c) : c.OnLine line := by
  fun_induction skip s line with
  | case1 =>
    cases h
    exact ⟨rfl, hs⟩
  | case2 line b rest hb => exact absurd hb (by simp [hs.head])
  | case3 line b rest _ _ ih => exact ih hs.tail h
  | case4 =>
    cases h
    exact ⟨rfl, hs⟩
  | case5 line b rest _ _ body hp c' hc ih =>
    have hc' := onLine_comment (hs.dropPrefix hp) hc
    rw [← hc'.line]
    exact ih hc'.plain h
  | case6 => cases h

theorem onLine_codeDigits {value : Nat} {shown : Bytes} (hs : Plain s)
    (h : codeDigits value shown line s = .ok (t, c)) : c.OnLine line := by
  fun_induction codeDigits value shown line s with
  | case1 => exact absurd h badEscape_ne_ok
  | case2 _ _ b rest _ _ ih => exact ih hs.tail h
  | case3 => exact absurd h badEscape_ne_ok
  | case4 =>
    cases h
    exact ⟨rfl, hs.tail⟩
  | case5 => exact absurd h badEscape_ne_ok

theorem onLine_hexEscape (hs : Plain s) (h : hexEscape s line = .ok (t, c)) : c.OnLine line := by
  unfold hexEscape at h
  simp only at h
  split at h
  · split at h
    · exact absurd h badEscape_ne_ok
    · split at h
      · exact absurd h badEscape_ne_ok
      · cases h
        exact ⟨rfl, hs.tail.tail⟩
  · split at h <;> exact absurd h badEscape_ne_ok
  · exact absurd h badEscape_ne_ok

theorem onLine_codeEscape (hs : Plain s) (h : codeEscape s line = .ok (t, c)) : c.OnLine line := by
  unfold codeEscape at h
  split at h
  · split at h
    · exact onLine_codeDigits hs.tail.tail h
    · exact absurd h badEscape_ne_ok
  · exact absurd h badEscape_ne_ok
  · exact absurd h badEscape_ne_ok

theorem onLine_decimalEscape (hs : Plain s) (h : decimalEscape s line = .ok (t, c)) :
    c.OnLine line := by
  unfold decimalEscape at h
  simp only at h
  split at h
  · cases h
    exact ⟨rfl, hs.of_suffix (List.drop_suffix ..)⟩
  · exact absurd h badEscape_ne_ok

theorem onLine_escape {b : UInt8} (hs : Plain (b :: s)) (h : escape b s line = .ok (t, c)) :
    c.OnLine line := by
  unfold escape at h
  split at h
  · cases h
    exact ⟨rfl, hs.tail⟩
  · split at h
    · exact onLine_hexEscape hs.tail h
    · split at h
      · exact onLine_codeEscape hs.tail h
      · rw [hs.head, if_neg (by simp)] at h
        split at h
        · cases h
          exact onLine_skipBlanks hs.tail
        · split at h
          · exact onLine_decimalEscape hs h
          · exact absurd h badEscape_ne_ok

theorem onLine_quotedText {delim : UInt8} (hs : Plain s)
    (h : quotedText delim s line acc = .ok (t, c)) : c.OnLine line := by
  fun_induction quotedText delim s line acc with
  | case1 => cases h
  | case2 =>
    cases h
    exact ⟨rfl, hs.tail⟩
  | case3 => cases h
  | case4 => cases h
  | case5 line acc d rest bytes cursor he _ _ ih =>
    have hc := onLine_escape hs.tail he
    rw [← hc.line]
    exact ih hc.plain h
  | case6 => cases h
  | case7 line acc b rest _ _ _ ih => exact ih hs.tail h

theorem numeralText_suffix (hex : Bool) (acc s : Bytes) : (numeralText hex acc s).2 <:+ s := by
  fun_induction numeralText hex acc s with
  | case1 => exact List.suffix_refl _
  | case2 acc b _ _ c after _ ih => exact ih.trans ⟨[b, c], rfl⟩
  | case3 acc b _ _ c after _ ih => exact ih.trans (List.suffix_cons ..)
  | case4 => exact List.nil_suffix
  | case5 acc b rest _ _ _ ih => exact ih.trans (List.suffix_cons ..)
  | case6 => exact List.suffix_refl _

theorem letterExtent_suffix (p : Bytes × Bytes) :
    (match p.2 with
      | b :: more => if isLetter b then (p.1 ++ [b], more) else (p.1, p.2)
      | [] => (p.1, [])).2 <:+ p.2 := by
  obtain ⟨text, after⟩ := p
  cases after with
  | nil => exact List.suffix_refl _
  | cons b more =>
    dsimp only
    split
    · exact List.suffix_cons ..
    · exact List.suffix_refl _

theorem plain_numeralExtent {start : Bytes} {first : UInt8} (hs : Plain s) :
    Plain (numeralExtent start first s).2 := by
  refine hs.of_suffix ?_
  unfold numeralExtent
  simp only
  refine (letterExtent_suffix _).trans ?_
  cases s with
  | nil => exact numeralText_suffix _ _ _
  | cons x body =>
    simp only
    split
    · exact (numeralText_suffix _ _ _).trans (List.suffix_cons ..)
    · exact numeralText_suffix _ _ _

def StaysOn (line : Nat) (r : Except Fault (Lexeme × Cursor)) : Prop := ∀ x c, r = .ok (x, c) →
  c.OnLine line

theorem StaysOn.ite {p : Prop} [Decidable p] {r r' : Except Fault (Lexeme × Cursor)}
    (h : p → StaysOn line r) (h' : ¬ p → StaysOn line r') : StaysOn line (if p then r else r') := by
  split
  · exact h ‹_›
  · exact h' ‹_›

theorem StaysOn.ok {x : Lexeme} (h : Plain rest) : StaysOn line (.ok (x, ⟨rest, line⟩)) := by
  rintro _ _ ⟨⟩
  exact ⟨rfl, h⟩

theorem StaysOn.error (f : Fault) : StaysOn line (.error f) := nofun

theorem staysOn_numeral {start : Bytes} {first : UInt8} (hs : Plain s) :
    StaysOn line (numeral start first s line) := by
  have hextent : Plain (numeralExtent start first s).2 := plain_numeralExtent hs
  unfold numeral
  simp only
  split
  · exact .ok hextent
  · exact .error _

theorem staysOn_bracket (hs : Plain s) : StaysOn line (bracket s line) := by
  unfold bracket
  split
  · rename_i level body ho
    split
    · rename_i t c hl
      have hc := onLine_longBracket (plain_openBracket? hs ho) hl
      rintro _ _ ⟨⟩
      exact hc
    · exact .error _
  · exact .ite (fun _ => .ok hs) fun _ => .error _

theorem staysOn_twoBytes {b second : UInt8} {double : Symbol} (hs : Plain s) :
    StaysOn line (.ok (twoBytes b second double s line)) := by
  unfold twoBytes
  split
  · split
    · exact .ok hs.tail
    · exact .ok hs
  · exact .ok hs

theorem staysOn_twoBytesOf {b : UInt8} {table : List (UInt8 × Symbol)} (hs : Plain s) :
    StaysOn line (.ok (twoBytesOf b table s line)) := by
  unfold twoBytesOf
  split
  · split
    · exact .ok hs.tail
    · exact .ok hs
  · exact .ok hs

theorem staysOn_points (hs : Plain s) : StaysOn line (points s line) := by
  unfold points
  split
  · refine .ite (fun _ => ?_) fun _ => .ite (fun _ => staysOn_numeral hs.tail) fun _ => .ok hs
    split
    · exact .ite (fun _ => .ok hs.tail.tail) fun _ => .ok hs.tail
    · exact .ok hs.tail
  · exact .ok hs

theorem staysOn_lexeme (hs : Plain s) : StaysOn line (lexeme s line) := by
  cases s with
  | nil => exact .ok hs
  | cons b rest =>
    have hr := hs.tail
    refine .ite (fun _ => staysOn_bracket hr) fun _ => .ite (fun _ => staysOn_twoBytes hr) fun _ =>
      ?_
    refine .ite (fun _ => staysOn_twoBytesOf hr) fun _ =>
      .ite (fun _ => staysOn_twoBytesOf hr) fun _ => ?_
    refine .ite (fun _ => staysOn_twoBytes hr) fun _ => .ite (fun _ => staysOn_twoBytes hr) fun _ =>
      ?_
    refine .ite (fun _ => staysOn_twoBytes hr) fun _ => .ite (fun _ => ?_) fun _ => ?_
    · cases hq : quotedText b rest line [b] with
      | ok r =>
        have hc := onLine_quotedText (c := r.2) hr hq
        rintro _ _ ⟨⟩
        exact hc
      | error f => exact .error f
    · refine .ite (fun _ => staysOn_points hr) fun _ => .ite (fun _ => staysOn_numeral hr) fun _ =>
        ?_
      exact .ite (fun _ => .ok (plain_dropWhile hs _)) fun _ => .ok hr

theorem onLine_scan {x : Lexeme} (hs : Plain s) (h : scan s line = .ok (x, c)) : c.OnLine line := by
  unfold scan at h
  split at h
  · rename_i c' hskip
    have hc := onLine_skip hs hskip
    rw [← hc.line]
    exact staysOn_lexeme hc.plain x c h
  · cases h

end Scan

namespace Lexer

structure OnLine (l : Lexer) (line : Nat) : Prop where
  line : l.line = line
  plain : Plain l.input

variable {l l' : Lexer} {line : Nat}

theorem onLine_scan {t : Token} (hf : l.failure = none) (h : l.OnLine line)
    (hs : scan l = .ok t l') :
    l'.OnLine line ∧ l'.lastLine = l.lastLine ∧ l'.source = l.source := by
  rw [scan_step, h.line] at hs
  cases hr : Reader.read l.input line with
  | error f =>
    rw [hr] at hs
    dsimp only at hs
    rw [bind_eq (checkRead_eq hf)] at hs
    cases hs
  | ok r =>
    obtain ⟨x, c⟩ := r
    have hc := Scan.onLine_scan h.plain (Reader.scan_of_read hr)
    rw [hr] at hs
    dsimp only at hs
    rw [bind_eq (checkRead_eq hf)] at hs
    cases hi : internedText? x with
    | none =>
      rw [hi] at hs
      cases hs
      exact ⟨⟨hc.line, hc.plain⟩, rfl, rfl⟩
    | some w =>
      rw [hi] at hs
      cases hs
      exact ⟨⟨hc.line, hc.plain⟩, rfl, rfl⟩

theorem onLine_next (hf : l.failure = none) (h : l.OnLine line) (hn : next l = .ok () l') :
    l'.OnLine line ∧ l'.lastLine = line ∧ l'.source = l.source := by
  rw [next_step] at hn
  cases ha : l.ahead with
  | some t =>
    rw [ha] at hn
    cases hn
    exact ⟨⟨h.line, h.plain⟩, h.line, rfl⟩
  | none =>
    have h₀ : l.counted.OnLine line := ⟨h.line, h.plain⟩
    have hf₀ : l.counted.failure = none := hf
    rw [ha] at hn
    change EStateM.bind scan _ l.counted = _ at hn
    unfold EStateM.bind at hn
    split at hn
    · rename_i t l₁ hs
      obtain ⟨hl₁, hlast, hsource⟩ := onLine_scan hf₀ h₀ hs
      change EStateM.Result.ok () { l₁ with token := t } = _ at hn
      injection hn with _ hn
      rw [← hn]
      exact ⟨⟨hl₁.line, hl₁.plain⟩, hlast.trans h.line, hsource⟩
    · cases hn

end Lexer

end LuaChunk
