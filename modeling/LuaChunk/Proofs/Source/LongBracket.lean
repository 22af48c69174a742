import Mathlib.Data.Nat.Find
import LuaChunk.Proofs.Source.Stream

/-!
Long brackets. A string or a comment in long brackets ends at the first closing bracket of its
level, whatever brackets of other levels stand before it, also where these share bytes with it. A
newline after the opening bracket is no part of a string, and each other newline in it becomes `\n`.
-/

set_option autoImplicit false

namespace LuaChunk

open Scan (isNewline)

variable {level m line : Nat} {s : Bytes}

/-- Whether the first closing bracket of a level in a text starts at an offset. -/
def ClosesAt (level : Nat) (s : Bytes) (m : Nat) : Prop :=
  closeBracket level <+: s.drop m ∧ ∀ k < m, ¬closeBracket level <+: s.drop k

instance (level : Nat) (s : Bytes) (m : Nat) : Decidable (ClosesAt level s m) :=
  inferInstanceAs (Decidable (_ ∧ ∀ k < m, _))

theorem length_openBracket (level : Nat) : (openBracket level).length = level + 2 := by
  simp [openBracket]

theorem length_closeBracket (level : Nat) : (closeBracket level).length = level + 2 := by
  simp [closeBracket]

namespace ClosesAt

theorem split (h : ClosesAt level s m) :
    s = s.take m ++ closeBracket level ++ s.drop (m + level + 2) := by
  obtain ⟨rest, hrest⟩ := h.1
  have hdrop : s.drop (m + level + 2) = rest := by
    rw [Nat.add_assoc, ← List.drop_drop, ← hrest, ← length_closeBracket, List.drop_left]
  rw [hdrop, List.append_assoc, hrest, List.take_append_drop]

theorem isLongText (h : ClosesAt level s m) : IsLongText level (s.take m) := by
  intro u v he
  have hs : s = u ++ (closeBracket level ++ (v ++ s.drop (m + level + 2))) := by
    rw [← List.append_assoc, ← List.append_assoc, ← he]
    exact h.split
  have hprefix : closeBracket level <+: s.drop u.length := by
    rw [hs, List.drop_left]
    exact List.prefix_append ..
  -- an earlier bracket is not there, so nothing is left for what follows it
  have hm : m ≤ u.length := Nat.le_of_not_lt fun hlt => h.2 _ hlt hprefix
  have hlen := congrArg List.length he
  simp only [List.length_append, List.length_take] at hlen
  exact List.eq_nil_of_length_eq_zero (by omega)

end ClosesAt

theorem exists_closesAt (level : Nat) (s : Bytes) : (∃ m, ClosesAt level s m) ∨
    ¬closeBracket level <:+: s := by
  classical
  by_cases hex : ∃ m, closeBracket level <+: s.drop m
  · exact .inl ⟨Nat.find hex, Nat.find_spec hex, fun k hk => Nat.find_min hex hk⟩
  · refine .inr fun ⟨u, v, he⟩ => hex ⟨u.length, v, ?_⟩
    rw [← he, List.append_assoc, List.drop_left]

theorem unclosed_tail {b : UInt8} (h : ¬closeBracket level <:+: b :: s) :
    ¬closeBracket level <:+: s :=
  fun hs => h (List.infix_cons hs)

theorem unclosed_afterNewline {b : UInt8} (h : ¬closeBracket level <:+: b :: s) :
    ¬closeBracket level <:+: Scan.afterNewline b s :=
  fun hs => unclosed_tail h (hs.trans (afterNewline_suffix b s).isInfix)

theorem longText_unclosed (h : ¬closeBracket level <:+: s) (line : Nat) (acc : Bytes) :
    Scan.longText level s line acc = .error (line + newlines s) := by
  fun_induction Scan.longText level s line acc with
  | case1 line acc => rfl
  | case2 line acc b s hb ih =>
    rw [ih (unclosed_afterNewline h), newlines_cons_newline _ hb, Nat.add_assoc, Nat.add_comm 1]
  | case3 line acc s after hc =>
    refine absurd ⟨[], after, ?_⟩ h
    rw [eq_append_of_dropPrefix? hc]
    simp [closeBracket]
  | case4 line acc s _ hb ih => rw [ih (unclosed_tail h), newlines_cons_plain _ (by decide)]
  | case5 line acc b s hb hc ih =>
    rw [ih (unclosed_tail h), newlines_cons_plain _ (Bool.eq_false_iff.2 hb)]

theorem longBracket_unclosed (h : ¬closeBracket level <:+: s) (line : Nat) :
    Scan.longBracket level s line = .error (line + newlines s) := by
  unfold Scan.longBracket
  split
  · rename_i b s
    split
    · rename_i hb
      rw [longText_unclosed (unclosed_afterNewline h), newlines_cons_newline _ hb, Nat.add_assoc,
        Nat.add_comm 1]
    · exact longText_unclosed h line []
  · rfl

theorem longBracket_closesAt (h : ClosesAt level s m) (line : Nat) :
    Scan.longBracket level s line
      = .ok (unified (dropNewline (s.take m)),
        ⟨s.drop (m + level + 2), line + newlines (s.take m)⟩) := by
  conv => lhs; rw [h.split]
  exact longBracket_spacing h.isLongText _ _

theorem openBracket_append (level : Nat) (s : Bytes) :
    openBracket level ++ s = byte '[' :: (List.replicate level (byte '=') ++ byte '[' :: s) := by
  simp [openBracket]

theorem longNeed_dropNewline (h : ClosesAt level s m) (keep : Bool) :
    Scan.longNeed keep level (dropNewline s) = Scan.kept keep (dropNewline (s.take m)) +
      (level + 2) := by
  conv =>
    lhs
    rw [h.split, List.append_assoc, dropNewline_append (startsPlain_closeBracket level _)]
  exact Scan.longNeed_closed h.isLongText.dropNewline keep _

theorem unclosed_dropNewline (h : ¬closeBracket level <:+: s) :
    ¬closeBracket level <:+: dropNewline s := by
  cases s with
  | nil => exact h
  | cons b s =>
    cases hb : isNewline b with
    | true => exact dropNewline_cons_newline s hb ▸ unclosed_afterNewline h
    | false => exact (dropNewline_cons_plain s hb).symm ▸ h

theorem comment_openBracket (level : Nat) (s : Bytes) (line : Nat) :
    Scan.comment (openBracket level ++ s) line = (match Scan.longBracket level s line with
      | .ok (_, c) => .ok c
      | .error last => .error (Scan.unfinishedLong false line last)) := by
  rw [openBracket_append]
  unfold Scan.comment
  dsimp only
  rw [if_pos rfl]
  cases hr : Scan.longBracket level s line <;> simp only [openBracket?_self, hr]

namespace Reader

variable {small : Prop}

theorem scan_openBracket (level : Nat) (s : Bytes) (line : Nat)
    (h : small → level + 2 + Scan.longNeed true level (dropNewline s) ≤ maxTokenSize ∧
      Scan.lastLine (Scan.longBracket level s line) < maxLines) :
    Agrees small (scan (openBracket level ++ s) line)
      (faulty (match Scan.longBracket level s line with
      | .ok (text, c) => .ok (.string text (openBracket level ++ text ++ closeBracket level), c)
      | .error last => .error (Scan.unfinishedLong true line last))) := by
  have hstarts : StartsToken (openBracket level ++ s) := ⟨fun b hb => by cases hb; decide, rfl⟩
  have hbracket : Scan.bracket (List.replicate level (byte '=') ++ byte '[' :: s) line =
      (match Scan.longBracket level s line with
      | .ok (text, c) => .ok (.string text (openBracket level ++ text ++ closeBracket level), c)
      | .error last => .error (Scan.unfinishedLong true line last)) := by
    unfold Scan.bracket
    rw [openBracket?_self]
    dsimp only
    cases Scan.longBracket level s line with
    | error last => rfl
    | ok r => simp [openBracket, closeBracket]
  have hread : Agrees small
      (placed (on (byte '[' :: (List.replicate level (byte '=') ++ byte '[' :: s)) line []).bracket)
      _ :=
      bracket_agrees fun hs => by
    unfold Scan.bracketNeed
    rw [openBracket?_self, hbracket]
    refine ⟨(h hs).1, ?_⟩
    have hline := (h hs).2
    cases hl : Scan.longBracket level s line <;> rw [hl] at hline <;> exact hline
  rw [hbracket] at hread
  rw [openBracket_append] at hstarts ⊢
  refine .trans (.of_eq ?_) hread
  show placed (on _ line []).next = _
  rw [next_token hstarts]
  rfl

theorem scan_comment (level : Nat) (s : Bytes) (line : Nat)
    (h : small → level + 2 + Scan.longNeed false level (dropNewline s) ≤ maxTokenSize ∧
      Scan.lastLine (Scan.longBracket level s line) < maxLines) :
    Agrees small (scan (utf8 "--" ++ openBracket level ++ s) line)
      (match Scan.longBracket level s line with
      | .ok (_, c) => scan c.rest c.line
      | .error last => .error (.fault (Scan.unfinishedLong false line last))) := by
  have hread : Agrees small (on (openBracket level ++ s) line []).comment _ :=
    comment_agrees fun hs => by
    rw [comment_openBracket]
    unfold Scan.commentNeed Scan.bracketNeed
    rw [openBracket_append, List.head?_cons, if_pos rfl, List.tail_cons, openBracket?_self]
    refine ⟨(h hs).1, ?_⟩
    have hline := (h hs).2
    cases hl : Scan.longBracket level s line <;> rw [hl] at hline <;> exact hline
  rw [comment_openBracket] at hread
  rw [List.append_assoc]
  have hnext : (on (utf8 "--" ++ (openBracket level ++ s)) line []).next =
      (on (openBracket level ++ s) line []).comment >>= next :=
    next_dashes
  show Agrees small (placed (on (utf8 "--" ++ (openBracket level ++ s)) line []).next) _
  rw [hnext]
  cases hl : Scan.longBracket level s line with
  | ok r =>
    rw [hl] at hread
    exact (Agrees.step hread (.refl _)).placed
  | error last =>
    rw [hl] at hread
    exact (Agrees.stop hread).placed

end Reader

namespace Lexer

/-- A string in long brackets is read to the first closing bracket of its level, and a comment in
long brackets is passed over to there. The line advances by the newlines inside. A bracket that is
not closed is a fault, which tells the line of the opening bracket. The buffer needs room for a
string with its brackets, and for the brackets, signs and newlines of a comment. -/
theorem scan_longBracket (l : Lexer) (hf : l.failure = none) (level : Nat) (s : Bytes) :
    (∀ m, ClosesAt level s m → l.line + newlines (s.take m) < maxLines →
      let text := unified (dropNewline (s.take m))
      let after := { l with input := s.drop (m + level + 2), line := l.line + newlines (s.take m) }
      ((openBracket level ++ text ++ closeBracket level).length ≤ maxTokenSize →
        scan { l with input := openBracket level ++ s }
          = .ok (.string text (openBracket level ++ text ++ closeBracket level))
            { after with noted := l.noted.push text }) ∧
      (level + 2 + Scan.kept false (dropNewline (s.take m)) + (level + 2) ≤ maxTokenSize →
        (∀ t l', scan { l with input := utf8 "--" ++ openBracket level ++ s } = .ok t l' ↔
          scan after = .ok t l') ∧
        ∀ e, (∃ l', scan { l with input := utf8 "--" ++ openBracket level ++ s } = .error e l') ↔
          ∃ l', scan after = .error e l')) ∧
    (¬closeBracket level <:+: s → l.line + newlines s < maxLines →
      let unfinished (what : Bytes) : Failure := .error ⟨.lexical, l.source, l.line + newlines s,
        utf8 "unfinished long " ++ what ++ utf8 " (starting at line " ++ Bytes.ofNat l.line ++
          utf8 ")", utf8 "<eof>"⟩
      ((openBracket level ++ unified (dropNewline s)).length ≤ maxTokenSize →
        ∃ l', scan { l with input := openBracket level ++ s } = .error (unfinished (utf8 "string"))
          l') ∧
      (level + 2 + Scan.kept false (dropNewline s) ≤ maxTokenSize →
        ∃ l', scan { l with input := utf8 "--" ++ openBracket level ++ s } =
          .error (unfinished (utf8 "comment")) l')) ∧
    ((∃ m, ClosesAt level s m) ∨ ¬closeBracket level <:+: s) := by
  have hread (s : Bytes) (line : Nat) := scan_eq (l := { l with input := s, line }) hf
  have hkept (t : Bytes) : Scan.kept true t = (unified t).length := congrFun List.countP_true _
  refine ⟨fun m hm hlines => ?_, fun hu hlines => ?_, exists_closesAt level s⟩
  · have hbracket := longBracket_closesAt hm l.line
    have hneed := longNeed_dropNewline hm
    dsimp only
    refine ⟨fun hroom => ?_, fun hroom => ?_⟩
    · have hscan := (Reader.scan_openBracket level s l.line fun (_ : True) => by
        rw [hneed, hkept, hbracket]
        refine ⟨?_, hlines⟩
        simp only [List.length_append, length_closeBracket, length_openBracket] at hroom
        omega).eq trivial
      rw [hread]
      dsimp only
      rw [Reader.read_eq hscan, hbracket]
      rfl
    · -- both read the same token, and differ in the state that a fault leaves behind
      have hscan := (Reader.scan_comment level s l.line fun (_ : True) => by
        rw [hneed, hbracket]
        exact ⟨by omega, hlines⟩).eq trivial
      rw [hbracket] at hscan
      have hsame := Reader.read_eq (hscan.trans (Reader.scan_eq_read ..))
      rw [hread, hread]
      dsimp only
      rw [hsame]
      cases Reader.read (s.drop (m + level + 2)) (l.line + newlines (s.take m)) with
      | error f => simp
      | ok r => simp
  · have hbracket := longBracket_unclosed hu l.line
    have hneed := Scan.longNeed_unclosed (unclosed_dropNewline hu)
    dsimp only
    rw [hread, hread]
    dsimp only
    refine ⟨fun hroom => ?_, fun hroom => ?_⟩
    · have hscan := (Reader.scan_openBracket level s l.line fun (_ : True) => by
        rw [hneed, hkept, hbracket]
        refine ⟨?_, hlines⟩
        simp only [List.length_append, length_openBracket] at hroom
        omega).eq trivial
      rw [Reader.read_eq hscan, hbracket]
      exact ⟨_, rfl⟩
    · have hscan := (Reader.scan_comment level s l.line fun (_ : True) => by
        rw [hneed, hbracket]
        exact ⟨hroom, hlines⟩).eq trivial
      rw [hbracket] at hscan
      rw [Reader.read_eq (x := .error (Scan.unfinishedLong false l.line (l.line + newlines s)))
        hscan]
      exact ⟨_, rfl⟩

/-- A closing bracket of another level, which shares its last byte with the one that closes. Two
levels up nothing closes. -/
theorem scan_longBracket_overlap :
    let l : Lexer := { input := [], line := 7, numberOf := fun _ => 0, source := [] }
    let s := utf8 "\r\na\r]==]=] b"
    scan { l with input := openBracket 1 ++ s } =
      .ok (.string (utf8 "a\n]==") (utf8 "[=[a\n]==]=]"))
      { l with input := utf8 " b", line := 9, noted := #[utf8 "a\n]=="] } ∧
    ∃ l', scan { l with input := utf8 "--" ++ openBracket 3 ++ s } =
      .error (.error ⟨.lexical, [], 9,
      utf8 "unfinished long comment (starting at line 7)", utf8 "<eof>"⟩) l' := by
  intro l s
  have hmessage : utf8 "unfinished long comment (starting at line 7)"
      = utf8 "unfinished long " ++ utf8 "comment" ++ utf8 " (starting at line " ++ Bytes.ofNat 7 ++
        utf8 ")" := by decide +kernel
  rw [hmessage]
  exact ⟨((scan_longBracket l rfl 1 s).1 7 (by decide) (by decide)).1 (by decide),
    ((scan_longBracket l rfl 3 s).2.1 (by decide) (by decide)).2 (by decide)⟩

end Lexer

end LuaChunk
