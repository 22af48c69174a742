import LuaChunk.Proofs.Source.Stream
import LuaChunk.Proofs.Source.Words

/-!
Printing tokens and reading them back. A `Script` is a list of words with something between them: at
least a blank or a newline. The lexer gives the words back one by one, then the end for ever, and at
each of them it stands on the line where the word ends.
-/

set_option autoImplicit false

namespace LuaChunk

open Scan (isNewline)

/-- The room that a piece takes in the buffer of a reader: what might open a long bracket, or the
brackets, signs and newlines of one. -/
def Piece.room : Piece → Nat
  | .short text _ _ =>
    if text.head? = some (byte '[') then (text.tail.takeWhile (· == byte '=')).length + 1 else 0
  | .long level text _ => level + 2 + Scan.kept false (dropNewline text) + (level + 2)
  | _ => 0

theorem Newline.eq_cons (n : Newline) : ∃ b s, n.text = b :: s ∧ isNewline b = true := by
  cases n <;> exact ⟨_, _, rfl, rfl⟩

theorem spacing_afterNewline (b : UInt8) (ps : List Piece) :
    ∃ ps', Scan.afterNewline b (spacing ps) = spacing ps' ∧ ∀ p ∈ ps', p ∈ ps ∨ p.room = 0 := by
  cases ps with
  | nil => exact ⟨[], rfl, List.forall_mem_nil _⟩
  | cons p ps =>
    have hsame : ∀ p' ∈ p :: ps, p' ∈ p :: ps ∨ p'.room = 0 := fun _ => .inl
    cases p with
    | blank c h =>
      refine ⟨.blank c h :: ps, ?_, hsame⟩
      simp [Piece.text, Scan.afterNewline, h.2]
    | newline n =>
      by_cases hn : ∃ c s, n.text = c :: s ∧ c ≠ b
      · -- the piece loses its first byte
        have hc : ∀ {c : UInt8}, c ≠ b → (c != b) = true := fun h => bne_iff_ne.2 h
        have htail : ∀ p' ∈ ps, p' ∈ .newline n :: ps ∨ p'.room = 0 :=
          fun _ h => .inl (List.mem_cons_of_mem _ h)
        have hnewline (k : Newline) : ∀ p' ∈ .newline k :: ps, p' ∈ .newline n :: ps ∨
            p'.room = 0 := by
          intro p' hp
          rcases List.mem_cons.1 hp with rfl | hp
          · exact .inr rfl
          · exact htail p' hp
        obtain ⟨c, s, ht, hne⟩ := hn
        cases n <;> cases ht
        · exact ⟨ps, by simp [Piece.text, Newline.text, Scan.afterNewline, hne, isNewline], htail⟩
        · exact ⟨ps, by simp [Piece.text, Newline.text, Scan.afterNewline, hne, isNewline], htail⟩
        · exact ⟨.newline .lf
            :: ps, by
            simp [Piece.text, Newline.text, Scan.afterNewline, hne, isNewline], hnewline .lf⟩
        · exact ⟨.newline .cr
            :: ps, by
            simp [Piece.text, Newline.text, Scan.afterNewline, hne, isNewline], hnewline .cr⟩
      · obtain ⟨c, s, ht, -⟩ := n.eq_cons
        have hcb : c = b := Decidable.byContradiction fun h => hn ⟨c, s, ht, h⟩
        refine ⟨.newline n :: ps, ?_, hsame⟩
        simp [Piece.text, ht, Scan.afterNewline, hcb]
    | short text n h => exact ⟨.short text n h :: ps, rfl, hsame⟩
    | long level text h => exact ⟨.long level text h :: ps, rfl, hsame⟩

theorem Newline.spacing_eq (k : Newline) (ps : List Piece) :
    ∃ b qs, k.text ++ spacing ps = b :: spacing qs ∧ isNewline b = true ∧ ∀ p ∈ qs, p ∈ ps ∨
      p.room = 0 := by
  have hnewline (k : Newline) : ∀ p ∈ .newline k :: ps, p ∈ ps ∨ p.room = 0 := by
    intro p hp
    rcases List.mem_cons.1 hp with rfl | hp
    · exact .inr rfl
    · exact .inl hp
  cases k with
  | lf => exact ⟨10, ps, rfl, rfl, fun _ => .inl⟩
  | cr => exact ⟨13, ps, rfl, rfl, fun _ => .inl⟩
  | crlf => exact ⟨13, .newline .lf :: ps, rfl, rfl, hnewline .lf⟩
  | lfcr => exact ⟨10, .newline .cr :: ps, rfl, rfl, hnewline .cr⟩

theorem plain_dashes {s : Bytes} (hs : Plain s) : Plain (utf8 "--" ++ s) := by
  intro b hb
  rcases List.mem_append.1 hb with hb | hb
  · simpa using List.all_eq_true.1 (show (utf8 "--").all (fun b => !isNewline b) = true by decide) b
      hb
  · exact hs b hb

theorem commentNeed_short {s : Bytes} (h : IsShortComment s) {b : UInt8} (hb : isNewline b = true)
    (k : Newline) (rest : Bytes) :
    Scan.commentNeed (s ++ b :: rest) = (Piece.short s k h).room := by
  have hsign : (b == byte '=') = false := by
    cases hc : b == byte '=' with
    | false => rfl
    | true =>
      rw [beq_iff_eq.1 hc] at hb
      cases hb
  have hrun (s : Bytes) : (s ++ b :: rest).takeWhile (· == byte '=') =
      s.takeWhile (· == byte '=') := by
    induction s with
    | nil =>
      rw [List.nil_append, List.takeWhile_cons, hsign, if_neg Bool.false_ne_true,
        List.takeWhile_nil]
    | cons c s ih => rw [List.cons_append, List.takeWhile_cons, List.takeWhile_cons, ih]
  cases s with
  | nil =>
    refine if_neg fun hhead => ?_
    rw [Option.some.inj hhead] at hb
    cases hb
  | cons c s =>
    show (if some c = some (byte '[') then Scan.bracketNeed false (s ++ b :: rest) else 0) =
      if some c = some (byte '[') then (s.takeWhile (· == byte '=')).length + 1 else 0
    split
    · rename_i hc
      have hclosed : Scan.openBracket? (s ++ b :: rest) = none := by
        cases ho : Scan.openBracket? (s ++ b :: rest) with
        | none => rfl
        | some p =>
          refine absurd (⟨p.2, ?_⟩ : openBracket p.1 <+: c :: s ++ b :: rest) (h.not_open hb rest)
          rw [List.cons_append, Option.some.inj hc, ← prefix_of_openBracket? ho]
      unfold Scan.bracketNeed
      rw [hclosed, hrun]
    · rfl

theorem commentNeed_long {level : Nat} {s : Bytes} (h : IsLongText level s) (rest : Bytes) :
    Scan.commentNeed (openBracket level ++ s ++ closeBracket level ++ rest) =
      (Piece.long level s h).room := by
  have hopen : openBracket level ++ s ++ closeBracket level ++ rest
      = byte '[' :: (List.replicate level (byte '=') ++ byte '[' ::
        (s ++ (closeBracket level ++ rest))) := by
    simp [openBracket]
  unfold Scan.commentNeed Scan.bracketNeed
  rw [hopen, List.head?_cons, if_pos rfl, List.tail_cons, openBracket?_self]
  dsimp only
  rw [dropNewline_append (startsPlain_closeBracket level rest), Scan.longNeed_closed h.dropNewline]
  exact (Nat.add_assoc ..).symm

namespace Reader

variable {small : Prop}

theorem next_comment {body rest : Bytes} {line line' : Nat}
    (hc : Scan.comment body line = .ok ⟨rest, line'⟩)
    (h : small → Scan.commentNeed body ≤ maxTokenSize ∧ line' < maxLines) :
    Agrees small (on (utf8 "--" ++ body) line []).next (on rest line' []).next := by
  have hcomment : Agrees small (on body line []).comment _ := comment_agrees fun hs => by
    rw [hc]
    exact h hs
  rw [hc] at hcomment
  have hnext : (on (utf8 "--" ++ body) line []).next = (on body line []).comment >>= next :=
    next_dashes
  rw [hnext]
  exact Agrees.step hcomment (.refl _)

theorem next_spacing {rest : Bytes} (hr : StartsPlain rest) (ps : List Piece) (line : Nat)
    (h : small → (∀ p ∈ ps, p.room ≤ maxTokenSize) ∧ line + newlines (spacing ps) < maxLines) :
    Agrees small (on (spacing ps ++ rest) line []).next
      (on rest (line + newlines (spacing ps)) []).next := by
  induction hn : (spacing ps).length using Nat.strongRecOn generalizing ps line with
  | ind n ih =>
    have hnewline : ∀ (k : Newline) (qs : List Piece) (line : Nat),
        (k.text ++ spacing qs).length ≤ n →
        (small → (∀ p ∈ qs, p.room ≤ maxTokenSize) ∧
          line + newlines (k.text ++ spacing qs) < maxLines) →
        Agrees small (on (k.text ++ spacing qs ++ rest) line []).next
          (on rest (line + newlines (k.text ++ spacing qs)) []).next := by
      intro k qs line hle h
      obtain ⟨b, qs₁, hq, hb, hmem₁⟩ := k.spacing_eq qs
      obtain ⟨qs₂, ha, hmem₂⟩ := spacing_afterNewline b qs₁
      have hshort := Scan.length_afterNewline_le b (spacing qs₁)
      rw [hq] at hle h ⊢
      rw [ha] at hshort
      rw [List.length_cons] at hle
      rw [newlines_cons_newline _ hb, ha] at h ⊢
      have hroom : small → ∀ p ∈ qs₂, p.room ≤ maxTokenSize := by
        intro hs p hp
        rcases hmem₂ p hp with hp | hp
        · rcases hmem₁ p hp with hp | hp
          · exact (h hs).1 p hp
          · exact hp ▸ Nat.zero_le _
        · exact hp ▸ Nat.zero_le _
      have hih := ih (spacing qs₂).length (by omega) qs₂ (line + 1)
        (fun hs => ⟨hroom hs, by have := (h hs).2; omega⟩) rfl
      rw [Nat.add_assoc, Nat.add_comm 1] at hih
      rw [List.cons_append]
      refine (next_newline hb fun hs => ?_).trans ?_
      · have := (h hs).2
        omega
      · rwa [afterNewline_append hr, ha]
    cases ps with
    | nil => exact .refl _
    | cons p ps =>
      have hps : small → ∀ p ∈ ps, p.room ≤ maxTokenSize :=
        fun hs p hp => (h hs).1 p (List.mem_cons_of_mem _ hp)
      cases p with
      | blank b hblank =>
        have hcount : newlines (spacing (.blank b hblank :: ps)) = newlines (spacing ps) :=
          newlines_cons_plain _ hblank.2
        rw [hcount] at h ⊢
        have hih := ih (spacing ps).length (by simp [Piece.text] at hn; omega) ps line
          (fun hs => ⟨hps hs, (h hs).2⟩) rfl
        show Agrees small (on (b :: (spacing ps ++ rest)) line []).next _
        rw [next_blank (by simp [hblank.2]) hblank.1]
        exact hih
      | newline k => exact hnewline k ps line (Nat.le_of_eq hn) fun hs => ⟨hps hs, (h hs).2⟩
      | short text k hshort =>
        obtain ⟨b, s, hk, hb⟩ := k.eq_cons
        have hle : (k.text ++ spacing ps).length ≤ n := by
          simp only [spacing_cons, Piece.text, List.length_append] at hn ⊢
          omega
        have hcount : newlines (spacing (.short text k hshort :: ps)) =
            newlines (k.text ++ spacing ps) := by
          rw [spacing_cons, Piece.text, List.append_assoc (_ ++ _),
            newlines_append_plain (plain_dashes hshort.1)]
        have htext : spacing (.short text k hshort :: ps) ++ rest = utf8 "--" ++
            (text ++ b :: (s ++ spacing ps ++ rest)) := by
          simp [Piece.text, hk]
        have hafter : b :: (s ++ spacing ps ++ rest) = k.text ++ spacing ps ++ rest := by simp [hk]
        rw [hcount] at h ⊢
        have hcomment := next_comment (comment_short hshort hb (s ++ spacing ps ++ rest) line)
          fun (hs : small) => by
          rw [commentNeed_short hshort hb k]
          exact ⟨(h hs).1 _ List.mem_cons_self, by have := (h hs).2; omega⟩
        rw [hafter] at hcomment
        rw [htext, hafter]
        exact hcomment.trans (hnewline k ps line hle fun hs => ⟨hps hs, (h hs).2⟩)
      | long level text hlong =>
        have hlt : (spacing ps).length < n := by
          simp only [spacing_cons, Piece.text, openBracket, List.length_append, List.length_cons]
            at hn
          omega
        have hcount : newlines (spacing (.long level text hlong :: ps)) = newlines text +
            newlines (spacing ps) := by
          rw [spacing_cons, Piece.text, List.append_assoc, List.append_assoc,
            newlines_append_plain (plain_dashes (plain_openBracket level)),
            newlines_append (startsPlain_closeBracket level _),
              newlines_append_plain (plain_closeBracket level)]
        have htext : spacing (.long level text hlong :: ps) ++ rest
            = utf8 "--" ++ (openBracket level ++ text ++ closeBracket level ++
              (spacing ps ++ rest)) := by simp [Piece.text]
        rw [hcount] at h ⊢
        have hcomment := next_comment (comment_long hlong (spacing ps ++ rest) line)
          fun (hs : small) => by
          rw [commentNeed_long hlong]
          exact ⟨(h hs).1 _ List.mem_cons_self, by have := (h hs).2; omega⟩
        have hih := ih _ hlt ps (line + newlines text)
          (fun hs => ⟨hps hs, by rw [Nat.add_assoc]; exact (h hs).2⟩) rfl
        rw [Nat.add_assoc] at hih
        rw [htext]
        exact hcomment.trans hih

theorem scan_word (ps : List Piece) (w : Word) {rest : Bytes} (hr : Clear rest) (line : Nat)
    (h : small → ((∀ p ∈ ps, p.room ≤ maxTokenSize) ∧ w.room ≤ maxTokenSize) ∧
    line + newlines (spacing ps) < maxLines) :
    Agrees small (scan (spacing ps ++ (w.text ++ rest)) line)
      (.ok (w.lexeme, ⟨rest, line + newlines (spacing ps)⟩)) := by
  have hspacing := next_spacing (w.startsToken hr).startsPlain ps line fun (hs : small) =>
    ⟨(h hs).1.1, (h hs).2⟩
  have hword := w.next_text hr (line + newlines (spacing ps)) fun (hs : small) =>
    ⟨(h hs).1.2, (h hs).2⟩
  exact hspacing.placed.trans hword

theorem scan_end (ps : List Piece) (line : Nat)
    (h : small → (∀ p ∈ ps, p.room ≤ maxTokenSize) ∧ line + newlines (spacing ps) < maxLines) :
    Agrees small (scan (spacing ps) line) (.ok (.eos, ⟨[], line + newlines (spacing ps)⟩)) := by
  have hnil : StartsPlain [] := by
    rintro _ ⟨⟩
  have hspacing := next_spacing hnil ps line h
  rw [List.append_nil] at hspacing
  refine hspacing.placed.trans (.of_eq ?_)
  rw [next_eq]
  rfl

end Reader

/-- What stands between two words: a blank or a newline, and more. -/
structure Gap where
  first : Piece
  rest : List Piece
  space : first.isSpace = true

def Gap.pieces (g : Gap) : List Piece := g.first :: g.rest

/-- Words with gaps between them. The last word needs no gap after it. -/
structure Script where
  lead : List Piece
  body : List (Word × Gap)
  last : Option Word

namespace Script

def textOf : List (Word × Gap) → Option Word → Bytes
  | [], none => []
  | [], some w => w.text
  | (w, g) :: body, last => w.text ++ (spacing g.pieces ++ textOf body last)

/-- The text up to the end of a word, or all of it if there are not as many words. -/
def through : List (Word × Gap) → Option Word → Nat → Bytes
  | [], none, _ => []
  | [], some w, _ => w.text
  | (w, _) :: _, _, 0 => w.text
  | (w, g) :: body, last, k + 1 => w.text ++ (spacing g.pieces ++ through body last k)

def tokensOf (body : List (Word × Gap)) (last : Option Word) : List Token :=
  body.map (·.1.token) ++ last.toList.map Word.token

end Script

namespace Lexer

/-- Moves on by a number of tokens. -/
def advance : Nat → M Unit
  | 0 => pure ()
  | k + 1 => do
    next
    advance k

/-- A lexer that has not looked ahead, with a text before it. -/
structure Stands (l : Lexer) (input : Bytes) : Prop where
  input : l.input = input
  ahead : l.ahead = none
  failure : l.failure = none
  numberOf : l.numberOf = Keyword.number

variable {l : Lexer} {input : Bytes} {x : Scan.Lexeme} {c : Scan.Cursor}

theorem scan_lexeme (h : l.Stands input) (hs : Reader.scan input l.line = .ok (x, c)) :
    ∃ l', scan l = .ok (tokenOf Keyword.number x) l' ∧ l'.Stands c.rest ∧ l'.line = c.line := by
  rw [scan_eq h.failure, h.input, Reader.read_eq_ok.2 hs, ← h.numberOf]
  exact ⟨_, rfl, ⟨rfl, h.ahead, h.failure, h.numberOf⟩, rfl⟩

theorem next_lexeme (h : l.Stands input) (hs : Reader.scan input l.line = .ok (x, c)) :
    ∃ l', next l = .ok () l' ∧ l'.Stands c.rest ∧ l'.line = c.line ∧
      l'.token = tokenOf Keyword.number x := by
  have hstands : Stands l.counted input :=
    ⟨h.input, h.ahead, h.failure, h.numberOf⟩
  obtain ⟨l', hl, h', hline⟩ := scan_lexeme hstands hs
  refine ⟨{ l' with token := tokenOf Keyword.number x }, ?_, ⟨h'.1, h'.2, h'.3, h'.4⟩, hline, rfl⟩
  rw [next_step, h.ahead]
  exact bind_eq hl

theorem advance_succ {l' : Lexer} (k : Nat) (h : next l = .ok () l') :
    advance (k + 1) l = advance k l' := bind_eq h

theorem next_end (ps : List Piece) (h : l.Stands (spacing ps))
    (hfits : (∀ p ∈ ps, p.room ≤ maxTokenSize) ∧ l.line + newlines (spacing ps) < maxLines) :
    ∃ l', next l = .ok () l' ∧ l'.Stands [] ∧ l'.line = l.line + newlines (spacing ps) ∧
      l'.token = .eos :=
  next_lexeme h ((Reader.scan_end ps l.line fun (_ : True) => hfits).eq trivial)

theorem advance_end (ps : List Piece) (k : Nat) (h : l.Stands (spacing ps))
    (hfits : (∀ p ∈ ps, p.room ≤ maxTokenSize) ∧ l.line + newlines (spacing ps) < maxLines) :
    ∃ l', advance (k + 1) l = .ok () l' ∧ l'.token = .eos ∧
      l'.line = l.line + newlines (spacing ps) := by
  induction k generalizing l ps with
  | zero =>
    obtain ⟨l', hn, -, hline, htoken⟩ := next_end ps h hfits
    exact ⟨l', advance_succ 0 hn, htoken, hline⟩
  | succ k ih =>
    obtain ⟨l', hn, h', hline, -⟩ := next_end ps h hfits
    obtain ⟨l'', hk, htoken, hline'⟩ := ih [] h' ⟨List.forall_mem_nil _, hline ▸ hfits.2⟩
    exact ⟨l'', (advance_succ _ hn).trans hk, htoken, hline'.trans hline⟩

theorem next_word (ps : List Piece) (w : Word) {rest : Bytes} (hr : Clear rest)
    (h : l.Stands (spacing ps ++ (w.text ++ rest)))
    (hfits : ((∀ p ∈ ps, p.room ≤ maxTokenSize) ∧ w.room ≤ maxTokenSize) ∧
    l.line + newlines (spacing ps) < maxLines) :
    ∃ l', next l = .ok () l' ∧ l'.Stands rest ∧ l'.line = l.line + newlines (spacing ps) ∧
      l'.token = w.token := by
  have hscan := (Reader.scan_word ps w hr l.line fun (_ : True) => hfits).eq trivial
  obtain ⟨l', hn, h', hline, htoken⟩ := next_lexeme h hscan
  exact ⟨l', hn, h', hline, htoken.trans w.tokenOf_lexeme⟩

end Lexer

namespace Gap

theorem clear (g : Gap) (rest : Bytes) : Clear (spacing g.pieces ++ rest) := by
  obtain ⟨first, ps, hspace⟩ := g
  intro b hb
  cases first with
  | blank c h =>
    cases hb
    exact h.1
  | newline n => cases n <;> cases hb <;> rfl
  | short => cases hspace
  | long => cases hspace

end Gap

namespace Script

theorem newlines_word (w : Word) (s : Bytes) : newlines (w.text ++ s) = newlines s :=
  newlines_append_plain w.plain_text s

theorem startsPlain_word (w : Word) (s : Bytes) : StartsPlain (w.text ++ s) := by
  obtain ⟨b, t, ht, -⟩ := w.text_eq_cons
  intro c hc
  rw [ht] at hc
  cases hc
  exact w.plain_text b (by simp [ht])

theorem newlines_spacing_word (ps : List Piece) (w : Word) (s : Bytes) :
    newlines (spacing ps ++ (w.text ++ s)) = newlines (spacing ps) + newlines s := by
  rw [newlines_append (startsPlain_word w s), newlines_word]

/-- Whether a reader has room for words and what is between them. -/
def Roomy (body : List (Word × Gap)) (last : Option Word) : Prop :=
  (∀ p ∈ body, p.1.room ≤ maxTokenSize ∧ ∀ q ∈ p.2.pieces, q.room ≤ maxTokenSize) ∧
    ∀ w, last = some w → w.room ≤ maxTokenSize

/-- The tokens of words after some white space come one by one, each on the line on which it
ends. -/
theorem advance_body (body : List (Word × Gap)) (last : Option Word) (ps : List Piece) (k : Nat)
    {l : Lexer}
    (h : l.Stands (spacing ps ++ textOf body last)) (hps : ∀ p ∈ ps, p.room ≤ maxTokenSize)
    (hroom : Roomy body last)
    (hlines : l.line + newlines (spacing ps ++ textOf body last) < maxLines) :
    ∃ l', Lexer.advance (k + 1) l = .ok () l' ∧ l'.token = (tokensOf body last).getD k .eos ∧
      l'.line = l.line + newlines (spacing ps ++ through body last k) := by
  induction body generalizing ps k l with
  | nil =>
    cases last with
    | none =>
      have hend : l.Stands (spacing ps) := by simpa [textOf] using h
      have hline : l.line + newlines (spacing ps) < maxLines := by simpa [textOf] using hlines
      simpa [through, tokensOf] using Lexer.advance_end ps k hend ⟨hps, hline⟩
    | some w =>
      have hclear : Clear [] := by
        rintro _ ⟨⟩
      have hcount := newlines_spacing_word ps w []
      rw [List.append_nil] at hcount
      have hfits : l.line + newlines (spacing ps) < maxLines := by
        have hline : l.line + newlines (spacing ps ++ w.text) < maxLines := hlines
        rw [hcount] at hline
        exact hline
      obtain ⟨l', hn, h', hline, htoken⟩ :=
        Lexer.next_word ps w hclear (by simpa [textOf] using h) ⟨⟨hps, hroom.2 w rfl⟩, hfits⟩
      have hlines : newlines (spacing ps ++ through [] (some w) k) = newlines (spacing ps) := hcount
      rw [hlines]
      cases k with
      | zero => exact ⟨l', Lexer.advance_succ 0 hn, htoken, hline⟩
      | succ k =>
        obtain ⟨l'', hk, htoken', hline'⟩ :=
          Lexer.advance_end [] k h' ⟨List.forall_mem_nil _, hline ▸ hfits⟩
        exact ⟨l'', (Lexer.advance_succ _ hn).trans
          hk, by simpa [tokensOf] using htoken', hline'.trans hline⟩
  | cons p body ih =>
    obtain ⟨w, g⟩ := p
    have hword := hroom.1 (w, g) List.mem_cons_self
    have hcount := newlines_spacing_word ps w (spacing g.pieces ++ textOf body last)
    have hfits : l.line + (newlines (spacing ps) +
        newlines (spacing g.pieces ++ textOf body last)) < maxLines := hcount ▸ hlines
    obtain ⟨l', hn, h', hline, htoken⟩ :=
      Lexer.next_word ps w (g.clear (textOf body last)) h ⟨⟨hps, hword.1⟩, by omega⟩
    cases k with
    | zero =>
      have hw := newlines_spacing_word ps w []
      have hlines : newlines (spacing ps ++ through ((w, g) :: body) last 0) =
          newlines (spacing ps) := by
        simpa [through, newlines] using hw
      rw [hlines]
      exact ⟨l', Lexer.advance_succ 0 hn, htoken, hline⟩
    | succ k =>
      have hrest : Roomy body last := ⟨fun p hp => hroom.1 p (List.mem_cons_of_mem _ hp), hroom.2⟩
      obtain ⟨l'', hk, htoken', hline'⟩ := ih g.pieces k h' hword.2 hrest (by rw [hline]; omega)
      have hlines := newlines_spacing_word ps w (spacing g.pieces ++ through body last k)
      refine ⟨l'', (Lexer.advance_succ _ hn).trans hk, htoken', ?_⟩
      rw [hline', hline, through, hlines, Nat.add_assoc]

/-- The text of a script. -/
def text (s : Script) : Bytes := spacing s.lead ++ textOf s.body s.last

/-- The text of a script up to the end of a token, the first of them being number zero. -/
def upTo (s : Script) (k : Nat) : Bytes := spacing s.lead ++ through s.body s.last k

/-- The tokens of a script. -/
def tokens (s : Script) : List Token := tokensOf s.body s.last

/-- Whether a reader has room for each token and each comment, and does not run out of lines. -/
structure Fits (s : Script) : Prop where
  lead : ∀ p ∈ s.lead, p.room ≤ maxTokenSize
  body : Roomy s.body s.last
  lines : 1 + newlines s.text < maxLines

end Script

/-- Printed tokens are read back, and after them the end for ever, each on the line where it
ends. -/
theorem advance_script (s : Script) (hs : s.Fits) (source : Bytes) (k : Nat) :
    ∃ l, Lexer.advance (k + 1) (Lexer.start s.text source .empty none) = .ok () l ∧
      l.token = s.tokens.getD k .eos ∧ l.line = 1 + newlines (s.upTo k) := by
  have hstart : (Lexer.start s.text source .empty none).Stands s.text :=
    ⟨rfl, rfl, rfl, Interner.reservedIndex_markAll⟩
  exact Script.advance_body s.body s.last s.lead k hstart hs.lead hs.body hs.lines

/-- A comment that ends with a pair of newline bytes, a word, another newline and a string. -/
theorem advance_script_comment :
    let s (h : IsShortComment (utf8 "a")) : Script :=
      ⟨[.short (utf8 "a") .crlf h], [(.keyword .return_, ⟨.newline .cr, [], rfl⟩)],
        some (.string .single [10])⟩
    ∃ h l, (s h).text = utf8 "--a\r\nreturn\r'\\010'" ∧
      Lexer.advance 2 (Lexer.start (s h).text [] .empty none) = .ok () l ∧
      l.token = .string [10] (utf8 "'\n'") ∧ l.line = 3 := by
  intro s
  have h : IsShortComment (utf8 "a") := by
    refine ⟨List.forall_mem_singleton.2 rfl, ?_⟩
    rintro level ⟨t, ht⟩
    cases ht
  have hbody : Script.Roomy (s h).body (s h).last := by
    refine ⟨fun p hp => ?_, fun w hw => ?_⟩
    · cases List.mem_singleton.1 hp
      exact ⟨by decide, List.forall_mem_singleton.2 (by decide)⟩
    · cases hw
      decide
  have hlead : ∀ p ∈ (s h).lead, p.room ≤ maxTokenSize :=
    List.forall_mem_singleton.2 (Nat.zero_le _)
  have htext : (s h).text = utf8 "--a\r\nreturn\r'\\010'" := rfl
  have hlines : 1 + newlines (s h).text < maxLines := by
    rw [htext]
    decide
  obtain ⟨l, hl, htoken, hline⟩ := advance_script (s h) ⟨hlead, hbody, hlines⟩ [] 1
  exact ⟨h, l, htext, hl, htoken, hline.trans rfl⟩

end LuaChunk
