import LuaChunk.Project.Build
import LuaChunk.Proofs.Source.Lookahead

/-!
A first line that is no part of the chunk. It is dropped up to the first `\n`, while the lexer ends
lines at `\n`, at `\r` and at pairs of the two. If the line ends so that both agree, the tokens
after it and their lines are those of the source with blanks for the line.
-/

set_option autoImplicit false

namespace LuaChunk

open Scan (isNewline)

/-- The ends of a first line after which lines keep their numbers, with all that follows: the end of
the source, a `\n`, or pairs `\r\n` after which there is no `\r`. -/
inductive EndsLine : Bytes → Prop
  | eos : EndsLine []
  | newline (rest : Bytes) : EndsLine (10 :: rest)
  | pair {rest : Bytes} (h : rest.head? ≠ some 13) : EndsLine (13 :: 10 :: rest)
  | pairs {rest : Bytes} (h : EndsLine (13 :: 10 :: rest)) : EndsLine (13 :: 10 :: 13 :: 10 :: rest)

/-- A text with a blank for each of its bytes. -/
def blanks (s : Bytes) : Bytes := s.map fun _ => 32

def shown : Reader.Halt → Option (Bytes × Bytes × Nat)
  | .fault f => some (f.message, f.near, f.place.line)
  | .outOfRange => none

def reading (s : Bytes) (line : Nat) : Except (Option (Bytes × Bytes × Nat))
    (Scan.Lexeme × Reader) :=
  (Reader.on s line []).next.mapError shown

theorem reading_newline {b c : UInt8} {s s' : Bytes} {line : Nat} (hb : isNewline b = true)
    (hc : isNewline c = true)
    (h : reading (Scan.afterNewline b s) (line + 1) = reading (Scan.afterNewline c s') (line + 1)) :
    reading (b :: s) line = reading (c :: s') line := by
  have hstep {b : UInt8} {s : Bytes} (hb : isNewline b = true) :
      (Reader.on (b :: s) line []).next = (Reader.on (b :: s) line []).skipNewline >>=
        Reader.next :=
    (Reader.next_eq _).trans (if_pos hb)
  unfold reading at h ⊢
  rw [hstep hb, hstep hc, Reader.skipNewline_on, Reader.skipNewline_on]
  split
  · rfl
  · exact h

theorem reading_blanks (s rest : Bytes) (line : Nat) :
    reading (blanks s ++ rest) line = reading rest line := by
  induction s with
  | nil => rfl
  | cons b s ih =>
    show reading (32 :: (blanks s ++ rest)) line = _
    unfold reading at ih ⊢
    rw [Reader.next_blank (by decide) (by decide), ih]

/-- What is read in the same way is the same lexeme with the same rest, or a fault that shows the
same. -/
theorem read_cases {s s' : Bytes} {line : Nat} (h : reading s line = reading s' line) :
    (∃ r, Reader.read s line = .ok r ∧ Reader.read s' line = .ok r) ∨
      ∃ f f', Reader.read s line = .error f ∧ Reader.read s' line = .error f' ∧
        f.message = f'.message ∧ f.near = f'.near ∧ f.place.line = f'.place.line := by
  have hread (s : Bytes) : (Reader.read s line).mapError (shown ∘ .fault) =
      (reading s line).map fun p => (p.1, p.2.cursor) := by
    have hscan : (Reader.scan s line).mapError shown = (reading s line).map fun p =>
        (p.1, p.2.cursor) := by
      show (Reader.placed (Reader.on s line []).next).mapError shown = _
      unfold reading
      cases (Reader.on s line []).next <;> rfl
    rw [← hscan, Reader.scan_eq_read]
    cases Reader.read s line <;> rfl
  have hsame := (hread s).trans ((congrArg _ h).trans (hread s').symm)
  cases hs : Reader.read s line <;> cases hs' : Reader.read s' line <;> rw [hs, hs'] at hsame
  case error.error f f' =>
    have hshown := Option.some.inj (Except.error.inj hsame)
    exact .inr ⟨f, f', rfl, rfl, congrArg (·.1) hshown, congrArg (·.2.1) hshown,
      congrArg (·.2.2) hshown⟩
  case ok.ok r r' => exact .inl ⟨r, rfl, congrArg _ (Except.ok.inj hsame).symm⟩
  all_goals cases hsame

theorem afterNewline_of_ne {b : UInt8} {s : Bytes}
    (h : ∀ c, s.head? = some c → isNewline c = true → c = b) :
    Scan.afterNewline b s = s := by
  cases s with
  | nil => rfl
  | cons c s =>
    rw [Scan.afterNewline, if_neg]
    rw [Bool.and_eq_true, bne_iff_ne]
    exact fun hc => hc.2 (h c rfl hc.1)

theorem EndsLine.reading_pair {rest : Bytes} (h : EndsLine (13 :: 10 :: rest)) (line : Nat) :
    reading (10 :: rest) line = reading (13 :: 10 :: rest) line := by
  generalize hs : (13 : UInt8) :: 10 :: rest = s at h
  induction h generalizing rest line with
  | eos | newline => cases hs
  | @pair t hne =>
    cases hs
    have hafter : Scan.afterNewline 10 t = t := by
      refine afterNewline_of_ne fun c hc hn => ?_
      rw [isNewline, Bool.or_eq_true, beq_iff_eq, beq_iff_eq] at hn
      exact hn.resolve_right fun h => hne (h ▸ hc)
    refine reading_newline (by decide) (by decide) ?_
    rw [hafter]
    rfl
  | @pairs rest h ih =>
    cases hs
    exact reading_newline (by decide) (by decide) (ih (line + 1) rfl)

theorem EndsLine.reading_drop {s : Bytes} (h : EndsLine s) (line : Nat) :
    reading (s.dropWhile (· != 10)) line = reading s line := by
  cases h with
  | eos => rfl
  | newline rest => rfl
  | pair h => exact (EndsLine.pair h).reading_pair line
  | pairs h => exact (EndsLine.pairs h).reading_pair line

theorem skipShebang_eq {first : Bytes} (hstart : first.head? = some 35)
    (hfirst : ∀ b ∈ first, isNewline b = false)
    (rest : Bytes) : skipShebang (first ++ rest) = rest.dropWhile (· != 10) := by
  obtain ⟨b, s, rfl⟩ := List.exists_cons_of_ne_nil (l := first) (by rintro rfl; cases hstart)
  cases hstart
  show (35 :: s ++ rest).dropWhile (· != 10) = _
  refine List.dropWhile_append_of_pos fun b hb => ?_
  rw [bne_iff_ne]
  rintro rfl
  cases hfirst 10 hb

namespace Lexer

/-- Inputs in which the same token comes next, with the same rest after it, show the same. -/
theorem sights_congr (l : Lexer) (input input' : Bytes) (ha : l.ahead = none)
    (hf : l.failure = none)
    (hs : reading input l.line = reading input' l.line) (peeks : List Bool) :
    sights peeks { l with input := input } = sights peeks { l with input := input' } := by
  cases peeks with
  | nil => rfl
  | cons peek peeks =>
    have hread (input : Bytes) := scan_eq (l := { l.counted with input }) hf
    have hscan := hread input
    have hscan' := hread input'
    dsimp only at hscan hscan'
    rcases read_cases hs with ⟨r, hr, hr'⟩ | ⟨f, f', hf, hf', hmessage, hnear, hline⟩
    · rw [hr] at hscan
      rw [hr'] at hscan'
      unfold sights
      rw [next_none (l := { l with input }) ha hscan,
        next_none (l := { l with input := input' }) ha hscan']
    · rw [hf] at hscan
      rw [hf'] at hscan'
      dsimp only at hscan
      rw [hmessage, hnear, hline] at hscan
      rw [sights_error (next_none_error (l := { l with input }) ha hscan),
        sights_error (next_none_error (l := { l with input := input' }) ha hscan')]

/-- A first line that starts with `#` is as good as blank if it ends in one of the ways after which
lines keep their numbers: the same tokens come on the same lines, and the same failure if there is
one. -/
theorem sights_skipShebang {first rest : Bytes} (hstart : first.head? = some 35)
    (hfirst : ∀ b ∈ first, isNewline b = false) (hend : EndsLine rest) (chunk : Bytes)
    (table : Interner) (peeks : List Bool) :
    sights peeks (start (skipShebang (first ++ rest)) chunk table none) =
      sights peeks (start (blanks first ++ rest) chunk table none) := by
  have hscan : reading (rest.dropWhile (· != 10)) 1 = reading (blanks first ++ rest) 1 := by
    rw [hend.reading_drop, reading_blanks]
  rw [skipShebang_eq hstart hfirst]
  unfold start
  generalize (table.markAll Keyword.words).reservedIndex = numberOf
  exact sights_congr { input := [], numberOf, source := chunk } _ _ rfl rfl hscan peeks

/-- A first line that ends with a pair, before a blank line that does. -/
theorem sights_skipShebang_pairs : EndsLine (utf8 "\r\n\r\nx = 1") ∧
    sights [false, true, false]
      (start (skipShebang (utf8 "#!lua\r\n\r\nx = 1")) (utf8 "a") .empty none) =
      sights [false, true, false] (start (utf8 "     \r\n\r\nx = 1") (utf8 "a") .empty none) := by
  have hfirst : ∀ b ∈ utf8 "#!lua", isNewline b = false := by decide +kernel
  have hend : EndsLine (utf8 "\r\n\r\nx = 1") := .pairs (.pair (by decide))
  exact ⟨hend, sights_skipShebang rfl hfirst hend (utf8 "a") .empty [false, true, false]⟩

/-- Where lines end with `\r` alone, more than the first line is dropped. -/
theorem sights_skipShebang_differs :
    ¬∀ (first rest chunk : Bytes) (table : Interner) (peeks : List Bool), first.head? = some 35 →
      (∀ b ∈ first, isNewline b = false) → (∀ b, rest.head? = some b → isNewline b = true) →
      sights peeks (start (skipShebang (first ++ rest)) chunk table none) =
        sights peeks (start (blanks first ++ rest) chunk table none) := by
  intro h
  have hdropped (numberOf : Bytes → Nat) :
      (sights [false] { input := skipShebang (utf8 "#\r1"), numberOf, source := [] }).1.map
        (·.line) = [1] := by cbv
  have hblank (numberOf : Bytes → Nat) :
      (sights [false] { input := blanks (utf8 "#") ++ utf8 "\r1", numberOf, source := [] }).1.map
        (·.line) = [2] := by cbv
  have hsame := congrArg (·.1.map (·.line))
    (h (utf8 "#") (utf8 "\r1") [] .empty [false] rfl (by decide +kernel) (by rintro b ⟨⟩; rfl))
  exact absurd ((hdropped _).symm.trans (hsame.trans (hblank _))) (by decide)

end Lexer

end LuaChunk
