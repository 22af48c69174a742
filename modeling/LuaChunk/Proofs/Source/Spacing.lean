import LuaChunk.Proofs.Source.Scan

/-!
What stands between tokens: blanks, newlines and comments. Scanning passes over all of it and counts
its newlines, where two different newline bytes in a row count once.

Newlines pair up by bytes and not by the pieces that were written: a piece `\n` with a piece `\r`
after it is one newline. So the proof goes by the bytes that are left, and a text that loses a
newline byte at its start is still made of pieces.
-/

set_option autoImplicit false

namespace LuaChunk

open Scan (isNewline)

/-- How many newlines a text has. Two different newline bytes in a row are one newline. -/
def newlines : Bytes → Nat
  | [] => 0
  | [b] => if isNewline b then 1 else 0
  | b :: c :: s =>
    if isNewline b && isNewline c && b != c then newlines s + 1
    else (if isNewline b then 1 else 0) + newlines (c :: s)

@[simp] theorem newlines_cons_plain {b : UInt8} (s : Bytes) (hb : isNewline b = false) :
    newlines (b :: s) = newlines s := by
  cases s <;> simp [newlines, hb]

theorem newlines_cons_newline {b : UInt8} (s : Bytes) (hb : isNewline b = true) :
    newlines (b :: s) = newlines (Scan.afterNewline b s) + 1 := by
  cases s with
  | nil => simp [newlines, hb, Scan.afterNewline]
  | cons c s =>
    by_cases hc : (isNewline c && c != b) = true
    · have hne : (b != c) = true := by
        simp only [Bool.and_eq_true, bne_iff_ne] at hc ⊢
        exact fun h => hc.2 h.symm
      simp only [Bool.and_eq_true] at hc
      simp [newlines, Scan.afterNewline, hb, hc.1, hc.2, hne]
    · have hne : (isNewline c && b != c) = false := by
        simp only [Bool.and_eq_true, bne_iff_ne, not_and, Decidable.not_not] at hc
        cases hn : isNewline c with
        | false => rfl
        | true => simp [hc hn]
      simp only [Scan.afterNewline, if_neg hc]
      simp [newlines, hb, hne, Nat.add_comm]

def unified : Bytes → Bytes
  | [] => []
  | [b] => [if isNewline b then 10 else b]
  | b :: c :: s =>
    if isNewline b && isNewline c && b != c then 10 :: unified s
    else (if isNewline b then 10 else b) :: unified (c :: s)

@[simp] theorem unified_cons_plain {b : UInt8} (s : Bytes) (hb : isNewline b = false) :
    unified (b :: s) = b :: unified s := by
  cases s <;> simp [unified, hb]

theorem unified_cons_newline {b : UInt8} (s : Bytes) (hb : isNewline b = true) :
    unified (b :: s) = 10 :: unified (Scan.afterNewline b s) := by
  cases s with
  | nil => simp [unified, hb, Scan.afterNewline]
  | cons c s =>
    simp only [unified, Scan.afterNewline, hb, bne_comm (a := c), Bool.true_and]
    split <;> simp

/-- What is left of a text without the newline that it starts with. -/
def dropNewline : Bytes → Bytes
  | [] => []
  | [b] => if isNewline b then [] else [b]
  | b :: c :: s =>
    if isNewline b && isNewline c && b != c then s else if isNewline b then c :: s else b :: c :: s

theorem dropNewline_cons_plain {b : UInt8} (s : Bytes) (hb : isNewline b = false) :
    dropNewline (b :: s) = b :: s := by
  cases s <;> simp [dropNewline, hb]

theorem dropNewline_cons_newline {b : UInt8} (s : Bytes) (hb : isNewline b = true) :
    dropNewline (b :: s) = Scan.afterNewline b s := by
  cases s with
  | nil => simp [dropNewline, hb, Scan.afterNewline]
  | cons c s => simp [dropNewline, Scan.afterNewline, hb, bne_comm (a := c)]

/-- A text without newline bytes. -/
def Plain (s : Bytes) : Prop := ∀ b ∈ s, isNewline b = false

theorem newlines_append_plain {s : Bytes} (hs : Plain s) (t : Bytes) :
    newlines (s ++ t) = newlines t := by
  induction s with
  | nil => rfl
  | cons b s ih =>
    rw [List.cons_append, newlines_cons_plain _ (hs b (List.mem_cons_self ..))]
    exact ih fun c hc => hs c (List.mem_cons_of_mem _ hc)

def StartsPlain (s : Bytes) : Prop := ∀ b, s.head? = some b → isNewline b = false

theorem afterNewline_append {b : UInt8} {s t : Bytes} (ht : StartsPlain t) :
    Scan.afterNewline b (s ++ t) = Scan.afterNewline b s ++ t := by
  cases s with
  | nil =>
    cases t with
    | nil => rfl
    | cons c t => simp [Scan.afterNewline, ht c rfl]
  | cons c s =>
    simp only [List.cons_append, Scan.afterNewline]
    split <;> rfl

theorem afterNewline_suffix (b : UInt8) (s : Bytes) : Scan.afterNewline b s <:+ s := by
  cases s with
  | nil => exact List.suffix_refl _
  | cons c s =>
    simp only [Scan.afterNewline]
    split
    · exact List.suffix_cons ..
    · exact List.suffix_refl _

theorem dropNewline_append {s t : Bytes} (ht : StartsPlain t) :
    dropNewline (s ++ t) = dropNewline s ++ t := by
  cases s with
  | nil =>
    cases t with
    | nil => rfl
    | cons c t => exact dropNewline_cons_plain t (ht c rfl)
  | cons b s =>
    rw [List.cons_append]
    cases hb : isNewline b with
    | true =>
      rw [dropNewline_cons_newline _ hb, dropNewline_cons_newline _ hb, afterNewline_append ht]
    | false => rw [dropNewline_cons_plain _ hb, dropNewline_cons_plain _ hb, List.cons_append]

theorem newlines_append {s t : Bytes} (ht : StartsPlain t) :
    newlines (s ++ t) = newlines s + newlines t := by
  induction h : s.length using Nat.strongRecOn generalizing s with
  | ind n ih =>
    cases s with
    | nil => simp [newlines]
    | cons b s =>
      cases hb : isNewline b with
      | false =>
        rw [List.cons_append, newlines_cons_plain _ hb, newlines_cons_plain _ hb]
        exact ih s.length (by simp [← h]) rfl
      | true =>
        have hle := Scan.length_afterNewline_le b s
        have hlt : (Scan.afterNewline b s).length < n := by
          simp only [List.length_cons] at h
          omega
        rw [List.cons_append, newlines_cons_newline _ hb, newlines_cons_newline _ hb,
          afterNewline_append ht,
          ih _ hlt rfl]
        omega

inductive Newline where
  | lf | cr | crlf | lfcr
  deriving DecidableEq, Repr

def Newline.text : Newline → Bytes
  | .lf => [10]
  | .cr => [13]
  | .crlf => [13, 10]
  | .lfcr => [10, 13]

def openBracket (level : Nat) : Bytes := byte '[' :: List.replicate level (byte '=') ++ [byte '[']

def closeBracket (level : Nat) : Bytes := byte ']' :: List.replicate level (byte '=') ++ [byte ']']

/-- Whether a text is what a short comment may hold: one line, which does not open a long
bracket. -/
def IsShortComment (s : Bytes) : Prop := Plain s ∧ ∀ level, ¬ openBracket level <+: s

/-- Whether a text is what long brackets of a level may hold: they are not closed before its end. -/
def IsLongText (level : Nat) (s : Bytes) : Prop :=
  ∀ u v, s ++ closeBracket level = u ++ closeBracket level ++ v → v = []

inductive Piece where
  | blank (b : UInt8) (h : Text.isBlank b = true ∧ isNewline b = false)
  | newline (n : Newline)
  | short (text : Bytes) (n : Newline) (h : IsShortComment text)
  | long (level : Nat) (text : Bytes) (h : IsLongText level text)

namespace Piece

def text : Piece → Bytes
  | .blank b _ => [b]
  | .newline n => n.text
  | .short text n _ => utf8 "--" ++ text ++ n.text
  | .long level text _ => utf8 "--" ++ openBracket level ++ text ++ closeBracket level

def isSpace : Piece → Bool
  | .blank .. | .newline _ => true
  | _ => false

end Piece

def spacing (ps : List Piece) : Bytes := ps.flatMap Piece.text

@[simp] theorem spacing_cons (p : Piece) (ps : List Piece) :
    spacing (p :: ps) = p.text ++ spacing ps := rfl

theorem plain_bracket (level : Nat) {c : UInt8} (hc : isNewline c = false) :
    Plain (c :: List.replicate level (byte '=') ++ [c]) := by
  intro b hb
  simp only [List.mem_append, List.mem_cons, List.mem_replicate, List.not_mem_nil, or_false] at hb
  rcases hb with (rfl | ⟨-, rfl⟩) | rfl
  · exact hc
  · rfl
  · exact hc

theorem plain_openBracket (level : Nat) : Plain (openBracket level) :=
  plain_bracket level (by decide)

theorem plain_closeBracket (level : Nat) : Plain (closeBracket level) :=
  plain_bracket level (by decide)

theorem IsLongText.tail {level : Nat} {b : UInt8} {s : Bytes} (h : IsLongText level (b :: s)) :
    IsLongText level s := by
  intro u v he
  exact h (b :: u) v (by simp [he])

theorem IsLongText.afterNewline {level : Nat} {b : UInt8} {s : Bytes} (h : IsLongText level s) :
    IsLongText level (Scan.afterNewline b s) := by
  cases s with
  | nil => exact h
  | cons c s =>
    simp only [Scan.afterNewline]
    split
    · exact h.tail
    · exact h

theorem IsLongText.dropNewline {level : Nat} {s : Bytes} (h : IsLongText level s) :
    IsLongText level (dropNewline s) := by
  cases s with
  | nil => exact h
  | cons b s =>
    cases hb : isNewline b with
    | true => exact dropNewline_cons_newline s hb ▸ h.tail.afterNewline
    | false => exact (dropNewline_cons_plain s hb).symm ▸ h

theorem IsLongText.not_closed {level : Nat} {s rest : Bytes}
    (h : IsLongText level (byte ']' :: s)) :
    Scan.closeBracket? level (s ++ closeBracket level ++ rest) = none := by
  unfold Scan.closeBracket?
  cases hd : Bytes.dropPrefix? (List.replicate level (byte '=') ++ [byte ']'])
    (s ++ closeBracket level ++ rest) with
  | none => rfl
  | some after =>
    exfalso
    have he := eq_append_of_dropPrefix? hd
    -- the bracket that is found ends before the one that was written
    have hpre : closeBracket level <+: byte ']' :: s ++ closeBracket level := by
      have hall : closeBracket level <+: (byte ']' :: s ++ closeBracket level) ++ rest :=
        ⟨after, by simp [closeBracket, ← he]⟩
      refine List.prefix_of_prefix_length_le hall (List.prefix_append ..) ?_
      simp only [List.length_append, List.length_cons]
      omega
    obtain ⟨v, hv⟩ := hpre
    have hnil := h [] v (by simpa using hv.symm)
    have hlen := congrArg List.length hv
    rw [hnil] at hlen
    simp only [List.length_append, List.length_cons, List.length_nil] at hlen
    omega

theorem closeBracket?_self (level : Nat) (rest : Bytes) :
    Scan.closeBracket? level (List.replicate level (byte '=') ++ [byte ']'] ++ rest) =
      some rest := by
  unfold Scan.closeBracket?
  exact dropPrefix?_self_append _ _

theorem startsPlain_closeBracket (level : Nat) (rest : Bytes) :
    StartsPlain (closeBracket level ++ rest) := by
  intro b hb
  cases hb
  decide

theorem longText_spacing {level : Nat} {s : Bytes} (h : IsLongText level s) (rest : Bytes)
    (line : Nat) (acc : Bytes) :
    Scan.longText level (s ++ closeBracket level ++ rest) line acc
      = .ok (acc.reverse ++ unified s, ⟨rest, line + newlines s⟩) := by
  induction hn : s.length using Nat.strongRecOn generalizing s line acc with
  | ind n ih =>
    cases s with
    | nil =>
      have hbracket : [] ++ closeBracket level ++ rest
          = byte ']' :: (List.replicate level (byte '=') ++ [byte ']'] ++ rest) := by
            simp [closeBracket]
      rw [hbracket]
      unfold Scan.longText
      rw [if_neg (by decide), if_pos rfl, closeBracket?_self]
      simp [unified, newlines]
    | cons b s =>
      have hlt : s.length < n := by simp [← hn]
      rw [List.append_assoc, List.cons_append]
      unfold Scan.longText
      cases hb : isNewline b with
      | true =>
        have hle := Scan.length_afterNewline_le b s
        have ht := ih (Scan.afterNewline b s).length (by omega) h.tail.afterNewline (line + 1)
          (10 :: acc) rfl
        rw [if_pos rfl, afterNewline_append (startsPlain_closeBracket level rest),
          ← List.append_assoc, ht,
          newlines_cons_newline _ hb, unified_cons_newline _ hb, Nat.add_assoc, Nat.add_comm 1]
        simp
      | false =>
        have ht := ih s.length hlt h.tail line (b :: acc) rfl
        have happend : acc.reverse ++ unified (b :: s) = (b :: acc).reverse ++ unified s := by
          simp [hb]
        rw [if_neg (by simp), newlines_cons_plain _ hb, happend, ← ht]
        split
        · rename_i hbracket
          rw [hbracket] at h
          rw [← List.append_assoc, h.not_closed]
        · rw [List.append_assoc]

/-- A long bracket is read, and its newlines are counted. The newline that it starts with is no part
of the text. -/
theorem longBracket_spacing {level : Nat} {s : Bytes} (h : IsLongText level s) (rest : Bytes)
    (line : Nat) :
    Scan.longBracket level (s ++ closeBracket level ++ rest) line
      = .ok (unified (dropNewline s), ⟨rest, line + newlines s⟩) := by
  cases s with
  | nil => exact longText_spacing h rest line []
  | cons b s =>
    cases hb : isNewline b with
    | true =>
      have ht := longText_spacing (h.tail.afterNewline (b := b)) rest (line + 1) []
      rw [List.append_assoc, List.cons_append]
      unfold Scan.longBracket
      dsimp only
      rw [if_pos hb, afterNewline_append (startsPlain_closeBracket level rest), ← List.append_assoc,
        ht,
        newlines_cons_newline _ hb, dropNewline_cons_newline _ hb, Nat.add_assoc, Nat.add_comm 1]
      rfl
    | false =>
      have ht := longText_spacing h rest line []
      rw [dropNewline_cons_plain _ hb, ← List.nil_append (unified _), ← List.reverse_nil, ← ht]
      rw [List.append_assoc, List.cons_append]
      unfold Scan.longBracket
      dsimp only
      rw [if_neg (by simp [hb])]

theorem openBracket?_self (level : Nat) (rest : Bytes) :
    Scan.openBracket? (List.replicate level (byte '=') ++ byte '[' :: rest) =
      some (level, rest) := by
  have hne : (byte '[' == byte '=') = false := by decide
  have hall : ∀ b ∈ List.replicate level (byte '='), (b == byte '=') = true := by
    intro b hb
    rw [List.eq_of_mem_replicate hb]
    rfl
  unfold Scan.openBracket?
  rw [List.dropWhile_append_of_pos hall, List.takeWhile_append_of_pos hall]
  simp [hne]

theorem prefix_of_openBracket? {s r : Bytes} {level : Nat}
    (h : Scan.openBracket? s = some (level, r)) :
    byte '[' :: s = openBracket level ++ r := by
  unfold Scan.openBracket? at h
  split at h
  · rename_i b rest hd
    split at h
    · rename_i hb
      cases h
      have ht := List.takeWhile_append_dropWhile (p := (· == byte '=')) (l := s)
      have hrep : s.takeWhile (· == byte '=') = List.replicate (s.takeWhile (· == byte '=')).length
          (byte '=') := by
        refine List.eq_replicate_iff.2 ⟨rfl, fun c hc => ?_⟩
        exact eq_of_beq (List.all_eq_true.1 List.all_takeWhile c hc)
      rw [hd, hb] at ht
      unfold openBracket
      rw [← hrep]
      simp [ht]
    · cases h
  · cases h

theorem IsShortComment.not_open {s : Bytes} (h : IsShortComment s) {b : UInt8}
    (hb : isNewline b = true)
    {level : Nat} (rest : Bytes) : ¬ openBracket level <+: s ++ b :: rest := by
  intro hp
  rcases Nat.lt_or_ge s.length (openBracket level).length with hlt | hge
  · -- the newline would be part of the opening
    have hmem : b ∈ openBracket level := by
      have hs : s ++ [b] <+: s ++ b :: rest := ⟨rest, by simp⟩
      have hpre := List.prefix_of_prefix_length_le hs hp
        (by simp only [List.length_append, List.length_singleton]; omega)
      exact hpre.subset (by simp)
    rw [plain_openBracket level b hmem] at hb
    cases hb
  · exact h.2 level (List.prefix_of_prefix_length_le hp (List.prefix_append ..) hge)

theorem dropWhile_plain {s : Bytes} (hs : Plain s) {b : UInt8} (hb : isNewline b = true)
    (rest : Bytes) :
    (s ++ b :: rest).dropWhile (fun b => !isNewline b) = b :: rest := by
  rw [List.dropWhile_append_of_pos fun c hc => by simp [hs c hc]]
  simp [hb]

theorem comment_short {s : Bytes} (h : IsShortComment s) {b : UInt8} (hb : isNewline b = true)
    (rest : Bytes)
    (line : Nat) : Scan.comment (s ++ b :: rest) line = .ok ⟨b :: rest, line⟩ := by
  have hshort := dropWhile_plain h.1 hb rest
  unfold Scan.comment
  cases hs : s ++ b :: rest with
  | nil => simp at hs
  | cons c body =>
    rw [hs] at hshort
    dsimp only
    rw [hshort]
    split
    · rename_i hc
      cases ho : Scan.openBracket? body with
      | none => rfl
      | some p =>
        exfalso
        have hopen : openBracket p.1 <+: s ++ b :: rest :=
          ⟨p.2, by rw [hs, hc, ← prefix_of_openBracket? ho]⟩
        exact h.not_open hb rest hopen
    · rfl

theorem comment_long {level : Nat} {s : Bytes} (h : IsLongText level s) (rest : Bytes)
    (line : Nat) :
    Scan.comment (openBracket level ++ s ++ closeBracket level ++ rest) line =
      .ok ⟨rest, line + newlines s⟩ := by
  have ho : openBracket level ++ s ++ closeBracket level ++ rest
      = byte '[' :: (List.replicate level (byte '=') ++ byte '[' ::
        (s ++ closeBracket level ++ rest)) := by
    simp [openBracket]
  rw [ho]
  unfold Scan.comment
  dsimp only
  rw [if_pos rfl, openBracket?_self]
  dsimp only
  rw [longBracket_spacing h rest line]

/-- Whether nothing of a text is skipped: it starts with a token, or it is empty. -/
def StartsToken (s : Bytes) : Prop :=
  (∀ b, s.head? = some b → Text.isBlank b = false) ∧ Bytes.dropPrefix? (utf8 "--") s = none

theorem isBlank_of_isNewline {b : UInt8} (h : isNewline b = true) : Text.isBlank b = true := by
  simp only [isNewline, Bool.or_eq_true, beq_iff_eq] at h
  rcases h with rfl | rfl <;> decide

theorem StartsToken.startsPlain {s : Bytes} (h : StartsToken s) : StartsPlain s := by
  intro b hb
  cases hn : isNewline b with
  | false => rfl
  | true => exact absurd (isBlank_of_isNewline hn) (by simp [h.1 b hb])

theorem skip_startsToken {s : Bytes} (h : StartsToken s) (line : Nat) :
    Scan.skip s line = .ok ⟨s, line⟩ := by
  cases s with
  | nil => unfold Scan.skip; rfl
  | cons b s =>
    unfold Scan.skip
    rw [if_neg (by simp [h.startsPlain b rfl]), if_neg (by simp [h.1 b rfl])]
    split
    · rfl
    · rename_i body hp
      rw [h.2] at hp
      cases hp

end LuaChunk
