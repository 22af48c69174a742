import LuaChunk.Proofs.Source.Spacing

set_option autoImplicit false

namespace LuaChunk

open Scan (Fault Lexeme Cursor isNewline isLetter isNameByte)
open Numeral (isDigit isHexDigit)

namespace Reader

variable {α β : Type} {small : Prop} {x y z : Except Halt α} {b : UInt8} {s t : Bytes}
  {line n : Nat}

/-- The token is too long, or there are too many lines. -/
inductive Limit : Halt → Prop
  | long (c : Cursor) : Limit (.fault ⟨utf8 "lexical element too long", [], c⟩)
  | lines (c : Cursor) : Limit (.fault ⟨utf8 "chunk has too many lines", [], c⟩)

/-- One action does what another does, or meets a limit, which it does not if something is
`small`. -/
def Agrees (small : Prop) (x y : Except Halt α) : Prop := x = y ∨ ¬ small ∧ ∃ h, x = .error h ∧
  Limit h

namespace Agrees

theorem refl (x : Except Halt α) : Agrees small x x := .inl rfl

theorem of_eq (h : x = y) : Agrees small x y := .inl h

theorem eq (h : Agrees small x y) (hs : small) : x = y := h.resolve_right fun h => h.1 hs

theorem trans (h : Agrees small x y) (h' : Agrees small y z) : Agrees small x z := by
  rcases h with rfl | h
  · exact h'
  · exact .inr h

theorem bind {f g : α → Except Halt β} (h : Agrees small x y)
    (hf : ∀ a, y = .ok a → Agrees small (f a) (g a)) :
    Agrees small (x >>= f) (y >>= g) := by
  rcases h with rfl | ⟨hs, e, rfl, he⟩
  · cases x with
    | error e => exact .inl rfl
    | ok a => exact hf a rfl
  · exact .inr ⟨hs, e, rfl, he⟩

theorem step {a : α} {f : α → Except Halt β} {z : Except Halt β} (h : Agrees small x (.ok a))
    (hf : Agrees small (f a) z) :
    Agrees small (x >>= f) z :=
  Agrees.bind (g := fun _ => z) h fun a' ha => by
    cases ha
    exact hf

theorem stop {f : α → Except Halt β} {e : Halt} (h : Agrees small x (.error e)) :
    Agrees small (x >>= f) (.error e) := by
  rcases h with rfl | ⟨hs, e', rfl, he⟩
  · exact .inl rfl
  · exact .inr ⟨hs, e', rfl, he⟩

theorem error (h : ¬ small) {e : Halt} (he : Limit e) : Agrees small (.error e) x :=
  .inr ⟨h, e, rfl, he⟩

theorem mono {small' : Prop} (h : Agrees small x y) (hs : small' → small) : Agrees small' x y :=
  h.imp_right fun h => ⟨fun hs' => h.1 (hs hs'), h.2⟩

end Agrees

def on (s : Bytes) (line : Nat) (t : Bytes) : Reader := ⟨s, line, t.toArray⟩

@[simp] theorem text_on : (on s line t).text = t := rfl

@[simp] theorem current?_on : (on s line t).current? = s.head? := rfl

@[simp] theorem advance_on : (on (b :: s) line t).advance = on s line t := rfl

theorem save_agrees (h : small → t.length < maxTokenSize) : Agrees small ((on s line t).save b)
    (.ok (on s line (t ++ [b]))) := by
  have hbuffer : (on s line t).buffer.push b = (t ++ [b]).toArray := List.push_toArray t b
  unfold save
  split
  · rename_i hsize
    exact .error (fun hs => absurd (h hs) (Nat.not_lt.2 hsize)) (.long _)
  · rw [hbuffer]
    exact .refl _

theorem saveAndAdvance_agrees (h : small → t.length < maxTokenSize) :
    Agrees small (on (b :: s) line t).saveAndAdvance (.ok (on s line (t ++ [b]))) :=
  (save_agrees h).step (.refl _)

theorem unsave_on {u : Bytes} (h : u.length = n) :
    (on s line (t ++ u)).unsave n = .ok (on s line t) := by
  have hsize : (on s line (t ++ u)).buffer.size = t.length + n := by simp [on, h]
  unfold unsave
  rw [if_pos (by omega), hsize, Nat.add_sub_cancel]
  have hshrink : (on s line (t ++ u)).buffer.shrink t.length = t.toArray := by
    apply Array.ext'
    simp [on]
  rw [hshrink]
  rfl

theorem inside_on {u v : Bytes} (hu : u.length = n) (hv : v.length = n) :
    (on s line (u ++ t ++ v)).inside n = .ok t := by
  have hsize : (on s line (u ++ t ++ v)).buffer.size = n + t.length + n := by
    simp [on, hu, hv, Nat.add_assoc]
  have htext : ((on s line (u ++ t ++ v)).buffer.extract n (n + t.length)).toList = t := by
    simp [on, ← hu]
  unfold inside
  rw [if_pos (by omega), hsize, Nat.add_sub_cancel, htext]

theorem takeOf_true {set : List UInt8} (hb : set.contains b = true)
    (h : small → t.length < maxTokenSize) :
    Agrees small ((on (b :: s) line t).takeOf set) (.ok (true, on s line (t ++ [b]))) :=
  .trans (.of_eq (if_pos hb)) ((saveAndAdvance_agrees h).step (.refl _))

theorem takeOf_false {set : List UInt8} (h : s.head?.any set.contains = false) :
    (on s line t).takeOf set = .ok (false, on s line t) := by
  refine if_neg ?_
  rw [current?_on, h]
  exact Bool.false_ne_true

theorem skipNewline_on : (on (b :: s) line t).skipNewline =
    if maxLines ≤ line + 1 then (on (Scan.afterNewline b s) (line + 1) t).fail
      (utf8 "chunk has too many lines") []
    else .ok (on (Scan.afterNewline b s) (line + 1) t) := by
  have hafter : (if (on s line t).current?.any fun c =>
      isNewline c && some c != some b then (on s line t).advance else on s line t)
      = on (Scan.afterNewline b s) line t := by
    cases s with
    | nil => rfl
    | cons c s =>
      by_cases hc : (isNewline c && c != b) = true
      · exact (if_pos hc).trans (congrArg (on · line t) (if_pos hc).symm)
      · exact (if_neg hc).trans (congrArg (on · line t) (if_neg hc).symm)
  unfold skipNewline
  dsimp only
  rw [advance_on, show (on (b :: s) line t).current? = some b from rfl, hafter]
  rfl

theorem skipNewline_agrees (h : small → line + 1 < maxLines) :
    Agrees small (on (b :: s) line t).skipNewline
      (.ok (on (Scan.afterNewline b s) (line + 1) t)) := by
  rw [skipNewline_on]
  split
  · rename_i hlines
    exact .error (fun hs => absurd (h hs) (Nat.not_lt.2 hlines)) (.lines _)
  · exact .refl _

theorem saveWhile_eq (p : UInt8 → Bool) (count : Nat) (r : Reader) : saveWhile p count r =
    r.current?.elim (.ok (count, r)) fun b =>
      if p b then r.saveAndAdvance >>= saveWhile p (count + 1) else .ok (count, r) := by
  rw [saveWhile.eq_def]
  unfold current?
  split <;> rename_i hr <;> rw [hr]
  · rfl
  rw [List.head?_cons, Option.elim_some]
  split
  · split <;> rename_i h <;> rw [h] <;> rfl
  · rfl

theorem saveWhile_agrees {p : UInt8 → Bool} {count : Nat}
    (h : small → t.length + (s.takeWhile p).length ≤ maxTokenSize) :
    Agrees small (saveWhile p count (on s line t))
      (.ok (count + (s.takeWhile p).length, on (s.dropWhile p) line (t ++ s.takeWhile p))) := by
  induction s generalizing t count with
  | nil =>
    rw [saveWhile_eq, List.takeWhile_nil, List.dropWhile_nil, List.append_nil]
    exact .refl _
  | cons b s ih =>
    rw [saveWhile_eq]
    by_cases hb : p b = true
    · rw [List.takeWhile_cons_of_pos hb, List.length_cons] at h
      rw [List.takeWhile_cons_of_pos hb, List.dropWhile_cons_of_pos hb]
      refine .trans (.of_eq (if_pos hb))
        ((saveAndAdvance_agrees fun hs => by have := h hs; omega).step ?_)
      have hrest : Agrees small (saveWhile p (count + 1) (on s line (t ++ [b]))) _ :=
        ih fun hs => by
        have := h hs
        simp only [List.length_append, List.length_cons, List.length_nil]
        omega
      simpa [Nat.add_assoc, Nat.add_comm 1] using hrest
    · rw [List.takeWhile_cons_of_neg hb, List.dropWhile_cons_of_neg hb, List.append_nil]
      exact .of_eq (if_neg hb)

theorem size_saveWhile {p : UInt8 → Bool} {count : Nat} {r : Reader} {a : Nat × Reader}
    (h : saveWhile p count r = .ok a)
    (hr : r.buffer.size ≤ maxTokenSize) : a.2.buffer.size ≤ maxTokenSize := by
  fun_induction saveWhile p count r with
  | case1 | case4 =>
    cases h
    exact hr
  | case2 count r b s _ _ r' hsave ih =>
    refine ih h ?_
    unfold saveAndAdvance save at hsave
    split at hsave
    · cases hsave
    · rename_i hroom
      cases hsave
      show (r.buffer.push _).size ≤ _
      rw [Array.size_push]
      exact Nat.lt_of_not_le hroom
  | case3 => cases h

theorem skipBlanks_eq (r : Reader) : r.skipBlanks = r.current?.elim (.ok r) fun b =>
    if Text.isBlank b then (if isNewline b then r.skipNewline else .ok r.advance) >>=
      skipBlanks else .ok r := by
  rw [skipBlanks.eq_def]
  unfold current?
  split <;> rename_i hr <;> rw [hr]
  · rfl
  rw [List.head?_cons, Option.elim_some]
  split
  · split <;> rename_i h <;> rw [h] <;> rfl
  · rfl

theorem le_line_skipBlanks (s : Bytes) (line : Nat) : line ≤ (Scan.skipBlanks s line).line := by
  fun_induction Scan.skipBlanks s line with
  | case1 | case4 => exact Nat.le_refl _
  | case2 line b s hb ih => exact Nat.le_of_succ_le ih
  | case3 line b s hb hblank ih => exact ih

theorem skipBlanks_agrees (h : small → (Scan.skipBlanks s line).line < maxLines) :
    Agrees small (on s line t).skipBlanks
    (.ok (on (Scan.skipBlanks s line).rest (Scan.skipBlanks s line).line t)) := by
  fun_induction Scan.skipBlanks s line with
  | case1 line =>
    rw [skipBlanks_eq]
    exact .refl _
  | case2 line b s hb ih =>
    have hline := le_line_skipBlanks (Scan.afterNewline b s) (line + 1)
    rw [skipBlanks_eq]
    refine .trans (.of_eq (if_pos (isBlank_of_isNewline hb))) ?_
    rw [if_pos hb]
    exact (skipNewline_agrees fun hs => Nat.lt_of_le_of_lt hline (h hs)).step (ih h)
  | case3 line b s hb hblank ih =>
    rw [skipBlanks_eq]
    refine .trans (.of_eq (if_pos hblank)) ?_
    rw [if_neg hb]
    exact ih h
  | case4 line b s hb hblank =>
    rw [skipBlanks_eq]
    exact .of_eq (if_neg hblank)

end Reader

end LuaChunk
