import LuaChunk.Proofs.Source.Buffer

/-!
Long brackets in the buffer of a reader. The reader takes a bracket with all its signs at once and
starts again at the byte after them; that is where the next bracket may close. A comment keeps only
what belongs to such brackets, and not beyond the line.
-/

set_option autoImplicit false

namespace LuaChunk

open Scan (Cursor Lexeme Fault isNewline)

namespace Scan

variable {keep : Bool} {level line : Nat} {s acc : Bytes}

theorem eq_of_mem_signs {c : UInt8} (h : c ∈ s.takeWhile (· == byte '=')) : c = byte '=' := by
  have hall : (s.takeWhile (· == byte '=')).all (· == byte '=') = true := List.all_takeWhile
  exact eq_of_beq (List.all_eq_true.1 hall c h)

theorem openBracket?_eq (s : Bytes) : openBracket? s =
    if (s.dropWhile (· == byte '=')).head? = some (byte '[') then
      some ((s.takeWhile (· == byte '=')).length, (s.dropWhile (· == byte '=')).tail)
    else none := by
  unfold openBracket?
  cases s.dropWhile (· == byte '=') with
  | nil => rfl
  | cons b rest => simp

def Closes (level : Nat) (s : Bytes) : Prop :=
  (s.dropWhile (· == byte '=')).head? = some (byte ']') ∧
    (s.takeWhile (· == byte '=')).length = level

instance (level : Nat) (s : Bytes) : Decidable (Closes level s) :=
  inferInstanceAs (Decidable (_ ∧ _))

theorem closeBracket?_eq (level : Nat) (s : Bytes) : closeBracket? level s =
    if Closes level s then some (s.dropWhile (· == byte '=')).tail else none := by
  have hrun : s.takeWhile (· == byte '=') = List.replicate (s.takeWhile (· == byte '=')).length
      (byte '=') :=
    List.eq_replicate_iff.2 ⟨rfl, fun _ => eq_of_mem_signs⟩
  split
  · rename_i h
    obtain ⟨rest, hrest⟩ := List.head?_eq_some_iff.1 h.1
    rw [h.2] at hrun
    have hs : s = List.replicate level (byte '=') ++ [byte ']'] ++ rest := by
      rw [← hrun, List.append_assoc, List.singleton_append, ← hrest,
        List.takeWhile_append_dropWhile]
    rw [hrest, List.tail_cons]
    conv => lhs; rw [hs]
    exact closeBracket?_self level rest
  · rename_i h
    cases hc : closeBracket? level s with
    | none => rfl
    | some after =>
      have hs := eq_append_of_dropPrefix? hc
      have hall : ∀ b ∈ List.replicate level (byte '='), (b == byte '=') = true :=
        fun b hb => beq_iff_eq.2 (List.eq_of_mem_replicate hb)
      refine absurd ?_ h
      unfold Closes
      rw [hs, List.append_assoc, List.takeWhile_append_of_pos hall,
        List.dropWhile_append_of_pos hall, List.singleton_append,
        List.takeWhile_cons_of_neg (by decide), List.dropWhile_cons_of_neg (by decide)]
      simp

theorem longText_signs (level : Nat) (s : Bytes) (line : Nat) (acc : Bytes) :
    longText level s line acc =
      longText level (s.dropWhile (· == byte '=')) line
        ((s.takeWhile (· == byte '=')).reverse ++ acc) := by
  induction s generalizing acc with
  | nil => rfl
  | cons b s ih =>
    by_cases hb : b = byte '='
    · subst hb
      rw [List.dropWhile_cons_of_pos (by rfl), List.takeWhile_cons_of_pos (by rfl),
        List.reverse_cons, List.append_assoc]
      rw [longText, if_neg (by decide), if_neg (by decide)]
      exact ih (byte '=' :: acc)
    · rw [List.dropWhile_cons_of_neg (by simpa using hb),
        List.takeWhile_cons_of_neg (by simpa using hb)]
      rfl

/-- How much of a long bracket the buffer holds at most: all of a string, and of a comment its
closing brackets, their signs and its newlines. -/
def longNeed (keep : Bool) (level : Nat) (s : Bytes) : Nat :=
  match s with
  | [] => 0
  | b :: rest =>
    if isNewline b then longNeed keep level (afterNewline b rest) + 1
    else if b = byte ']' then
      if (closeBracket? level rest).isSome then level + 2 else longNeed keep level rest + 1
    else if keep || b == byte '=' then longNeed keep level rest + 1
    else longNeed keep level rest
termination_by s.length
decreasing_by
  · have := length_afterNewline_le b rest
    simp only [List.length_cons]
    omega
  all_goals simp

theorem longNeed_signs (keep : Bool) (level : Nat) (s : Bytes) :
    longNeed keep level s = (s.takeWhile (· == byte '=')).length +
      longNeed keep level (s.dropWhile (· == byte '=')) := by
  induction s with
  | nil => exact (Nat.zero_add _).symm
  | cons b s ih =>
    by_cases hb : b = byte '='
    · subst hb
      rw [List.dropWhile_cons_of_pos (by rfl), List.takeWhile_cons_of_pos (by rfl),
        List.length_cons]
      rw [longNeed, if_neg (by decide), if_neg (by decide), if_pos (by simp), ih]
      omega
    · rw [List.dropWhile_cons_of_neg (by simpa using hb),
        List.takeWhile_cons_of_neg (by simpa using hb)]
      simp

theorem longText_close (level : Nat) (s : Bytes) (line : Nat) (acc : Bytes) :
    longText level (byte ']' :: s) line acc =
    if Closes level s then .ok (acc.reverse, ⟨(s.dropWhile (· == byte '=')).tail, line⟩)
    else longText level (s.dropWhile (· == byte '=')) line
      ((s.takeWhile (· == byte '=')).reverse ++ byte ']' :: acc) := by
  rw [longText, if_neg (by decide), if_pos rfl, closeBracket?_eq]
  by_cases hc : Closes level s
  · rw [if_pos hc, if_pos hc]
  · rw [if_neg hc, if_neg hc]
    exact longText_signs level s line (byte ']' :: acc)

theorem longNeed_close (keep : Bool) (level : Nat) (s : Bytes) :
    longNeed keep level (byte ']' :: s) =
    if Closes level s then level + 2
    else (s.takeWhile (· == byte '=')).length + longNeed keep level (s.dropWhile (· == byte '=')) +
      1 := by
  rw [longNeed, if_neg (by decide), if_pos rfl, closeBracket?_eq]
  by_cases hc : Closes level s
  · rw [if_pos hc, if_pos hc, if_pos (by rfl)]
  · rw [if_neg hc, if_neg hc, if_neg (by decide), longNeed_signs]

/-- How much of a text in long brackets is in the buffer when it has been read. -/
def kept (keep : Bool) (s : Bytes) : Nat :=
  (unified s).countP fun b => keep || b == byte ']' || b == byte '=' || b == 10

theorem kept_newline {keep : Bool} {b : UInt8} (s : Bytes) (hb : isNewline b = true) :
    kept keep (b :: s) = kept keep (afterNewline b s) + 1 := by
  unfold kept
  rw [unified_cons_newline _ hb, List.countP_cons_of_pos (by simp)]

theorem kept_close (keep : Bool) (s : Bytes) : kept keep (byte ']' :: s) = kept keep s + 1 := by
  unfold kept
  rw [unified_cons_plain _ (by decide), List.countP_cons_of_pos (by simp)]

theorem kept_plain {keep : Bool} {b : UInt8} (s : Bytes) (hb : isNewline b = false)
    (hclose : b ≠ byte ']') :
    kept keep (b :: s) = if keep || b == byte '=' then kept keep s + 1 else kept keep s := by
  have hline : b ≠ 10 := by
    rintro rfl
    cases hb
  unfold kept
  rw [unified_cons_plain _ hb, List.countP_cons]
  simp only [beq_eq_false_iff_ne.2 hclose, beq_eq_false_iff_ne.2 hline, Bool.or_false]
  split <;> rfl

theorem longNeed_closed {level : Nat} {s : Bytes} (h : IsLongText level s) (keep : Bool)
    (rest : Bytes) :
    longNeed keep level (s ++ (closeBracket level ++ rest)) = kept keep s + (level + 2) := by
  induction hn : s.length using Nat.strongRecOn generalizing s with
  | ind n ih =>
    cases s with
    | nil =>
      have hbracket : closeBracket level ++ rest = byte ']' ::
          (List.replicate level (byte '=') ++ [byte ']'] ++ rest) := by
        simp [closeBracket]
      rw [List.nil_append, hbracket, longNeed, if_neg (by decide), if_pos rfl, closeBracket?_self,
        if_pos (by rfl)]
      exact (Nat.zero_add _).symm
    | cons b s =>
      have hlt : s.length < n := by simp [← hn]
      have htail := ih s.length hlt h.tail rfl
      rw [List.cons_append, longNeed]
      cases hb : isNewline b with
      | true =>
        have hle := length_afterNewline_le b s
        rw [if_pos rfl, afterNewline_append (startsPlain_closeBracket level rest),
          kept_newline _ hb,
          ih _ (by omega) h.tail.afterNewline rfl]
        omega
      | false =>
        rw [if_neg Bool.false_ne_true]
        by_cases hclose : b = byte ']'
        · subst hclose
          rw [if_pos rfl, ← List.append_assoc, h.not_closed, if_neg (by decide), List.append_assoc,
            htail, kept_close]
          omega
        · rw [if_neg hclose, htail, kept_plain _ hb hclose]
          split <;> omega

theorem longNeed_unclosed {level : Nat} {s : Bytes} (h : ¬closeBracket level <:+: s) (keep : Bool) :
    longNeed keep level s = kept keep s := by
  have htail {b : UInt8} {s : Bytes} (h : ¬closeBracket level <:+: b :: s) :
      ¬closeBracket level <:+: s :=
    fun hs => h (List.infix_cons hs)
  induction hn : s.length using Nat.strongRecOn generalizing s with
  | ind n ih =>
    cases s with
    | nil =>
      rw [longNeed]
      rfl
    | cons b s =>
      have hlt : s.length < n := by simp [← hn]
      have hrest := ih s.length hlt (htail h) rfl
      rw [longNeed]
      cases hb : isNewline b with
      | true =>
        have hle := length_afterNewline_le b s
        have hafter : ¬closeBracket level <:+: afterNewline b s :=
          fun hs => htail h (hs.trans (afterNewline_suffix b s).isInfix)
        rw [if_pos rfl, kept_newline _ hb, ih _ (by omega) hafter rfl]
      | false =>
        rw [if_neg Bool.false_ne_true]
        by_cases hclose : b = byte ']'
        · subst hclose
          have hopen : closeBracket? level s = none := by
            cases hc : closeBracket? level s with
            | none => rfl
            | some after =>
              refine absurd ⟨[], after, ?_⟩ h
              rw [eq_append_of_dropPrefix? hc]
              simp [closeBracket]
          rw [if_pos rfl, hopen, if_neg (by decide), hrest, kept_close]
        · rw [if_neg hclose, hrest, kept_plain _ hb hclose]

def lastLine : Except Nat (Bytes × Cursor) → Nat
  | .ok (_, c) => c.line
  | .error last => last

theorem le_lastLine (level : Nat) (s : Bytes) (line : Nat) (acc : Bytes) :
    line ≤ lastLine (longText level s line acc) := by
  fun_induction longText level s line acc with
  | case1 | case3 => exact Nat.le_refl _
  | case2 line acc b rest hb ih => exact Nat.le_of_succ_le ih
  | case4 | case5 => assumption

theorem longBracket_eq (level : Nat) (s : Bytes) (line : Nat) : longBracket level s line =
    longText level (dropNewline s) (if s.head?.any isNewline then line + 1 else line) [] := by
  cases s with
  | nil => rw [dropNewline, longText]; rfl
  | cons b s =>
    cases hb : isNewline b with
    | true => rw [dropNewline_cons_newline s hb, longBracket, if_pos hb, if_pos (by exact hb)]
    | false =>
      rw [dropNewline_cons_plain s hb, longBracket, if_neg (by simp [hb]), if_neg (by simp [hb])]

/-- How much of a bracket the buffer holds at most, where the first one has been passed. -/
def bracketNeed (keep : Bool) (s : Bytes) : Nat :=
  match openBracket? s with
  | some (level, body) => level + 2 + longNeed keep level (dropNewline body)
  | none => (s.takeWhile (· == byte '=')).length + 1

def commentNeed (s : Bytes) : Nat :=
  if s.head? = some (byte '[') then bracketNeed false s.tail else 0

def endLine : Except Fault Cursor → Nat
  | .ok c => c.line
  | .error f => f.place.line

end Scan

namespace Reader

variable {small : Prop} {keep : Bool} {b : UInt8} {s t o acc : Bytes} {level line start : Nat}

theorem skipSep_agrees (h : small →
    t.length + 1 + (s.takeWhile (· == byte '=')).length ≤ maxTokenSize) :
    Agrees small (on (b :: s) line t).skipSep (.ok
      (if (s.dropWhile (· == byte '=')).head? = some b then (s.takeWhile (· == byte '=')).length + 2
        else if (s.takeWhile (· == byte '=')).length = 0 then 1 else 0,
        on (s.dropWhile (· == byte '=')) line (t ++ b :: s.takeWhile (· == byte '=')))) := by
  have hrun : Agrees small (saveWhile (· == byte '=') 0 (on s line (t ++ [b]))) _ :=
    saveWhile_agrees fun hs => by simpa using h hs
  rw [Nat.zero_add, List.append_assoc, List.singleton_append] at hrun
  refine Agrees.step (saveAndAdvance_agrees fun hs => by have := h hs; omega)
    (hrun.step (.of_eq ?_))
  generalize s.dropWhile (· == byte '=') = rest, s.takeWhile (· == byte '=') = run
  show (if rest.head? = some b then .ok (run.length + 2, _) else if run.length = 0 then .ok (1, _)
      else .ok (0, _) :
    Except Halt (Nat × Reader)) = _
  by_cases hsecond : rest.head? = some b
  · rw [if_pos hsecond, if_pos hsecond]
  · rw [if_neg hsecond, if_neg hsecond]
    by_cases hrun : run.length = 0
    · rw [if_pos hrun, if_pos hrun]
    · rw [if_neg hrun, if_neg hrun]

theorem longBody_eq (keep : Bool) (sep start : Nat) (r : Reader) : longBody keep sep start r =
    r.current?.elim (r.fail (unfinishedLong keep start) TokenKind.eos.text) fun b =>
      if b = byte ']' then r.skipSep >>= fun p =>
        if p.1 = sep then p.2.saveAndAdvance else longBody keep sep start p.2
      else r.longStep keep b >>= longBody keep sep start := by
  rw [longBody.eq_def]
  unfold current?
  split <;> rename_i hr <;> rw [hr]
  · rfl
  rw [List.head?_cons, Option.elim_some]
  split
  · split <;> rename_i h <;> rw [h] <;> rfl
  · split <;> rename_i h <;> rw [h] <;> rfl

def tidy (keep : Bool) (r : Reader) : Except Halt Reader := .ok (if keep then r else r.clear)

/-- How a long bracket ends, with what was in the buffer before its text. -/
def longEnd (keep : Bool) (level start : Nat) (o : Bytes) : Except Nat (Bytes × Cursor) →
    Except Halt Reader
  | .ok (text, c) => .ok (on c.rest c.line (if keep then o ++ text ++ closeBracket level else []))
  | .error last => .error (.fault (Scan.unfinishedLong keep start last))

theorem longStep_newline (hb : isNewline b = true)
    (h : small → t.length < maxTokenSize ∧ line + 1 < maxLines) :
    Agrees small ((on (b :: s) line t).longStep keep b)
      (.ok (on (Scan.afterNewline b s) (line + 1) (if keep then t ++ [10] else []))) := by
  refine .trans (.of_eq (if_pos hb))
    (Agrees.step (save_agrees fun hs => (h hs).1)
    (.step (skipNewline_agrees fun hs => (h hs).2) (.of_eq ?_)))
  cases keep <;> rfl

theorem longStep_plain (hb : isNewline b = false)
    (h : keep = true → small → t.length < maxTokenSize) :
    Agrees small ((on (b :: s) line t).longStep keep b)
      (.ok (on s line (if keep then t ++ [b] else t))) := by
  refine .trans (.of_eq (if_neg (by simp [hb]))) ?_
  cases keep with
  | true => exact saveAndAdvance_agrees (h rfl)
  | false => exact .refl _

theorem longBody_agrees (ht : keep = true → t = o ++ acc.reverse)
    (h : small → t.length + Scan.longNeed keep level s ≤ maxTokenSize ∧
      Scan.lastLine (Scan.longText level s line acc) < maxLines) :
    Agrees small (longBody keep (level + 2) start (on s line t) >>= tidy keep)
      (longEnd keep level start o (Scan.longText level s line acc)) := by
  induction hn : s.length using Nat.strongRecOn generalizing s line t acc with
  | ind n ih =>
    rw [longBody_eq]
    cases s with
    | nil =>
      rw [Scan.longText]
      exact .refl _
    | cons b s =>
      rw [List.length_cons] at hn
      rw [current?_on, List.head?_cons, Option.elim_some]
      by_cases hclose : b = byte ']'
      · subst hclose
        rw [Scan.longText_close, Scan.longNeed_close] at h
        have hsep : Agrees small (on (byte ']' :: s) line t).skipSep _ :=
          skipSep_agrees fun hs => by
          have hneed := (h hs).1
          split at hneed
          · rename_i hc
            rw [hc.2]
            omega
          · omega
        rw [if_pos rfl, Scan.longText_close]
        by_cases hc : Scan.Closes level s
        · rw [if_pos hc] at h
          rw [if_pos hc.1, hc.2] at hsep
          rw [if_pos hc]
          obtain ⟨rest, hrest⟩ := List.head?_eq_some_iff.1 hc.1
          have hrun : s.takeWhile (· == byte '=') = List.replicate level (byte '=') :=
            List.eq_replicate_iff.2 ⟨hc.2, fun _ => Scan.eq_of_mem_signs⟩
          rw [hrest, hrun] at hsep
          rw [hrest, List.tail_cons]
          have hlast : Agrees small
              (on (byte ']' :: rest) line
              (t ++ byte ']' :: List.replicate level (byte '='))).saveAndAdvance _ :=
            saveAndAdvance_agrees fun hs => by
              have := (h hs).1
              simp only [List.length_append, List.length_cons, List.length_replicate]
              omega
          refine (hsep.step (.trans (.of_eq (if_pos rfl)) hlast)).step (.of_eq ?_)
          cases keep with
          | false => rfl
          | true =>
            rw [ht rfl]
            simp [tidy, longEnd, closeBracket]
        · rw [if_neg hc, if_neg hc] at h
          rw [if_neg hc]
          have hother : ¬(if (s.dropWhile (· == byte '=')).head? = some (byte ']')
              then (s.takeWhile (· == byte '=')).length + 2
              else if (s.takeWhile (· == byte '=')).length = 0 then 1 else 0) = level + 2 := by
            intro he
            split at he
            · rename_i hhead
              exact hc ⟨hhead, by omega⟩
            · split at he <;> omega
          refine .trans (Agrees.bind (hsep.step (.of_eq (if_neg hother))) fun _ _ => .refl _) ?_
          refine ih (s.dropWhile (· == byte '=')).length ?_ ?_ ?_ rfl
          · have := (List.dropWhile_sublist (l := s) (· == byte '=')).length_le
            omega
          · intro hk
            rw [ht hk]
            simp
          · intro hs
            have := h hs
            refine ⟨?_, this.2⟩
            simp only [List.length_append, List.length_cons]
            omega
      · rw [if_neg hclose]
        cases hb : isNewline b with
        | true =>
          have hlen := Scan.length_afterNewline_le b s
          have hline := Scan.le_lastLine level (Scan.afterNewline b s) (line + 1) (10 :: acc)
          rw [Scan.longText, if_pos hb, Scan.longNeed, if_pos hb] at h
          rw [Scan.longText, if_pos hb]
          have hstep : Agrees small ((on (b :: s) line t).longStep keep b) _ :=
            longStep_newline hb fun hs => by
            have := h hs
            omega
          refine .trans (Agrees.bind (hstep.step (.refl _)) fun _ _ => .refl _)
            (ih (Scan.afterNewline b s).length (by omega) ?_ ?_ rfl)
          · rintro rfl
            simp [ht rfl]
          · intro hs
            have := h hs
            refine ⟨?_, this.2⟩
            cases keep with
            | true =>
              simp only [if_true, List.length_append, List.length_singleton]
              omega
            | false =>
              show 0 + _ ≤ _
              omega
        | false =>
          have hne : ¬isNewline b = true := by simp [hb]
          rw [Scan.longText, if_neg hne, if_neg hclose, Scan.longNeed, if_neg hne, if_neg hclose]
            at h
          rw [Scan.longText, if_neg hne, if_neg hclose]
          have hstep : Agrees small ((on (b :: s) line t).longStep keep b) _ :=
            longStep_plain hb fun hk hs => by
            have := (h hs).1
            rw [hk, if_pos (by rfl)] at this
            omega
          refine .trans (Agrees.bind (hstep.step (.refl _)) fun _ _ => .refl _)
            (ih s.length (by omega) ?_ ?_ rfl)
          · rintro rfl
            simp [ht rfl]
          · intro hs
            have := h hs
            refine ⟨?_, this.2⟩
            cases keep with
            | true =>
              simp only [Bool.true_or, if_true, List.length_append, List.length_singleton] at this ⊢
              omega
            | false =>
              have hle := this.1
              simp only [Bool.false_or, Bool.false_eq_true, if_false] at hle ⊢
              split at hle <;> omega

theorem longString_agrees
    (h : small → t.length + 1 + Scan.longNeed keep level (dropNewline s) ≤ maxTokenSize ∧
      Scan.lastLine (Scan.longBracket level s line) < maxLines) :
    Agrees small ((on (b :: s) line t).longString keep (level + 2) >>= tidy keep)
      (longEnd keep level line (t ++ [b]) (Scan.longBracket level s line)) := by
  rw [Scan.longBracket_eq] at h ⊢
  have hline := Scan.le_lastLine level (dropNewline s)
    (if s.head?.any isNewline then line + 1 else line) []
  have hfirst : Agrees small (on (b :: s) line t).saveAndAdvance (.ok (on s line (t ++ [b]))) :=
    saveAndAdvance_agrees fun hs => by have := (h hs).1; omega
  have hskip : Agrees small
      (if (on s line (t ++ [b])).current?.any isNewline then (on s line (t ++ [b])).skipNewline
      else .ok (on s line (t ++ [b])))
      (.ok (on (dropNewline s) (if s.head?.any isNewline then line + 1 else line) (t ++ [b]))) := by
    cases s with
    | nil => exact .refl _
    | cons c s =>
      cases hc : isNewline c with
      | true =>
        rw [dropNewline_cons_newline s hc]
        refine .trans (.of_eq (if_pos hc)) (.trans (skipNewline_agrees fun hs => ?_) (.of_eq ?_))
        · have hlast := (h hs).2
          rw [if_pos (by exact hc)] at hline hlast
          omega
        · rw [if_pos (by exact hc)]
      | false =>
        have hne : ¬isNewline c = true := by simp [hc]
        rw [dropNewline_cons_plain s hc]
        exact .of_eq ((if_neg hne).trans (by rw [if_neg (by exact hne)]))
  refine .trans (Agrees.bind (hfirst.step (hskip.step (.refl _))) fun _ _ => .refl _)
    (longBody_agrees (fun _ => ?_) fun hs => ?_)
  · rw [List.reverse_nil, List.append_nil]
  · have := h hs
    rwa [List.length_append, List.length_singleton]

def placed (x : Except Halt (Lexeme × Reader)) : Except Halt (Lexeme × Cursor) :=
  x.map fun p => (p.1, p.2.cursor)

def faulty {α : Type} : Except Fault α → Except Halt α := Except.mapError .fault

theorem Agrees.placed {x y : Except Halt (Lexeme × Reader)} (h : Agrees small x y) :
    Agrees small (placed x) (placed y) := by
  rcases h with rfl | ⟨hs, e, rfl, he⟩
  · exact .refl _
  · exact .error hs he

theorem skipSep_open {body : Bytes} (ho : Scan.openBracket? s = some (level, body))
    (h : small → t.length + (level + 1) ≤ maxTokenSize) :
    Agrees small (on (byte '[' :: s) line t).skipSep
      (.ok (level
        + 2, on (byte '[' :: body) line (t ++ byte '[' :: List.replicate level (byte '=')))) := by
  have hs : s = List.replicate level (byte '=') ++ byte '[' :: body := by
    have := prefix_of_openBracket? ho
    simpa [openBracket] using this
  have hall : ∀ b ∈ List.replicate level (byte '='), (b == byte '=') = true :=
    fun b hb => beq_iff_eq.2 (List.eq_of_mem_replicate hb)
  have hrun : s.takeWhile (· == byte '=') = List.replicate level (byte '=') := by
    rw [hs, List.takeWhile_append_of_pos hall, List.takeWhile_cons_of_neg (by decide),
      List.append_nil]
  have hrest : s.dropWhile (· == byte '=') = byte '[' :: body := by
    rw [hs, List.dropWhile_append_of_pos hall, List.dropWhile_cons_of_neg (by decide)]
  have hsep : Agrees small (on (byte '[' :: s) line t).skipSep _ := skipSep_agrees fun hs => by
    rw [hrun, List.length_replicate]
    have := h hs
    omega
  rwa [hrun, hrest, List.length_replicate, if_pos (by rfl)] at hsep

theorem skipSep_single (ho : Scan.openBracket? s = none)
    (h : small → t.length + ((s.takeWhile (· == byte '=')).length + 1) ≤ maxTokenSize) :
    Agrees small (on (byte '[' :: s) line t).skipSep
      (.ok (if (s.takeWhile (· == byte '=')).length = 0 then 1 else 0,
      on (s.dropWhile (· == byte '=')) line (t ++ byte '[' :: s.takeWhile (· == byte '=')))) := by
  have hhead : ¬(s.dropWhile (· == byte '=')).head? = some (byte '[') := by
    intro hhead
    rw [Scan.openBracket?_eq, if_pos hhead] at ho
    cases ho
  have hsep : Agrees small (on (byte '[' :: s) line t).skipSep _ := skipSep_agrees fun hs => by
    have := h hs
    omega
  rwa [if_neg hhead] at hsep

theorem bracket_agrees (h : small → Scan.bracketNeed true s ≤ maxTokenSize ∧
    Scan.endLine ((Scan.bracket s line).map Prod.snd) < maxLines) :
    Agrees small (placed (on (byte '[' :: s) line []).bracket) (faulty (Scan.bracket s line)) := by
  unfold Scan.bracketNeed Scan.bracket at h
  unfold Scan.bracket
  cases ho : Scan.openBracket? s with
  | none =>
    rw [ho] at h
    dsimp only at h ⊢
    have hsep : Agrees small (on (byte '[' :: s) line []).skipSep _ :=
      skipSep_single ho fun hs => by
      have := (h hs).1
      rwa [List.length_nil, Nat.zero_add]
    refine .trans (hsep.step (.refl _)).placed (.of_eq ?_)
    have happend := List.takeWhile_append_dropWhile (p := (· == byte '=')) (l := s)
    generalize s.takeWhile (· == byte '=') = run at happend
    generalize s.dropWhile (· == byte '=') = rest at happend
    subst happend
    cases run with
    | nil => rfl
    | cons b run => rfl
  | some p =>
    obtain ⟨level, body⟩ := p
    rw [ho] at h
    dsimp only at h ⊢
    have hsep : Agrees small (on (byte '[' :: s) line []).skipSep _ := skipSep_open ho fun hs => by
      have := (h hs).1
      simp only [List.length_nil]
      omega
    refine .trans (hsep.step (.refl _)).placed ?_
    dsimp only
    rw [if_pos (Nat.le_add_left 2 level)]
    have hlong : Agrees small
        ((on (byte '[' :: body) line (byte '[' :: List.replicate level (byte '='))).longString true
          (level + 2) >>= tidy true) _ :=
      longString_agrees fun hs => by
        have := h hs
        refine ⟨by simp only [List.length_cons, List.length_replicate]; omega, ?_⟩
        have hend := this.2
        cases hl : Scan.longBracket level body line <;> rw [hl] at hend <;> exact hend
    have hkept : ∀ x : Except Halt Reader, x >>= tidy true = x := fun x => by cases x <;> rfl
    rw [hkept] at hlong
    cases hl : Scan.longBracket level body line with
    | error last =>
      rw [hl] at hlong
      exact hlong.stop.placed
    | ok p =>
      obtain ⟨text, c⟩ := p
      rw [hl] at hlong
      refine .trans (hlong.step (.refl _)).placed (.of_eq ?_)
      have hinside :
          (on c.rest c.line (byte '['
          :: List.replicate level (byte '=') ++ [byte '['] ++ text ++ closeBracket level)).inside
          (level + 2) = .ok text := inside_on (by simp) (by simp [closeBracket])
      rw [if_pos rfl, hinside]
      simp [placed, faulty, closeBracket]
      rfl

theorem comment_bracket :
    (on (byte '[' :: s) line t).comment = (on (byte '[' :: s) line t).skipSep >>= fun p =>
    if 2 ≤ p.1 then p.2.clear.longString false p.1 >>= tidy false else .ok p.2.clear.skipLine := rfl

theorem comment_agrees (h : small → Scan.commentNeed s ≤ maxTokenSize ∧
    Scan.endLine (Scan.comment s line) < maxLines) :
    Agrees small (on s line []).comment (match Scan.comment s line with
      | .ok c => .ok (on c.rest c.line [])
      | .error f => .error (.fault f)) := by
  cases s with
  | nil => exact .refl _
  | cons b s =>
    unfold Scan.commentNeed Scan.bracketNeed Scan.comment at h
    unfold Scan.comment
    rw [List.head?_cons, List.tail_cons] at h
    dsimp only at h ⊢
    by_cases hb : b = byte '['
    · subst hb
      rw [if_pos rfl, if_pos rfl] at h
      rw [if_pos rfl]
      cases ho : Scan.openBracket? s with
      | none =>
        rw [ho] at h
        have hsep : Agrees small (on (byte '[' :: s) line []).skipSep _ :=
          skipSep_single ho fun hs => by
          have := (h hs).1
          rwa [List.length_nil, Nat.zero_add]
        have hline : (byte '[' :: s).dropWhile (fun b => !isNewline b) =
            (s.dropWhile (· == byte '=')).dropWhile fun b => !isNewline b := by
          have hsplit := List.takeWhile_append_dropWhile (p := (· == byte '=')) (l := s)
          rw [List.dropWhile_cons_of_pos (by decide)]
          conv => lhs; rw [← hsplit]
          refine List.dropWhile_append_of_pos fun c hc => ?_
          rw [Scan.eq_of_mem_signs hc]
          decide
        rw [comment_bracket, hline]
        refine hsep.step (.of_eq ((if_neg ?_).trans rfl))
        dsimp only
        split <;> decide
      | some p =>
        obtain ⟨level, body⟩ := p
        rw [ho] at h
        dsimp only at h
        have hsep : Agrees small (on (byte '[' :: s) line []).skipSep _ :=
          skipSep_open ho fun hs => by
          have := (h hs).1
          simp only [List.length_nil]
          omega
        have hlong : Agrees small
            ((on (byte '[' :: body) line []).longString false (level + 2) >>= tidy false) _ :=
          longString_agrees fun hs => by
            have := h hs
            refine ⟨by simp only [List.length_nil]; omega, ?_⟩
            have hend := this.2
            cases hl : Scan.longBracket level body line <;> rw [hl] at hend <;> exact hend
        rw [comment_bracket]
        refine hsep.step ?_
        rw [if_pos (Nat.le_add_left 2 level)]
        refine .trans hlong ?_
        dsimp only
        cases Scan.longBracket level body line <;> exact .refl _
    · rw [if_neg hb]
      refine .of_eq (if_neg ?_)
      simpa using hb

end Reader

end LuaChunk
