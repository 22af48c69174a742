import LuaChunk.Proofs.Action.Stores
import LuaChunk.Proofs.Compile.Sharing

/-!
Readers that fail. A compilation whose reader fails is followed next to one of the same bytes and
some more: it takes the same steps until the bytes are used up. So an error that is found before
that does not depend on what follows, and where it does the failure of the reader is what is
reported.
-/

set_option autoImplicit false

namespace LuaChunk

section

variable {σ α : Type} {onward : σ → σ} {Missing Missing' : Failure → Prop}
  {r r' : EStateM.Result Failure σ α}

end

namespace Lexer

/-- A stream of the words of the language whose reader fails, and that has not met the end of the
input. -/
structure Starved (source failure : Bytes) (l : Lexer) : Prop where
  settings : l.settings = (source, some failure, Keyword.number)
  token : 0 < l.number → l.token.kind ≠ .eos
  ahead : l.Expects (·.kind ≠ .eos)

namespace Starved

variable {source failure : Bytes} {l l' : Lexer}

theorem failure_eq (h : l.Starved source failure) : l.failure = some failure :=
  (Prod.mk.inj (Prod.mk.inj h.settings).2).1

theorem source_eq (h : l.Starved source failure) : l.source = source := (Prod.mk.inj h.settings).1

theorem kind_word (w : Bytes) : (tokenOf Keyword.number (.word w)).kind ≠ .eos := by
  by_cases hw : w ∈ Keyword.words
  · obtain ⟨k, -, rfl⟩ := List.mem_map.1 hw
    rw [show tokenOf Keyword.number (.word k.text) = .word k from Word.tokenOf_lexeme (.keyword k)]
    exact nofun
  · have hzero : Keyword.number w = 0 := by rw [Keyword.number, List.idxOf?_eq_none_iff.2 hw]
    simp [tokenOf, hzero, Token.kind]

theorem delivers (h : l.Starved source failure) : l.Delivers (·.kind ≠ .eos) := by
  intro y c hs hu
  rw [show l.numberOf = Keyword.number from (Prod.mk.inj (Prod.mk.inj h.settings).2).2]
  rcases Scan.scan_ended_or_proper (Reader.scan_of_read hs) with ⟨-, hrest⟩ | hproper
  · unfold unread? at hu
    rw [hrest, h.failure_eq] at hu
    cases hu
  · cases y with
    | eos => exact hproper.elim
    | word w => exact kind_word w
    | number n raw => cases n <;> exact nofun
    | _ => exact nofun

theorem next (h : l.Starved source failure) (hr : next l = .ok () l') :
    l'.Starved source failure := by
  have hsettings := settings_next l
  unfold after at hsettings
  rw [hr] at hsettings
  obtain ⟨htoken, hahead⟩ := h.delivers.next h.ahead hr
  exact ⟨hsettings.trans h.settings, fun _ => htoken, hahead⟩

theorem lookahead (h : l.Starved source failure) {k : TokenKind} (hr : lookahead l = .ok k l') :
    l'.Starved source failure := by
  have hsettings := settings_lookahead l
  unfold after at hsettings
  rw [hr] at hsettings
  obtain ⟨hahead, htoken, hnumber⟩ := h.delivers.lookahead h.ahead hr
  exact ⟨hsettings.trans h.settings, fun hn => htoken ▸ h.token (hnumber ▸ hn), hahead⟩

theorem of_core (h : l.Starved source failure) (hc : l'.core = l.core) :
    l'.Starved source failure := by
  simp only [core, Prod.mk.injEq] at hc
  obtain ⟨-, htoken, hnumber, hahead, hwords, hsource, hfailure⟩ := hc
  refine ⟨?_, ?_, ?_⟩
  · rw [← h.settings, Lexer.settings, Lexer.settings, hsource, hfailure, hwords]
  · rw [htoken, hnumber]
    exact h.token
  · unfold Expects
    rw [hahead]
    exact h.ahead

end Starved

theorem lasting_starved (source failure : Bytes) : Lasting (Starved source failure) :=
  ⟨fun _ _ hc h => h.of_core hc, fun _ _ h => h.next, fun _ _ _ h => h.lookahead⟩

def Advanced (source failure : Bytes) (l : Lexer) : Prop := l.Starved source failure ∧ 0 < l.number

theorem number_next {l l' : Lexer} (h : next l = .ok () l') : 0 < l'.number := by
  have hquiet := (quiet_next l).2
  unfold after at hquiet
  rw [h] at hquiet
  exact Nat.lt_of_lt_of_le (Nat.succ_pos _) hquiet

theorem lasting_advanced (source failure : Bytes) : Lasting (Advanced source failure) := by
  refine ⟨fun l l' hc h => ⟨h.1.of_core hc, ?_⟩, fun l l' h hr => ⟨h.1.next hr, number_next hr⟩,
    fun l l' k h hr => ⟨h.1.lookahead hr, ?_⟩⟩
  · simp only [core, Prod.mk.injEq] at hc
    rw [hc.2.2.1]
    exact h.2
  · rw [(h.1.delivers.lookahead h.1.ahead hr).2.2]
    exact h.2

end Lexer

namespace Compile

/-- The failures that more input may avert: the reader's, and running out of turns. -/
def Missing (source failure : Bytes) (turns : Nat) (e : Failure) : Prop :=
  e = Lexer.readFailure source failure ∨ 0 < turns ∧ e = .broken .boundedLoop

variable {source failure : Bytes}

theorem continues_onLexer {α : Type} {act : Lexer.M α} {s : State} (x : Bytes) (k : Nat)
    (h : Continues (Lexer.continued · x) (· = Lexer.readFailure source failure) (act s.lexer)
    (act (s.lexer.continued x))) :
    Continues (State.continued · x k) (Missing source failure k) (onLexer act s)
      (onLexer act (s.continued x k)) := by
  have hlexer : (s.continued x k).lexer = s.lexer.continued x := rfl
  unfold onLexer
  dsimp only
  rw [hlexer]
  generalize act s.lexer = r, act (s.lexer.continued x) = r' at h
  cases h with
  | ok a l => exact .ok a { s with lexer := l }
  | error e l l' => exact .error e _ _
  | missing h => exact .missing (.inl h)

theorem continues_inState {α : Type} {g g' onward onward' : State → State}
    {Missing : Failure → Prop}
    {r r' : EStateM.Result Failure State α} (h : Continues onward Missing r r')
    (hg : ∀ t, g' (onward t) = onward' (g t)) :
    Continues onward' Missing (inState g r) (inState g' r') := by
  cases h with
  | ok a t =>
    show Continues onward' Missing (.ok a (g t)) (.ok a (g' (onward t)))
    rw [hg]
    exact .ok a (g t)
  | error e t t' => exact .error e _ _
  | missing h => exact .missing h

theorem continues_attach (t : State) (x : Bytes) (k : Nat) :
    Continues (State.continued · x k) (Missing source failure k) (attach t)
      (attach (t.continued x k)) := by
  cases ho : t.outer with
  | nil =>
    rw [attach_nil ho, attach_nil (s := t.continued x k) ho]
    exact .error _ _ _
  | cons b rest =>
    rw [attach_cons ho, attach_cons (s := t.continued x k) ho]
    exact .ok () _

theorem Single.continues {α : Type} {P : α → Prop} {m : M α} (h : Single P m) (s : State)
    (x : Bytes) (k : Nat) :
    Continues (State.continued · x k) (Missing source failure k) (m s) (m (s.continued x k)) := by
  rw [h.continued]
  cases m s with
  | ok a t => exact .ok a t
  | error e t => exact .error e _ _

theorem Built.continues {levels : Option Nat} {α : Type} {P : α → Prop} {m : M α}
    (h : Built levels P m) {s : State} (hs : s.Clean)
    (hl : s.lexer.Starved source failure) (x : Bytes) (k : Nat) :
    Continues (State.continued · x k) (Missing source failure k) (m s) (m (s.continued x k)) := by
  induction h generalizing s with
  | single h => exact h.continues s x k
  | bind hm hf ihm ihf =>
    refine (ihm hs hl).bind fun a t hr => ?_
    obtain ⟨ha, ht, hlt⟩ := hm.keeps (Lexer.lasting_starved source failure) hs hl hr
    exact ihf a ha ht hlt
  | @get _ _ _ f hf hc ih =>
    change Continues _ _ (f s s) (f (s.continued x k) (s.continued x k))
    rw [hc]
    exact ih s hs hs hl
  | next => exact continues_onLexer x k (hl.source_eq ▸ Lexer.next_continues hl.failure_eq x)
  | lookahead =>
    exact continues_onLexer x k (hl.source_eq ▸ Lexer.lookahead_continues hl.failure_eq x)
  | @loop levels _ _ P Q turn b hb ht ih =>
    change Continues _ _ (iterate turn s.bound b s) (iterate turn (s.bound + k) b (s.continued x k))
    generalize s.bound = n
    induction n generalizing b s with
    | zero =>
      cases k with
      | zero => exact .error _ _ _
      | succ k => exact .missing (.inr ⟨Nat.succ_pos k, rfl⟩)
    | succ n ihn =>
      rw [Nat.add_right_comm]
      change Continues _ _ ((turn b >>= _) s) ((turn b >>= _) (s.continued x k))
      refine (ih b hb hs hl).bind fun r t hr => ?_
      obtain ⟨hr', ht', hlt⟩ := (ht b hb).keeps (Lexer.lasting_starved source failure) hs hl hr
      cases r with
      | again b' =>
        refine ((single_checkAdvance _).continues t x k).bind fun _ u hu => ?_
        obtain ⟨-, rfl⟩ := ok_of_checkAdvance hu
        exact ihn hr' ht' hlt
      | done b' => exact .ok b' t
  | @enclosing levels _ P m h ih =>
    cases ho : s.outer with
    | nil =>
      rw [inEnclosing_nil ho, inEnclosing_nil (s := s.continued x k) ho]
      exact .error _ _ _
    | cons b rest =>
      rw [inEnclosing_cons ho, inEnclosing_cons (s := s.continued x k) ho]
      exact continues_inState (ih (hs.leave ho) hl) fun _ => rfl
  | @metered _ _ _ m h ih =>
    change Continues _ _ ((m >>= fun a => leaveLevel >>= fun _ => pure a) s.deeper)
      ((m >>= fun a => leaveLevel >>= fun _ => pure a) (s.deeper.continued x k))
    exact (ih (s := s.deeper) (hs.atLevel _ _) hl).bind fun a t _ => .ok a _
  | @nested _ _ P m line h ih =>
    change Continues _ _ ((m >>= fun a => attach >>= fun _ => pure a) (s.nest line))
      ((m >>= fun a => attach >>= fun _ => pure a) ((s.nest line).continued x k))
    refine (ih (hs.nest line) hl).bind fun a t hr => ?_
    exact (continues_attach t x k).bind fun _ u _ => .ok a u

variable {o : Options}

theorem started_starved (hf : o.failure = some failure) (hw : o.interner.Usable) (s : Bytes) :
    (initial o s).started.lexer.Starved o.chunk failure where
  settings := by
    unfold Interner.Usable at hw
    simp only [Lexer.settings, State.started, initial, Lexer.start, hf, hw]
  token h := absurd h (Nat.lt_irrefl 0)
  ahead := nofun

theorem started_continued (s x : Bytes) :
    (initial o s).started.continued x x.length =
      (initial { o with failure := none } (s ++ x)).started := by
  simp only [State.started, State.continued, initial, Lexer.start, List.length_append,
    Nat.add_right_comm]

theorem mainFunction_continues (hf : o.failure = some failure) (hw : o.interner.Usable)
    (s x : Bytes) :
    Continues (State.continued · x x.length) (Missing o.chunk failure x.length)
      (mainFunction (initial o s))
      (mainFunction (initial { o with failure := none } (s ++ x))) := by
  rw [mainFunction_started, mainFunction_started, ← started_continued]
  exact (Acts.nesting maxNesting).continues (started_clean o s) (started_starved hf hw s) x x.length

theorem check_ok {k : TokenKind} {s t : State} (h : check k s = .ok () t) :
    s.lexer.token.kind = k := by
  unfold check at h
  obtain ⟨k', u, hk, h⟩ := exists_of_bind h
  cases hk
  by_contra hne
  rw [if_pos hne] at h
  cases (show errorExpected k s = .error _ s from rfl).symm.trans h

theorem mainFunction_starved (hf : o.failure = some failure) (hw : o.interner.Usable) (s : Bytes)
    (a : Unit) (t : State) :
    mainFunction (initial o s) ≠ .ok a t := by
  intro h
  rw [mainFunction_started] at h
  have hlast := Lexer.lasting_starved o.chunk failure
  have hs := started_starved hf hw s
  have hclean := started_clean o s
  generalize (initial o s).started = s₀ at h hs hclean
  unfold mainBody at h
  obtain ⟨_, s₁, h₁, h⟩ := exists_of_bind h
  obtain ⟨-, hclean, hs⟩ := (Acts.nesting maxNesting).keeps hlast hclean hs h₁
  obtain ⟨_, s₂, h₂, h⟩ := exists_of_bind h
  obtain ⟨-, hclean, hs⟩ := (Acts.nesting maxNesting).keeps hlast hclean hs h₂
  obtain ⟨_, s₃, h₃, h⟩ := exists_of_bind h
  obtain ⟨-, hclean, hs⟩ := (Acts.nesting maxNesting).keeps hlast hclean hs h₃
  -- from the first token on the current one is never the end
  obtain ⟨_, s₄, h₄, h⟩ := exists_of_bind h
  have hclean₄ := ((Built.next : Built none _ _).clean hclean h₄).2
  obtain ⟨l, hl, rfl⟩ := onLexer_ok h₄
  have hs : l.Advanced o.chunk failure := ⟨hs.next hl, Lexer.number_next hl⟩
  obtain ⟨_, s₅, h₅, h⟩ := exists_of_bind h
  obtain ⟨-, hclean, hs⟩ :=
    (Acts.nesting maxNesting).keeps (Lexer.lasting_advanced o.chunk failure) hclean₄ hs h₅
  obtain ⟨_, s₆, h₆, -⟩ := exists_of_bind h
  exact hs.1.token hs.2 (check_ok h₆)

theorem result_continued (hf : o.failure = some failure) (hw : o.interner.Usable) {s : Bytes}
    {e : CompileError}
    (h : (run o s).result = .error (.error e))
    (x : Bytes) : (run { o with failure := none } (s ++ x)).result = .error (.error e) := by
  have hcontinues := mainFunction_continues hf hw s x
  unfold run at h ⊢
  generalize mainFunction (initial o s) = r,
    mainFunction (initial { o with failure := none } (s ++ x)) = r' at h hcontinues ⊢
  cases hcontinues with
  | ok a t => cases h
  | error e' t t' => exact h
  | missing hm =>
    cases h
    rcases hm with hm | ⟨-, hm⟩ <;> cases hm

/-- A compilation whose reader fails reports an error of the source or the failure of the reader. -/
theorem result_starved (hf : o.failure = some failure) (hw : o.interner.Usable)
    (hi : o.maxItems ≤ 1073741823) (s : Bytes) :
    (∃ e, (run o s).result = .error (.error e)) ∨
      (run o s).result = .error (Lexer.readFailure o.chunk failure) := by
  have hstarved := mainFunction_starved hf hw s
  have hcontinues := mainFunction_continues hf hw s []
  have hsound := (run_sound (o := { o with failure := none }) rfl hi (s ++ [])).reported
  unfold run at hsound ⊢
  generalize mainFunction (initial o s) = r,
    mainFunction (initial { o with failure := none } (s ++ [])) = r' at hstarved hcontinues hsound ⊢
  cases hcontinues with
  | ok a t => exact absurd rfl (hstarved a t)
  | error e t t' =>
    -- all of the input was enough for the error, so it is one of the source
    have hreported := hsound e rfl
    cases e with
    | error e => exact .inl ⟨e, rfl⟩
    | read m => exact hreported.elim
    | broken a => exact hreported.elim
  | missing hm =>
    rcases hm with rfl | ⟨hlt, -⟩
    · exact .inr rfl
    · exact absurd hlt (Nat.lt_irrefl 0)

end Compile

open Compile

/-- A compilation whose reader fails after some bytes never succeeds. It ends with the reader's
failure, or with an error that any source has which starts with these bytes. So the reader's failure
is reported where some of these sources compiles, and where two of them have different errors. -/
theorem failing_reader (chunk failure : Bytes) {table : Interner} (hw : table.Usable) (s : Bytes) :
    let failing := (run { chunk, interner := table, failure := some failure } s).result
    (∀ p, failing ≠ .ok p) ∧
    (∀ e, failing = .error (.error e) → ∀ t, compile chunk (s ++ t) = .error (.error e)) ∧
    ((∃ t p, compile chunk (s ++ t) = .ok p) ∨
        (∃ t t' e e', compile chunk (s ++ t) = .error e ∧ compile chunk (s ++ t') = .error e' ∧
          e ≠ e') →
      failing = .error (.read (utf8 "reading " ++ chunkId chunk ++ utf8 ": " ++ failure))) := by
  intro failing
  have hwhole : ∀ e, failing = .error (.error e) →
      ∀ t, compile chunk (s ++ t) = .error (.error e) := by
    intro e he t
    rw [← result_run hw]
    exact result_continued (o := { chunk, interner := table, failure := some failure }) rfl hw he t
  obtain ⟨e, he⟩ | hread :=
    result_starved (o := { chunk, interner := table, failure := some failure }) rfl hw
    (Int.le_refl _) s
  · have he : failing = .error (.error e) := he
    refine ⟨fun p hp => (nomatch he.symm.trans hp), hwhole, ?_⟩
    rintro (⟨t, p, hp⟩ | ⟨t, t', e₁, e₂, h₁, h₂, hne⟩)
    · cases (hwhole e he t).symm.trans hp
    · cases (hwhole e he t).symm.trans h₁
      cases (hwhole e he t').symm.trans h₂
      exact absurd rfl hne
  · exact ⟨fun p hp => (nomatch hread.symm.trans hp), hwhole, fun _ => hread⟩

/-- A reader that fails within a table constructor. -/
theorem failing_reader_brace :
    (run { chunk := utf8 "=broken", failure := some (utf8 "boom") } (utf8 "(\x7b")).result =
      .error (.read (utf8 "reading broken: boom")) := by
  obtain ⟨p, hp⟩ := exists_ok (r := compile (utf8 "=broken") (utf8 "(\x7b" ++ utf8 "\x7d)()"))
    (by decide +kernel)
  exact (failing_reader (utf8 "=broken") (utf8 "boom") Interner.reservedIndex_markAll
    (utf8 "(\x7b")).2.2 (.inl ⟨_, p, hp⟩)

end LuaChunk
