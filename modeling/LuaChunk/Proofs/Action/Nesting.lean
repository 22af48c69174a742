import LuaChunk.Proofs.Action.Floats
import LuaChunk.Proofs.Compile.Chunk
import LuaChunk.Proofs.Parallel.Run
import LuaChunk.Proofs.Source.Printing

/-!
Compiling ends on every input. The tokens of a source run out, each turn of a loop takes one of
them, and the parsers call those of the next level only, as long as levels are left: what an action
does on a level comes back to it, and goes at most so many levels deeper.
-/

set_option autoImplicit false

namespace LuaChunk

namespace Lexer

theorem scan_shortens {l l' : Lexer} {t : Token} (h : scan l = .ok t l') (ht : t.kind ≠ .eos) :
    l'.input.length < l.input.length := by
  rw [scan_result] at h
  cases hs : Reader.read l.input l.line with
  | error f =>
    rw [hs] at h
    cases h
  | ok r =>
    obtain ⟨x, c⟩ := r
    rw [hs] at h
    dsimp only at h
    cases hu : l.unread? c.rest with
    | some e =>
      rw [hu] at h
      cases h
    | none =>
      rw [hu] at h
      cases h
      refine (Scan.scan_progress (Reader.scan_of_read hs)).resolve_left fun hx => ht ?_
      rw [hx.1]
      rfl

/-- A lexer with so many tokens left reaches the end of the stream after as many moves, or a
malformed token before. -/
theorem advance_ends (k : Nat) {l : Lexer} (hf : l.failure = none) (hk : l.measure ≤ k) :
    ∃ n ≤ k, Ok (advance n) l fun _ l' => l'.token.kind = .eos := by
  induction k generalizing l with
  | zero =>
    refine ⟨0, Nat.le_refl 0, ?_⟩
    show l.token.kind = .eos
    by_contra hne
    have hw : weight l.token = 1 := if_neg hne
    unfold measure at hk
    omega
  | succ k ih =>
    by_cases he : l.token.kind = .eos
    · exact ⟨0, Nat.zero_le _, he⟩
    have hw : weight l.token = 1 := if_neg he
    have hnext := next_ok hf
    cases hn : next l with
    | error e l' =>
      unfold Ok at hnext
      rw [hn] at hnext
      refine ⟨1, Nat.succ_le_succ (Nat.zero_le k), ?_⟩
      unfold Ok advance
      rw [bind_error hn]
      exact hnext
    | ok a l' =>
      unfold Ok at hnext
      rw [hn] at hnext
      have hmoves := hnext.measure
      obtain ⟨n, hle, hends⟩ := ih hnext.failure (by omega)
      refine ⟨n + 1, Nat.succ_le_succ hle, ?_⟩
      unfold Ok advance
      rw [bind_eq hn]
      exact hends

/-- From the start of a source it takes at most one move more than the source has bytes. -/
theorem start_ends (source chunk : Bytes) (table : Interner) :
    ∃ n, 0 < n ∧ n ≤ source.length + 1 ∧ Ok (advance n) (start source chunk table none) fun _ l =>
      l.token.kind = .eos := by
  have hf : (start source chunk table none).failure = none := rfl
  have hmeasure : (start source chunk table none).measure ≤ source.length := tokensOf_le _ source 1
  generalize start source chunk table none = l at hf hmeasure ⊢
  have hnext := next_ok hf
  cases hn : next l with
  | error e l' =>
    unfold Ok at hnext
    rw [hn] at hnext
    refine ⟨1, Nat.one_pos, Nat.succ_le_succ (Nat.zero_le _), ?_⟩
    unfold Ok advance
    rw [bind_error hn]
    exact hnext
  | ok a l' =>
    unfold Ok at hnext
    rw [hn] at hnext
    have hmoves := hnext.measure
    obtain ⟨n, hle, hends⟩ := advance_ends source.length hnext.failure (by omega)
    refine ⟨n + 1, Nat.succ_pos n, Nat.succ_le_succ hle, ?_⟩
    unfold Ok advance
    rw [bind_eq hn]
    exact hends

end Lexer

namespace Compile

/-- An action that goes at most `n` levels deeper, and comes back to its own level unless it
fails. -/
def Shallow {α : Type} (n : Nat) (s : State) : EStateM.Result Failure State α → Prop
  | .ok _ t => t.depth = s.depth ∧ t.deepest ≤ max s.deepest (s.depth + n)
  | .error _ t => t.deepest ≤ max s.deepest (s.depth + n)

section

variable {α β : Type} {m n : Nat} {s : State}

theorem Shallow.deepest {r : EStateM.Result Failure State α} (h : Shallow n s r) :
    (final r).deepest ≤ max s.deepest (s.depth + n) := by
  cases r with
  | ok a t => exact h.2
  | error e t => exact h

theorem Shallow.mono {r : EStateM.Result Failure State α} (h : Shallow m s r) (hle : m ≤ n) :
    Shallow n s r := by
  have hmax : max s.deepest (s.depth + m) ≤ max s.deepest (s.depth + n) := by omega
  cases r with
  | ok a t => exact ⟨h.1, h.2.trans hmax⟩
  | error e t => exact Nat.le_trans h hmax

theorem Shallow.of_level {r : EStateM.Result Failure State α}
    (h : (final r).depth = s.depth ∧ (final r).deepest = s.deepest) :
    Shallow n s r := by
  cases r with
  | ok a t => exact ⟨h.1, (Nat.le_of_eq h.2).trans (Nat.le_max_left ..)⟩
  | error e t => exact (Nat.le_of_eq h.2).trans (Nat.le_max_left ..)

theorem Shallow.bind {x : M α} {f : α → M β} (h : Shallow n s (x s))
    (hf : ∀ a t, x s = .ok a t → Shallow n t (f a t)) :
    Shallow n s ((x >>= f) s) := by
  cases hx : x s with
  | error e t =>
    rw [hx] at h
    change Shallow n s (EStateM.bind x f s)
    unfold EStateM.bind
    rw [hx]
    exact h
  | ok a t =>
    rw [hx] at h
    rw [bind_eq hx]
    obtain ⟨hdepth, hdeepest⟩ := h
    have hrest := hf a t hx
    cases hr : f a t with
    | ok b u =>
      rw [hr] at hrest
      obtain ⟨hdepth', hdeepest'⟩ := hrest
      exact ⟨hdepth'.trans hdepth, by omega⟩
    | error e u =>
      rw [hr] at hrest
      have hdeepest' : u.deepest ≤ max t.deepest (t.depth + n) := hrest
      show u.deepest ≤ _
      omega

theorem Single.shallow {P : α → Prop} {x : M α} (h : Single P x) (hs : s.Clean) :
    Shallow n s (x s) := by
  refine .of_level ?_
  cases hx : x s with
  | ok a t => exact (h.ok s a t hs hx).2.2.level
  | error e t => exact (h.error s e t hs hx).1.level

theorem shallow_onLexer {act : Lexer.M α} : Shallow n s (onLexer act s) := by
  refine .of_level ?_
  unfold onLexer
  dsimp only
  cases act s.lexer <;> exact ⟨rfl, rfl⟩

theorem Shallow.enclosing {x : M α} {b : Builder} {rest : List Builder} (ho : s.outer = b :: rest)
    (h : Shallow n { s with fn := b, outer := rest } (x { s with fn := b, outer := rest })) :
    Shallow n s (inEnclosing x s) := by
  rw [inEnclosing_cons ho]
  cases hx : x { s with fn := b, outer := rest } <;> rw [hx] at h <;> exact h

theorem Shallow.metered {x : M α} (h : Shallow n s.deeper (x s.deeper)) :
    Shallow (n + 1) s (metered x s) := by
  have hmax : max s.deeper.deepest (s.deeper.depth + n) = max s.deepest (s.depth + (n + 1)) := by
    show max (max s.deepest (s.depth + 1)) (s.depth + 1 + n) = _
    omega
  change Shallow (n + 1) s (EStateM.bind x (fun a => leaveLevel >>= fun _ => pure a) s.deeper)
  unfold EStateM.bind
  cases hx : x s.deeper with
  | error e t =>
    rw [hx] at h
    exact Nat.le_trans h (Nat.le_of_eq hmax)
  | ok a t =>
    rw [hx] at h
    obtain ⟨hdepth, hdeepest⟩ := h
    refine ⟨?_, hdeepest.trans (Nat.le_of_eq hmax)⟩
    show t.depth - 1 = s.depth
    rw [hdepth]
    exact Nat.add_sub_cancel ..

theorem Shallow.nested {x : M α} (line : Nat) (h : Shallow n (s.nest line) (x (s.nest line))) :
    Shallow n s ((do
      nest line
      let a ← x
      attach
      return a : M α) s) := by
  change Shallow n (s.nest line) ((x >>= fun a => attach >>= fun _ => pure a) (s.nest line))
  refine .bind h fun a t _ => .bind (.of_level ?_) fun _ u _ => .of_level ⟨rfl, rfl⟩
  cases ho : t.outer with
  | nil =>
    rw [attach_nil ho]
    exact ⟨rfl, rfl⟩
  | cons b rest =>
    rw [attach_cons ho]
    exact ⟨rfl, rfl⟩

theorem Built.shallow {levels : Option Nat} {P : α → Prop} {x : M α} (h : Built levels P x)
    (hs : s.Clean) :
    Shallow (levels.getD 0) s (x s) := by
  induction h generalizing s with
  | single h => exact h.shallow hs
  | bind hm hf ihm ihf =>
    refine .bind (ihm hs) fun a t hr => ?_
    obtain ⟨ha, ht⟩ := hm.clean hs hr
    exact ihf a ha ht
  | get hf hc ih => exact ih s hs hs
  | next => exact shallow_onLexer
  | lookahead => exact shallow_onLexer
  | @loop levels _ _ P Q turn b hb ht ih =>
    change Shallow (levels.getD 0) s (iterate turn s.bound b s)
    generalize s.bound = k
    induction k generalizing b s with
    | zero => exact .of_level ⟨rfl, rfl⟩
    | succ k ihk =>
      change Shallow (levels.getD 0) s ((turn b >>= _) s)
      refine .bind (ih b hb hs) fun r t hr => ?_
      obtain ⟨hr', ht'⟩ := (ht b hb).clean hs hr
      cases r with
      | again b' =>
        refine .bind ((single_checkAdvance _).shallow ht') fun _ u hu => ?_
        obtain ⟨-, rfl⟩ := ok_of_checkAdvance hu
        exact ihk hr' ht'
      | done b' => exact .of_level ⟨rfl, rfl⟩
  | enclosing h ih =>
    cases ho : s.outer with
    | nil =>
      rw [inEnclosing_nil ho]
      exact .of_level ⟨rfl, rfl⟩
    | cons b rest => exact (Shallow.enclosing ho (ih (hs.leave ho))).mono (Nat.zero_le _)
  | metered h ih => exact .metered (ih (s := s.deeper) (hs.atLevel _ _))
  | nested line h ih => exact .nested line (ih (hs.nest line))

theorem mainFunction_shallow (o : Options) (source : Bytes) :
    Shallow maxNesting (initial o source).started (mainFunction (initial o source)) := by
  rw [mainFunction_started]
  exact (Acts.nesting maxNesting).shallow (started_clean o source)

end

end Compile

open Compile

/-- How deep the parsers are nested during a compilation, and that none is left running after one
that succeeds. -/
theorem run_levels (o : Options) (source : Bytes) :
    (run o source).deepest ≤ maxNesting ∧ ∀ p, (run o source).result = .ok p →
      (run o source).depth = 0 := by
  have hshallow := mainFunction_shallow o source
  have hdeepest : max (initial o source).started.deepest
      ((initial o source).started.depth + maxNesting) = maxNesting := rfl
  unfold run
  generalize mainFunction (initial o source) = r at hshallow ⊢
  cases r with
  | ok a t => exact ⟨hdeepest ▸ hshallow.2, fun _ _ => hshallow.1⟩
  | error e t => exact ⟨hdeepest ▸ hshallow.deepest, nofun⟩

/-- Compiling ends on every source. Each token but the end of the stream takes some of the input,
and the end, or a malformed token, is reached by at most one move more than the source has bytes.
Each turn of a loop takes a token, and no loop runs out of turns: neither assertion is ever broken.
The parsers of a level are those of the next one run one level deeper, and at the last level they
refuse; so there are never more than `maxNesting` levels, and a compilation that succeeds has left
them all. -/
theorem compile_terminates (chunk source : Bytes) :
    (∀ l t l', Lexer.scan l = .ok t l' → t.kind ≠ .eos → l'.input.length < l.input.length) ∧
    (∃ n, 0 < n ∧ n ≤ source.length + 1 ∧
      Ok (Lexer.advance n) (.start source chunk .empty none) fun _ l => l.token.kind = .eos) ∧
    (∀ a : Assertion, compile chunk source ≠ .error (.broken a)) ∧
    (run { chunk } source).deepest ≤ maxNesting ∧
    ∀ p, compile chunk source = .ok p → (run { chunk } source).depth = 0 := by
  obtain ⟨hdeepest, hdepth⟩ := run_levels { chunk } source
  refine ⟨fun l t l' => Lexer.scan_shortens, Lexer.start_ends source chunk .empty, fun a ha => ?_,
    hdeepest, hdepth⟩
  obtain ⟨e, he⟩ := error_of_compile ha
  cases he

end LuaChunk
