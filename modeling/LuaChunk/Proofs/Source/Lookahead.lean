import Mathlib
import LuaChunk.Proofs.Source.Stream

/-!
Looking ahead. A lexer that looks ahead after some of its tokens is run beside one that never does.
Both see the same tokens on the same lines, and fail in the same way. What differs is the line of
the last token that was passed: after looking ahead it is the line of the token that was looked at.
-/

set_option autoImplicit false

namespace LuaChunk

namespace Lexer

/-- What there is to see right after moving to a token, and the kind of the token after it if it was
looked at. -/
structure Sight where
  token : Token
  line : Nat
  lastLine : Nat
  ahead : Option TokenKind

/-- The token and its line. -/
def Sight.place (s : Sight) : Token × Nat := (s.token, s.line)

def sight (l : Lexer) (ahead : Option TokenKind) : Sight := ⟨l.token, l.line, l.lastLine, ahead⟩

/-- Moves to a token for each flag, and looks ahead after it where the flag says so, until something
fails. -/
def sights : List Bool → Lexer → List Sight × Option Failure
  | [], _ => ([], none)
  | peek :: rest, l =>
    match next l with
    | .error e _ => ([], some e)
    | .ok () l =>
      if peek then
        match lookahead l with
        | .error e _ => ([l.sight none], some e)
        | .ok k l' => (l.sight (some k) :: (sights rest l').1, (sights rest l').2)
      else (l.sight none :: (sights rest l).1, (sights rest l).2)

variable {l l' p p' : Lexer} {t : Token} {peeks rest : List Bool} {peek : Bool}

/-- The lexers stand at the same place of the same input. -/
structure Alike (l p : Lexer) : Prop where
  input : l.input = p.input
  line : l.line = p.line
  numberOf : l.numberOf = p.numberOf
  source : l.source = p.source
  failure : l.failure = p.failure

theorem Alike.refl (l : Lexer) : Alike l l := ⟨rfl, rfl, rfl, rfl, rfl⟩

theorem bind_error {α β : Type} {m : M α} {f : α → M β} {e : Failure} (h : m l = .error e l') :
    (m >>= f) l = .error e l' := by
  show EStateM.bind m f l = _
  unfold EStateM.bind
  rw [h]

theorem checkRead_alike (h : Alike l p) (rest : Bytes) :
    checkRead rest l = .ok () l ∧ checkRead rest p = .ok () p ∨
      ∃ e, checkRead rest l = .error e l ∧ checkRead rest p = .error e p := by
  have hget (l : Lexer) : (get : M Lexer) l = .ok l l := rfl
  unfold checkRead
  rw [bind_eq (hget l), bind_eq (hget p)]
  cases rest with
  | cons => exact .inl ⟨rfl, rfl⟩
  | nil =>
    rw [h.failure]
    cases p.failure with
    | none => exact .inl ⟨rfl, rfl⟩
    | some failure =>
      refine .inr ⟨readFailure l.source failure, rfl, ?_⟩
      rw [h.source]
      rfl

theorem scan_alike (h : Alike l p) :
    (∃ e, scan l = .error e l ∧ scan p = .error e p) ∨
    ∃ (t : Token) (c : Scan.Cursor) (noted noted' : Array Bytes),
      scan l = .ok t { l with input := c.rest, line := c.line, noted := noted } ∧
      scan p = .ok t { p with input := c.rest, line := c.line, noted := noted' } := by
  rw [scan_step, scan_step, h.input, h.line]
  cases Reader.read p.input p.line with
  | error f =>
    obtain ⟨hl, hp⟩ | ⟨e, hl, hp⟩ := checkRead_alike h f.place.rest
    · refine .inl ⟨_, bind_eq hl, ?_⟩
      rw [h.source]
      exact bind_eq hp
    · exact .inl ⟨e, bind_error hl, bind_error hp⟩
  | ok r =>
    obtain ⟨x, c⟩ := r
    obtain ⟨hl, hp⟩ | ⟨e, hl, hp⟩ := checkRead_alike h c.rest
    · refine .inr ⟨tokenOf p.numberOf x, c, ?_⟩
      dsimp only
      rw [bind_eq hl, bind_eq hp,
        show tokenOf l.numberOf x = tokenOf p.numberOf x by rw [h.numberOf]]
      cases internedText? x with
      | none => exact ⟨_, _, rfl, rfl⟩
      | some w => exact ⟨_, _, rfl, rfl⟩
    · exact .inl ⟨e, bind_error hl, bind_error hp⟩

theorem next_none (hl : l.ahead = none) (h : scan l.counted = .ok t l') :
    next l = .ok () { l' with token := t } := by
  rw [next_step, hl]
  exact bind_eq h

theorem next_none_error {e : Failure} (hl : l.ahead = none)
    (h : scan l.counted = .error e l') : next l = .error e l' := by
  rw [next_step, hl]
  exact bind_error h

/-- The first lexer may have looked ahead, and then has the token that the second one is about to
read. -/
inductive Abreast (l p : Lexer) : Prop
  | level (h : Alike l p) (hl : l.ahead = none) (hp : p.ahead = none)
  | ahead (t : Token) (p' : Lexer) (hs : scan p = .ok t p') (h : Alike l p') (hl : l.ahead = some t)
    (hp : p.ahead = none)

theorem Abreast.next (h : Abreast l p) :
    (∃ e l' p', next l = .error e l' ∧ next p = .error e p') ∨
    ∃ l' p', next l = .ok () l' ∧ next p = .ok () p' ∧ Alike l' p' ∧ l'.ahead = none ∧
      p'.ahead = none ∧ l'.token = p'.token := by
  have hpass (q : Lexer) : Alike q q.counted := ⟨rfl, rfl, rfl, rfl, rfl⟩
  cases h with
  | level h hl hp =>
    have h' : Alike l.counted p.counted :=
      ⟨h.input, h.line, h.numberOf, h.source, h.failure⟩
    obtain ⟨e, hsl, hsp⟩ | ⟨t, c, noted, noted', hsl, hsp⟩ := scan_alike h'
    · exact .inl ⟨e, _, _, next_none_error hl hsl, next_none_error hp hsp⟩
    · exact .inr ⟨_, _, next_none hl hsl, next_none hp hsp,
        ⟨rfl, rfl, h.numberOf, h.source, h.failure⟩, hl, hp, rfl⟩
  | ahead t p' hs h hl hp =>
    obtain ⟨e, hsp, -⟩ | ⟨t', c, noted, noted', hsp, hsp'⟩ := scan_alike (hpass p)
    · rw [hs] at hsp
      cases hsp
    · rw [hs] at hsp
      cases hsp
      refine .inr ⟨{ l.counted with token := t, ahead := none }, _, ?_,
        next_none hp hsp', ⟨h.input, h.line, h.numberOf, h.source, h.failure⟩, rfl, hp, rfl⟩
      rw [next_step, hl]
      rfl

theorem Alike.lookahead (h : Alike l p) (hl : l.ahead = none) (hp : p.ahead = none) :
    (∃ e l' p', lookahead l = .error e l' ∧ Lexer.next p = .error e p') ∨
    ∃ k l', lookahead l = .ok k l' ∧ Abreast l' p := by
  rw [lookahead_step, hl]
  dsimp only
  obtain ⟨e, hsl, -⟩ | ⟨t, c, noted, noted', hsl, hsp⟩ := scan_alike h
  · have h' : Alike l p.counted :=
      ⟨h.input, h.line, h.numberOf, h.source, h.failure⟩
    obtain ⟨e', hsl', hsp⟩ | ⟨t', c', noted, noted', hsl', -⟩ := scan_alike h'
    · exact .inl ⟨e', l, _, bind_error hsl', next_none_error hp hsp⟩
    · rw [hsl] at hsl'
      cases hsl'
  · exact .inr ⟨t.kind, _, bind_eq hsl,
      .ahead t _ hsp ⟨rfl, rfl, h.numberOf, h.source, h.failure⟩ rfl hp⟩

theorem sights_error {e : Failure} (h : next l = .error e l') :
    sights (peek :: rest) l = ([], some e) := by
  rw [sights, h]

theorem sights_still (h : next l = .ok () l') :
    sights (false :: rest) l = (l'.sight none :: (sights rest l').1, (sights rest l').2) := by
  rw [sights, h]
  rfl

theorem sights_peek {k : TokenKind} {l'' : Lexer} (h : next l = .ok () l')
    (hk : lookahead l' = .ok k l'') :
    sights (true :: rest) l = (l'.sight (some k) :: (sights rest l'').1, (sights rest l'').2) := by
  rw [sights, h]
  dsimp only
  rw [if_pos rfl, hk]

theorem sights_peek_error {e : Failure} {l'' : Lexer} (h : next l = .ok () l')
    (hk : lookahead l' = .error e l'') :
    sights (true :: rest) l = ([l'.sight none], some e) := by
  rw [sights, h]
  dsimp only
  rw [if_pos rfl, hk]

/-- The run that never looks ahead. -/
def plain (peeks : List Bool) (l : Lexer) : List Sight × Option Failure :=
  sights (peeks.map fun _ => false) l

theorem plain_error {e : Failure} (h : next l = .error e l') :
    plain (peek :: rest) l = ([], some e) := sights_error h

theorem plain_ok (h : next l = .ok () l') :
    plain (peek :: rest) l = (l'.sight none :: (plain rest l').1, (plain rest l').2) :=
      sights_still h

/-- The failure is that of the run without looking ahead. Where the last thing was to look ahead,
that run meets it when it moves on. -/
def FailsWith (peeks : List Bool) (p : Lexer) (e : Option Failure) : Prop :=
  e = (plain peeks p).2 ∨ peeks.getLast? = some true ∧ (plain peeks p).2 = none ∧
    e = (plain (peeks ++ [false]) p).2

theorem FailsWith.cons {e : Option Failure} (hn : next p = .ok () p') (h : FailsWith rest p' e) :
    FailsWith (peek :: rest) p e := by
  unfold FailsWith
  rw [List.cons_append, plain_ok hn, plain_ok hn]
  refine h.imp_right fun ⟨hlast, hnone, he⟩ => ⟨?_, hnone, he⟩
  rw [List.getLast?_cons, hlast]
  rfl

theorem Abreast.sights (h : Abreast l p) (peeks : List Bool) :
    (Lexer.sights peeks l).1.map Sight.place = (plain peeks p).1.map Sight.place ∧
      FailsWith peeks p (Lexer.sights peeks l).2 := by
  induction peeks generalizing l p with
  | nil => exact ⟨rfl, .inl rfl⟩
  | cons peek rest ih =>
    obtain ⟨e, l', p', hl, hp⟩ | ⟨l', p', hl, hp, halike, hal, hap, htoken⟩ := h.next
    · rw [sights_error hl, plain_error hp]
      exact ⟨rfl, .inl (by rw [plain_error hp])⟩
    have hplace (k : Option TokenKind) : (l'.sight k).place = (p'.sight none).place :=
      Prod.ext htoken halike.line
    cases peek with
    | false =>
      obtain ⟨hplaces, hfails⟩ := ih (.level halike hal hap)
      rw [sights_still hl, plain_ok hp, List.map_cons, List.map_cons, hplaces, hplace]
      exact ⟨rfl, hfails.cons hp⟩
    | true =>
      obtain ⟨e, l'', p'', hk, hn⟩ | ⟨k, l'', hk, habreast⟩ := halike.lookahead hal hap
      · -- the token after this one cannot be read
        rw [sights_peek_error hl hk, plain_ok hp, List.map_singleton, List.map_cons, hplace]
        cases rest with
        | nil =>
          exact ⟨rfl,
            .inr
            ⟨rfl, by rw [plain_ok hp]; rfl,
              by rw [List.singleton_append, plain_ok hp, plain_error hn]⟩⟩
        | cons =>
          exact ⟨by rw [plain_error hn]; rfl, FailsWith.cons hp (.inl (by rw [plain_error hn]))⟩
      · obtain ⟨hplaces, hfails⟩ := ih habreast
        rw [sights_peek hl hk, plain_ok hp, List.map_cons, List.map_cons, hplaces, hplace]
        exact ⟨rfl, hfails.cons hp⟩

/-- How a sight goes on from the one before. The line of the last token that was passed is the line
of that token, but after looking ahead it is the line of the token that was looked at. -/
def Sight.Before (s s' : Sight) : Prop :=
  match s.ahead with
  | none => s'.lastLine = s.line
  | some k => s'.lastLine = s'.line ∧ s'.token.kind = k

/-- What the first sight of a run is, given the lexer. -/
structure Sight.Starts (l : Lexer) (s : Sight) : Prop where
  lastLine : s.lastLine = l.line
  ahead : ∀ t, l.ahead = some t → s.token = t ∧ s.line = l.line

theorem starts_next (h : next l = .ok () l') (k : Option TokenKind) : (l'.sight k).Starts l ∧
    l'.ahead = none := by
  cases ha : l.ahead with
  | some t =>
    rw [next_step, ha] at h
    cases h
    exact ⟨⟨rfl, fun t' ht => ⟨Option.some.inj (ha.symm.trans ht), rfl⟩⟩, rfl⟩
  | none =>
    obtain ⟨e, hs, -⟩ | ⟨t, c, noted, -, hs, -⟩ := scan_alike (.refl l.counted)
    · rw [next_none_error ha hs] at h
      cases h
    · rw [next_none ha hs] at h
      cases h
      exact ⟨⟨rfl, fun t' ht => absurd (ha.symm.trans ht) nofun⟩, ha⟩

theorem lookahead_ok_ahead {k : TokenKind} (hl : l.ahead = none) (h : lookahead l = .ok k l') :
    ∃ t, l'.ahead = some t ∧ t.kind = k := by
  rw [lookahead_step, hl] at h
  obtain ⟨e, hs, -⟩ | ⟨t, c, noted, -, hs, -⟩ := scan_alike (.refl l)
  · cases (bind_error hs).symm.trans h
  · cases (bind_eq hs).symm.trans h
    exact ⟨t, rfl, rfl⟩

theorem isChain_sights (l : Lexer) (peeks : List Bool) :
    (∀ s ∈ (sights peeks l).1.head?, s.Starts l) ∧ (sights peeks l).1.IsChain Sight.Before := by
  induction peeks generalizing l with
  | nil => exact ⟨fun s hs => absurd hs (Option.not_mem_none s), .nil⟩
  | cons peek rest ih =>
    cases hn : next l with
    | error e l' =>
      rw [sights_error hn]
      exact ⟨fun s hs => absurd hs (Option.not_mem_none s), .nil⟩
    | ok _ l' =>
      obtain ⟨hstarts, hl'⟩ := starts_next hn none
      cases peek with
      | false =>
        obtain ⟨hhead, hchain⟩ := ih l'
        rw [sights_still hn]
        exact ⟨fun s hs => Option.some.inj hs ▸ hstarts, hchain.cons fun s hs =>
          (hhead s hs).lastLine⟩
      | true =>
        cases hk : lookahead l' with
        | error e l'' =>
          rw [sights_peek_error hn hk]
          exact ⟨fun s hs => Option.some.inj hs ▸ hstarts, .singleton _⟩
        | ok k l'' =>
          obtain ⟨hhead, hchain⟩ := ih l''
          obtain ⟨t, ht, hkind⟩ := lookahead_ok_ahead hl' hk
          rw [sights_peek hn hk]
          refine ⟨fun s hs => Option.some.inj hs ▸ (starts_next hn _).1, hchain.cons fun s hs => ?_⟩
          have hs := hhead s hs
          obtain ⟨htoken, hline⟩ := hs.ahead t ht
          exact ⟨hs.lastLine.trans hline.symm, htoken ▸ hkind⟩

theorem ahead_sights {i : Nat} {s : Sight} (hs : (sights peeks l).1[i]? = some s)
    (hi : i + 1 < (sights peeks l).1.length) :
    peeks[i]? = some s.ahead.isSome := by
  induction peeks generalizing l i with
  | nil => cases hs
  | cons peek rest ih =>
    cases hn : next l with
    | error e l' =>
      rw [sights_error hn] at hs
      cases hs
    | ok _ l' =>
      cases peek with
      | false =>
        rw [sights_still hn] at hs hi
        cases i with
        | zero => cases hs; rfl
        | succ i => exact ih hs (Nat.lt_of_succ_lt_succ hi)
      | true =>
        cases hk : lookahead l' with
        | error e l'' =>
          rw [sights_peek_error hn hk] at hi
          simp at hi
        | ok k l'' =>
          rw [sights_peek hn hk] at hs hi
          cases i with
          | zero => cases hs; rfl
          | succ i => exact ih hs (Nat.lt_of_succ_lt_succ hi)

theorem ahead_plain (l : Lexer) (peeks : List Bool) : ∀ s ∈ (plain peeks l).1, s.ahead = none := by
  induction peeks generalizing l with
  | nil => exact fun s hs => absurd hs List.not_mem_nil
  | cons peek rest ih =>
    cases hn : next l with
    | error e l' =>
      rw [plain_error hn]
      exact fun s hs => absurd hs List.not_mem_nil
    | ok _ l' =>
      rw [plain_ok hn]
      exact List.forall_mem_cons.2 ⟨rfl, ih l'⟩

/-- Whoever looks ahead sees the same tokens on the same lines and fails in the same way. A look
ahead tells the kind of the token that is moved to next, whose own line then stands as that of the
last token that was passed. -/
theorem sights_peeking (input source : Bytes) (table : Interner) (failure : Option Bytes)
    (peeks : List Bool) :
    let l := start input source table failure
    (sights peeks l).1.map Sight.place = (plain peeks l).1.map Sight.place ∧
      FailsWith peeks l (sights peeks l).2 ∧
      (sights peeks l).1.IsChain Sight.Before ∧
      (∀ (i : Nat) (s : Sight), (sights peeks l).1[i]? = some s →
      i + 1 < (sights peeks l).1.length →
        peeks[i]? = some s.ahead.isSome) ∧
      (plain peeks l).1.IsChain fun s s' => s'.lastLine = s.line := by
  intro l
  obtain ⟨hplaces, hfails⟩ := (Abreast.level (.refl l) rfl rfl).sights peeks
  refine ⟨hplaces, hfails, (isChain_sights l peeks).2, fun i s hs hi => ahead_sights hs hi, ?_⟩
  refine (isChain_sights l _).2.imp_of_mem_imp fun s s' hs _ hbefore => ?_
  unfold Sight.Before at hbefore
  rw [ahead_plain l peeks s hs] at hbefore
  exact hbefore

/-- Where a newline stands between two tokens, looking ahead changes the line of the last token that
was passed. -/
theorem sights_lastLine_differs :
    ¬∀ (input source : Bytes) (table : Interner) (failure : Option Bytes) (peeks : List Bool),
      let l := start input source table failure
      (sights peeks l).1.map (·.lastLine) = (plain peeks l).1.map (·.lastLine) := by
  intro h
  have hpeeking (numberOf : Bytes → Nat) :
      (sights [true, false] { input := utf8 "a\nb", numberOf, source := [] }).1.map (·.lastLine) =
        [1, 2] := by cbv
  have hplain (numberOf : Bytes → Nat) :
      (plain [true, false] { input := utf8 "a\nb", numberOf, source := [] }).1.map (·.lastLine) =
        [1, 1] := by cbv
  have hsame := h (utf8 "a\nb") [] .empty none [true, false]
  exact absurd ((hpeeking _).symm.trans (hsame.trans (hplain _))) (by decide)

end Lexer

end LuaChunk
