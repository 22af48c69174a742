import LuaChunk.Proofs.Source.Progress

set_option autoImplicit false

namespace LuaChunk

namespace Token

/-- The token without its spelling. -/
def bare : Token → Token
  | .float x _ => .float x []
  | .integer n _ => .integer n []
  | .string s _ => .string s []
  | t => t

/-- The token without its spelling and without the text of a name. -/
def shape : Token → Token
  | .name _ => .name []
  | t => t.bare

theorem kind_bare (t : Token) : t.bare.kind = t.kind := by cases t <;> rfl

theorem kind_shape (t : Token) : t.shape.kind = t.kind := by cases t <;> rfl

theorem shape_of_bare {t t' : Token} (h : t'.bare = t.bare) : t'.shape = t.shape := by
  cases t <;> cases t' <;> cases h <;> rfl

end Token

namespace Keyword

/-- The number of a reserved word, zero for all other words. -/
def number (s : Bytes) : Nat :=
  match words.idxOf? s with
  | some i => i + 1
  | none => 0

end Keyword

namespace Interner

theorem reservedIndex_mark (t : Interner) (w s : Bytes) (n : Nat) :
    (t.mark w n).reservedIndex s = if w = s then n else t.reservedIndex s := by
  unfold reservedIndex
  rw [lookup?_mark]
  split <;> rfl

theorem reservedIndex_foldl (ws : List (Bytes × Nat)) (t : Interner) (s : Bytes) :
    (ws.foldl (fun t (w, i) => t.mark w (i + 1)) t).reservedIndex s
      = match ws.reverse.find? (·.1 == s) with
        | some (_, i) => i + 1
        | none => t.reservedIndex s := by
  induction ws generalizing t with
  | nil => rfl
  | cons p ws ih =>
    rw [List.foldl_cons, ih, List.reverse_cons, List.find?_append]
    cases ws.reverse.find? (·.1 == s) with
    | some q => rfl
    | none =>
      simp only [Option.none_or, List.find?_singleton, reservedIndex_mark]
      by_cases h : p.1 = s <;> simp [h]

/-- Reserved words have their numbers once they are marked, and all other texts keep theirs. -/
theorem reservedIndex_markAll_words (t : Interner) (s : Bytes) :
    (t.markAll Keyword.words).reservedIndex s = if s ∈ Keyword.words then Keyword.number s
      else t.reservedIndex s := by
  unfold markAll
  rw [reservedIndex_foldl]
  by_cases hs : s ∈ Keyword.words
  · have hfind := (show ∀ w ∈ Keyword.words,
      (Keyword.words.zipIdx.reverse.find? (·.1 == w)).map (·.2 + 1) =
      some (Keyword.number w) by decide) s hs
    obtain ⟨p, hp, hnumber⟩ := Option.map_eq_some_iff.1 hfind
    rw [hp, if_pos hs]
    exact hnumber
  · have hfind : Keyword.words.zipIdx.reverse.find? (·.1 == s) = none := by
      refine List.find?_eq_none.2 fun p hp he => hs ?_
      rw [← eq_of_beq he]
      exact List.fst_mem_of_mem_zipIdx (List.mem_reverse.1 hp)
    rw [hfind, if_neg hs]

theorem reservedIndex_markAll : (empty.markAll Keyword.words).reservedIndex = Keyword.number := by
  funext s
  rw [reservedIndex_markAll_words]
  split
  · rfl
  · rename_i hs
    rw [Keyword.number, List.idxOf?_eq_none_iff.2 hs]
    simp [reservedIndex, lookup?, handle?, empty]

end Interner

namespace Scan

/-- What a lexeme is before the input ends: a word is made of the bytes of names. -/
def Lexeme.Proper : Lexeme → Prop
  | .eos => False
  | .word w => ∀ b ∈ w, isNameByte b = true
  | _ => True

def Proper (r : Except Fault (Lexeme × Cursor)) : Prop := ∀ x c, r = .ok (x, c) → x.Proper

theorem Proper.ite {p : Prop} [Decidable p] {r r' : Except Fault (Lexeme × Cursor)}
    (h : p → Proper r) (h' : ¬ p → Proper r') : Proper (if p then r else r') := by
  split
  · exact h ‹_›
  · exact h' ‹_›

theorem Proper.ok {x : Lexeme} {c : Cursor} (h : x.Proper) : Proper (.ok (x, c)) := by
  rintro _ _ ⟨⟩
  exact h

theorem Proper.error (f : Fault) : Proper (.error f) := nofun

theorem proper_numeral (start : Bytes) (first : UInt8) (rest : Bytes) (line : Nat) :
    Proper (numeral start first rest line) := by
  unfold numeral
  simp only
  split
  · exact .ok trivial
  · exact .error _

theorem proper_bracket (rest : Bytes) (line : Nat) : Proper (bracket rest line) := by
  unfold bracket
  split
  · split
    · exact .ok trivial
    · exact .error _
  · exact .ite (fun _ => .ok trivial) fun _ => .error _

theorem proper_twoBytes (b second : UInt8) (double : Symbol) (rest : Bytes) (line : Nat) :
    Proper (.ok (twoBytes b second double rest line)) := by
  unfold twoBytes
  split
  · split <;> exact .ok trivial
  · exact .ok trivial

theorem proper_twoBytesOf (b : UInt8) (table : List (UInt8 × Symbol)) (rest : Bytes) (line : Nat) :
    Proper (.ok (twoBytesOf b table rest line)) := by
  unfold twoBytesOf
  split
  · split <;> exact .ok trivial
  · exact .ok trivial

theorem proper_points (rest : Bytes) (line : Nat) : Proper (points rest line) := by
  unfold points
  split
  · refine .ite (fun _ => ?_) fun _ => .ite (fun _ => proper_numeral _ _ _ _) fun _ => .ok trivial
    split
    · exact .ite (fun _ => .ok trivial) fun _ => .ok trivial
    · exact .ok trivial
  · exact .ok trivial

theorem proper_lexeme (b : UInt8) (rest : Bytes) (line : Nat) :
    Proper (lexeme (b :: rest) line) := by
  refine .ite (fun _ => proper_bracket _ _) fun _ =>
    .ite (fun _ => proper_twoBytes _ _ _ _ _) fun _ => ?_
  refine .ite (fun _ => proper_twoBytesOf _ _ _ _) fun _ =>
    .ite (fun _ => proper_twoBytesOf _ _ _ _) fun _ => ?_
  refine .ite (fun _ => proper_twoBytes _ _ _ _ _) fun _ =>
    .ite (fun _ => proper_twoBytes _ _ _ _ _) fun _ => ?_
  refine .ite (fun _ => proper_twoBytes _ _ _ _ _) fun _ => .ite (fun _ => ?_) fun _ => ?_
  · cases quotedText b rest line [b] with
    | ok r => exact .ok trivial
    | error f => exact .error f
  · refine .ite (fun _ => proper_points _ _) fun _ =>
      .ite (fun _ => proper_numeral _ _ _ _) fun _ => ?_
    exact .ite (fun _ => .ok (List.all_eq_true.1 List.all_takeWhile)) fun _ => .ok trivial

theorem scan_ended_or_proper {s : Bytes} {line : Nat} {x : Lexeme} {c : Cursor}
    (h : scan s line = .ok (x, c)) : x = .eos ∧ c.rest = [] ∨ x.Proper := by
  unfold scan at h
  split at h
  · rename_i c' _
    cases hr : c'.rest with
    | nil =>
      rw [hr] at h
      cases h
      exact .inl ⟨rfl, rfl⟩
    | cons b rest =>
      rw [hr] at h
      exact .inr (proper_lexeme b rest _ x c h)
  · cases h

end Scan

theorem Reader.scan_nil (line : Nat) : scan [] line = .ok (.eos, ⟨[], line⟩) := by
  unfold scan
  rw [next_eq]
  rfl

namespace Lexer

inductive Reads (numberOf : Bytes → Nat) : (input : Bytes) → (line : Nat) → List Token → Prop
  | eos {input : Bytes} {line : Nat} {c : Scan.Cursor}
    (h : Reader.scan input line = .ok (.eos, c)) :
    Reads numberOf input line []
  | token {input : Bytes} {line : Nat} {x : Scan.Lexeme} {c : Scan.Cursor} {ts : List Token}
    (h : Reader.scan input line = .ok (x, c)) (hx : x.Proper)
    (hr : Reads numberOf c.rest c.line ts) :
    Reads numberOf input line (tokenOf numberOf x :: ts)

/-- The tokens of an input, if none of them is malformed; each takes at least one byte. -/
def tokensFrom? (numberOf : Bytes → Nat) : (fuel : Nat) → (input : Bytes) → (line : Nat) →
    Option (List Token)
  | 0, _, _ => none
  | fuel + 1, input, line =>
    match Reader.scan input line with
    | .error _ => none
    | .ok (.eos, _) => some []
    | .ok (x, c) => (tokensFrom? numberOf fuel c.rest c.line).map (tokenOf numberOf x :: ·)

theorem Reads.of_tokensFrom? {numberOf : Bytes → Nat} {fuel : Nat} {input : Bytes} {line : Nat}
    {ts : List Token}
    (h : tokensFrom? numberOf fuel input line = some ts) : Reads numberOf input line ts := by
  induction fuel generalizing input line ts with
  | zero => cases h
  | succ fuel ih =>
    unfold tokensFrom? at h
    split at h
    · cases h
    · cases h
      exact .eos ‹_›
    · rename_i x c hx hs
      obtain ⟨rest, hr, rfl⟩ := Option.map_eq_some_iff.1 h
      refine .token hs ?_ (ih hr)
      exact (Scan.scan_ended_or_proper (Reader.scan_eq_of_ok hs)).resolve_left fun he => hx he.1

theorem name_of_proper {numberOf : Bytes → Nat} {x : Scan.Lexeme} {name : Bytes} (hx : x.Proper)
    (h : tokenOf numberOf x = .name name) : ∀ b ∈ name, Scan.isNameByte b = true := by
  cases x with
  | word s =>
    simp only [tokenOf] at h
    split at h
    · cases h
      exact hx
    · split at h
      · rename_i k _
        cases k <;> cases h
        nofun
      · cases h
        exact hx
  | number n => cases n <;> cases h
  | _ => cases h

theorem Reads.name {numberOf : Bytes → Nat} {input : Bytes} {line : Nat} {ts : List Token}
    (h : Reads numberOf input line ts) {name : Bytes} (hn : Token.name name ∈ ts) : ∀ b ∈ name,
    Scan.isNameByte b = true := by
  induction h with
  | eos => cases hn
  | token _ hx _ ih =>
    rcases List.mem_cons.1 hn with he | hn
    · exact name_of_proper hx he.symm
    · exact ih hn

variable {l : Lexer} {ts : List Token}

/-- The tokens that a lexer has still to give after the current one. -/
def Yields (l : Lexer) (ts : List Token) : Prop :=
  match l.ahead with
  | none => Reads l.numberOf l.input l.line ts
  | some t => t = ts.headD .eos ∧ Reads l.numberOf l.input l.line ts.tail

def Kept (l l' : Lexer) : Prop :=
  l'.failure = l.failure ∧ l'.numberOf = l.numberOf ∧ l'.number = l.number ∧ l'.token = l.token ∧
    l'.ahead = l.ahead ∧ l'.bindings = l.bindings

theorem checkRead_eq {rest : Bytes} (hf : l.failure = none) : checkRead rest l = .ok () l := by
  have hget : (get : M Lexer) l = .ok l l := rfl
  unfold checkRead
  rw [bind_eq hget, hf]
  cases rest <;> rfl

theorem scan_eq (hf : l.failure = none) : scan l = (match Reader.read l.input l.line with
    | .error f => .error (.error ⟨.lexical, l.source, f.place.line, f.message, f.near⟩) l
    | .ok (x, c) => .ok (tokenOf l.numberOf x)
      { l with
        input := c.rest, line := c.line,
        noted := (internedText? x).elim l.noted l.noted.push }) := by
  rw [scan_step]
  cases Reader.read l.input l.line with
  | error f =>
    dsimp only
    rw [bind_eq (checkRead_eq hf)]
    rfl
  | ok r =>
    dsimp only
    rw [bind_eq (checkRead_eq hf)]
    cases internedText? r.1 <;> rfl

theorem scan_reads (hf : l.failure = none) (h : Reads l.numberOf l.input l.line ts) :
    ∃ l', scan l = .ok (ts.headD .eos) l' ∧ Kept l l' ∧
      Reads l'.numberOf l'.input l'.line ts.tail := by
  have hscan : ∀ {x : Scan.Lexeme} {c : Scan.Cursor}, Reader.scan l.input l.line = .ok (x, c) →
      ∃ l', scan l = .ok (tokenOf l.numberOf x) l' ∧ Kept l l' ∧ l'.input = c.rest ∧
        l'.line = c.line := by
    intro x c hs
    rw [scan_eq hf, Reader.read_eq_ok.2 hs]
    exact ⟨_, rfl, ⟨rfl, rfl, rfl, rfl, rfl, rfl⟩, rfl, rfl⟩
  cases h with
  | eos hs =>
    obtain ⟨l', hl, hk, hi, hline⟩ := hscan hs
    refine ⟨l', hl, hk, ?_⟩
    have hrest := (Scan.scan_ended_or_proper (Reader.scan_eq_of_ok hs)).elim (·.2) nofun
    rw [hi, hrest]
    exact .eos (Reader.scan_nil _)
  | token hs hx hr =>
    obtain ⟨l', hl, hk, hi, hline⟩ := hscan hs
    refine ⟨l', hl, hk, ?_⟩
    rw [hi, hline, hk.2.1]
    exact hr

/-- The lexer once its token counts as taken. -/
abbrev counted (l : Lexer) : Lexer :=
  { l with lastLine := l.line, number := l.number + 1, taken := l.taken + weight l.token }

theorem next_step (l : Lexer) : next l = (match l.ahead with
    | some t => modify fun l => { l with token := t, ahead := none }
    | none => do
      let t ← scan
      modify fun l => { l with token := t } : M Unit) l.counted := rfl

theorem lookahead_step (l : Lexer) : lookahead l = (match l.ahead with
    | some t => pure t.kind
    | none => do
      let t ← scan
      modify fun l => { l with ahead := some t }
      pure t.kind : M TokenKind) l := rfl

theorem next_yields (hf : l.failure = none) (h : l.Yields ts) :
    ∃ l', next l = .ok () l' ∧ l'.token = ts.headD .eos ∧ l'.Yields ts.tail ∧ l'.failure = none ∧
      l'.numberOf = l.numberOf ∧ l'.number = l.number + 1 ∧ l'.bindings = l.bindings := by
  rw [next_step]
  unfold Yields at h
  cases ha : l.ahead with
  | some t =>
    rw [ha] at h
    obtain ⟨rfl, hr⟩ := h
    exact ⟨_, rfl, rfl, hr, hf, rfl, rfl, rfl⟩
  | none =>
    rw [ha] at h
    obtain ⟨l', hs, ⟨h₁, h₂, h₃, -, h₅, h₆⟩, hr⟩ :=
      scan_reads (l := l.counted) hf h
    refine ⟨{ l' with token := ts.headD .eos }, ?_, rfl, ?_, h₁.trans hf, h₂, h₃, h₆⟩
    · exact bind_eq hs
    · unfold Yields
      rw [show l'.ahead = none from h₅.trans ha]
      exact hr

theorem lookahead_yields (hf : l.failure = none) (h : l.Yields ts) :
    ∃ l', lookahead l = .ok (ts.headD .eos).kind l' ∧ l'.token = l.token ∧ l'.Yields ts ∧
      l'.failure = none ∧
      l'.numberOf = l.numberOf ∧ l'.number = l.number ∧ l'.bindings = l.bindings := by
  rw [lookahead_step]
  have hy := h
  unfold Yields at h
  cases ha : l.ahead with
  | some t =>
    rw [ha] at h
    obtain ⟨rfl, hr⟩ := h
    exact ⟨l, rfl, rfl, hy, hf, rfl, rfl, rfl⟩
  | none =>
    rw [ha] at h
    obtain ⟨l', hs, ⟨h₁, h₂, h₃, h₄, -, h₆⟩, hr⟩ := scan_reads hf h
    exact ⟨{ l' with ahead := some (ts.headD .eos) }, bind_eq hs, h₄, ⟨rfl, hr⟩, h₁.trans hf, h₂,
      h₃, h₆⟩

end Lexer

/-- The tokens of a source, if none of them is malformed. -/
def tokens? (source : Bytes) : Option (List Token) :=
  Lexer.tokensFrom? Keyword.number (source.length + 1) source 1

end LuaChunk
