import LuaChunk.Compile.Chunk
import LuaChunk.Proofs.Source.Stream

/-!
Sources that have the same tokens up to spelling, layout, and the name of one local variable. Which
tokens stand for the variable is what a compilation finds out, so the renaming speaks of the numbers
of tokens, and is consistent with a compilation that finds just these.
-/

set_option autoImplicit false

namespace LuaChunk

namespace Compile

/-- A renaming of at most one local variable. -/
structure Renaming where
  hits : Nat → Prop
  declaration : Option Nat
  old : Bytes
  new : Bytes
  fresh : declaration.isSome → old ≠ envName ∧ new ≠ envName ∧ new ≠ utf8 "self" ∧
    new ≠ utf8 loopStateName

namespace Renaming

/-- Nothing is renamed. -/
def none : Renaming := ⟨fun _ => False, .none, [], [], nofun⟩

variable (ρ : Renaming)

/-- Whether a variable declared by a token, if by any, is the renamed one. -/
def Is (declaredAt : Option Nat) : Prop := declaredAt.isSome ∧ declaredAt = ρ.declaration

structure Names (declaredAt : Option Nat) (name name' : Option Bytes) : Prop where
  renamed : ρ.Is declaredAt → name = some ρ.old ∧ name' = some ρ.new
  kept : ¬ ρ.Is declaredAt → name' = name ∧ (ρ.declaration.isSome → name ≠ some ρ.new)

/-- The tokens with a number in both runs. -/
def Fits (k : Nat) : (t t' : Token) → Prop
  | .name s, .name s' =>
    (ρ.hits k → s' = ρ.new ∧ (ρ.declaration = some k → s = ρ.old)) ∧
      (¬ ρ.hits k → s' = s ∧ (ρ.declaration.isSome → s ≠ ρ.new))
  | t, t' => t'.bare = t.bare

def FitsFrom : (k : Nat) → (ts ts' : List Token) → Prop
  | _, [], [] => True
  | k, t :: ts, t' :: ts' => ρ.Fits k t t' ∧ FitsFrom (k + 1) ts ts'
  | _, _, _ => False

/-- The names found to stand for the renamed variable are those that are renamed. -/
def Consistent (bindings : Array (Nat × Option Nat)) : Prop := ∀ e ∈ bindings, ρ.hits e.1 ↔ ρ.Is e.2

variable {ρ}

theorem Is.some {d : Option Nat} (h : ρ.Is d) : ρ.declaration.isSome := h.2 ▸ h.1

theorem not_is_none : ¬ ρ.Is .none := nofun

theorem none_not_is {d : Option Nat} : ¬ none.Is d := by
  rintro ⟨h, rfl⟩
  cases h

theorem consistent_none (bindings : Array (Nat × Option Nat)) : none.Consistent bindings :=
  fun _ _ => ⟨nofun, fun h => (none_not_is h).elim⟩

theorem Names.of_none {d : Option Nat} (name : Option Bytes) : none.Names d name name :=
  ⟨fun h => (none_not_is h).elim, fun _ => ⟨rfl, nofun⟩⟩

theorem Fits.shape {k : Nat} {t t' : Token} (h : ρ.Fits k t t') : t'.shape = t.shape := by
  cases t <;> cases t' <;> first | rfl | exact Token.shape_of_bare h

theorem Fits.kind {k : Nat} {t t' : Token} (h : ρ.Fits k t t') : t'.kind = t.kind := by
  rw [← Token.kind_shape, h.shape, Token.kind_shape]

theorem FitsFrom.head {k : Nat} {ts ts' : List Token} (h : ρ.FitsFrom k ts ts') :
    ρ.Fits k (ts.headD .eos) (ts'.headD .eos) := by
  cases ts <;> cases ts' <;> first | rfl | exact h.1 | exact h.elim

theorem FitsFrom.tail {k : Nat} {ts ts' : List Token} (h : ρ.FitsFrom k ts ts') :
    ρ.FitsFrom (k + 1) ts.tail ts'.tail := by
  cases ts <;> cases ts' <;> first | trivial | exact h.2

end Renaming

end Compile

namespace Lexer

structure Dated (l : Lexer) : Prop where
  before : ∀ e ∈ l.bindings, e.1 < l.number
  once : ∀ e ∈ l.bindings, ∀ e' ∈ l.bindings, e.1 = e'.1 → e = e'

structure Extends (l l' : Lexer) : Prop where
  bindings : ∀ e ∈ l.bindings, e ∈ l'.bindings
  dated : l.Dated → l'.Dated

namespace Extends

variable {l l' l'' : Lexer}

theorem refl (l : Lexer) : Extends l l := ⟨fun _ h => h, id⟩

theorem trans (h : Extends l l') (h' : Extends l' l'') : Extends l l'' :=
  ⟨fun e he => h'.bindings e (h.bindings e he), fun hd => h'.dated (h.dated hd)⟩

theorem of_eq (hb : l'.bindings = l.bindings) (hn : l.number ≤ l'.number) : Extends l l' := by
  refine ⟨fun e he => hb ▸ he, fun hd => ⟨fun e he => ?_, fun e he e' he' => ?_⟩⟩
  · exact Nat.lt_of_lt_of_le (hd.before e (hb ▸ he)) hn
  · exact hd.once e (hb ▸ he) e' (hb ▸ he')

theorem push (d : Option Nat) (hb : l'.bindings = l.bindings.push (l.number, d))
    (hn : l.number + 1 ≤ l'.number) : Extends l l' := by
  have hmem : ∀ {e : Nat × Option Nat}, e ∈ l'.bindings → e ∈ l.bindings ∨ e = (l.number, d) := by
    intro e he
    rw [hb] at he
    exact Array.mem_push.1 he
  refine ⟨fun e he => hb ▸ Array.mem_push.2 (.inl he), fun hd => ⟨fun e he => ?_, ?_⟩⟩
  · rcases hmem he with he | rfl
    · have := hd.before e he
      omega
    · exact hn
  · intro e he e' he' hk
    rcases hmem he with he | rfl <;> rcases hmem he' with he' | rfl
    · exact hd.once e he e' he' hk
    · exact absurd hk (Nat.ne_of_lt (hd.before e he))
    · exact absurd hk.symm (Nat.ne_of_lt (hd.before e' he'))
    · rfl

end Extends

variable {α β : Type} {m : M α} {f : α → M β} {l : Lexer}

/-- The state that an action leaves, whether it fails or not. -/
def after (m : M α) (l : Lexer) : Lexer :=
  match m l with
  | .ok _ l' => l'
  | .error _ l' => l'

def Quiet (l l' : Lexer) : Prop := l'.bindings = l.bindings ∧ l.number ≤ l'.number

theorem Quiet.refl (l : Lexer) : Quiet l l := ⟨rfl, Nat.le_refl _⟩

theorem Quiet.trans {l l' l'' : Lexer} (h : Quiet l l') (h' : Quiet l' l'') : Quiet l l'' :=
  ⟨h'.1.trans h.1, Nat.le_trans h.2 h'.2⟩

theorem Quiet.extends {l l' : Lexer} (h : Quiet l l') : Extends l l' := .of_eq h.1 h.2

theorem quiet_bind (h : Quiet l (after m l)) (hf : ∀ a l', Quiet l' (after (f a) l')) :
    Quiet l (after (m >>= f) l) := by
  unfold after at h ⊢
  show Quiet l (match EStateM.bind m f l with | .ok _ l' => l' | .error _ l' => l')
  unfold EStateM.bind
  cases hm : m l with
  | error e l' =>
    rw [hm] at h
    exact h
  | ok a l' =>
    rw [hm] at h
    exact h.trans (hf a l')

theorem quiet_checkRead (rest : Bytes) (l : Lexer) : Quiet l (after (checkRead rest) l) := by
  unfold checkRead
  refine quiet_bind (.refl l) fun l₁ l' => ?_
  split
  · exact quiet_bind (.refl l') fun _ l' => .refl l'
  · exact .refl l'

theorem quiet_scan (l : Lexer) : Quiet l (after scan l) := by
  unfold scan
  refine quiet_bind (.refl l) fun l₁ l' => ?_
  dsimp only
  split
  · exact .refl l'
  · exact quiet_bind (quiet_checkRead _ l') fun _ l' => .refl l'
  · refine quiet_bind (quiet_checkRead _ l') fun _ l' => ?_
    refine quiet_bind ⟨rfl, Nat.le_refl _⟩ fun _ l' => ?_
    split
    · exact ⟨rfl, Nat.le_refl _⟩
    · exact .refl l'

theorem quiet_next (l : Lexer) : Quiet { l with number := l.number + 1 } (after next l) := by
  have hcount : Quiet { l with number := l.number + 1 } l.counted :=
    ⟨rfl, Nat.le_refl _⟩
  refine hcount.trans ?_
  unfold after
  rw [next_step]
  cases l.ahead with
  | some t => exact ⟨rfl, Nat.le_refl _⟩
  | none => exact quiet_bind (quiet_scan _) fun t l' => ⟨rfl, Nat.le_refl _⟩

theorem extends_next (l : Lexer) : Extends l (after next l) := by
  have hcount : Extends l { l with number := l.number + 1 } := .of_eq rfl (Nat.le_succ _)
  exact hcount.trans (quiet_next l).extends

theorem extends_nextName (declaration : Option Nat) (l : Lexer) :
    Extends l (after (nextName declaration) l) := by
  obtain ⟨hb, hn⟩ := quiet_next { l with bindings := l.bindings.push (l.number, declaration) }
  exact .push declaration hb hn

theorem extends_lookahead (l : Lexer) : Extends l (after lookahead l) := by
  unfold lookahead
  refine (quiet_bind (.refl l) fun l₁ l' => ?_).extends
  split
  · exact .refl l'
  · exact quiet_bind (quiet_scan l') fun t l' => ⟨rfl, Nat.le_refl _⟩

theorem extends_note (s : Bytes) (l : Lexer) : Extends l (after (note s) l) :=
  .of_eq rfl (Nat.le_refl _)

/-- Two lexers that stand at the same token of their sources. -/
structure Twin (ρ : Compile.Renaming) (l l' : Lexer) : Prop where
  failure : l.failure = none
  failure' : l'.failure = none
  numberOf : l'.numberOf = l.numberOf
  number : l'.number = l.number
  token : ρ.Fits l.number l.token l'.token
  rest : ∃ ts ts', l.Yields ts ∧ l'.Yields ts' ∧ ρ.FitsFrom (l.number + 1) ts ts'

namespace Twin

variable {ρ : Compile.Renaming} {l l' : Lexer}

theorem next (h : Twin ρ l l') : ∃ t t', Lexer.next l = .ok () t ∧ Lexer.next l' = .ok () t' ∧
    Twin ρ t t' := by
  obtain ⟨ts, ts', hy, hy', hfit⟩ := h.rest
  obtain ⟨t, ht, htok, hrest, hf, hno, hn, -⟩ := next_yields h.failure hy
  obtain ⟨t', ht', htok', hrest', hf', hno', hn', -⟩ := next_yields h.failure' hy'
  refine ⟨t, t', ht, ht', hf, hf', ?_, ?_, ?_, _, _, hrest, hrest', ?_⟩
  · rw [hno', hno, h.numberOf]
  · rw [hn', hn, h.number]
  · rw [htok', htok, hn]
    exact hfit.head
  · rw [hn]
    exact hfit.tail

theorem nextName (d d' : Option Nat) (h : Twin ρ l l') :
    ∃ t t', Lexer.nextName d l = .ok () t ∧ Lexer.nextName d' l' = .ok () t' ∧ Twin ρ t t' ∧
      (l.number, d) ∈ t.bindings := by
  obtain ⟨ts, ts', hy, hy', hfit⟩ := h.rest
  have hpush : Twin ρ { l with bindings := l.bindings.push (l.number, d) }
      { l' with bindings := l'.bindings.push (l'.number, d') } :=
    ⟨h.failure, h.failure', h.numberOf, h.number, h.token, ts, ts', hy, hy', hfit⟩
  obtain ⟨t, t', ht, ht', htw⟩ := hpush.next
  refine ⟨t, t', ht, ht', htw, ?_⟩
  have hq := quiet_next { l with bindings := l.bindings.push (l.number, d) }
  rw [after, ht] at hq
  rw [hq.1]
  exact Array.mem_push_self

theorem lookahead (h : Twin ρ l l') :
    ∃ k t t', Lexer.lookahead l = .ok k t ∧ Lexer.lookahead l' = .ok k t' ∧ Twin ρ t t' := by
  obtain ⟨ts, ts', hy, hy', hfit⟩ := h.rest
  obtain ⟨t, ht, htok, hrest, hf, hno, hn, -⟩ := lookahead_yields h.failure hy
  obtain ⟨t', ht', htok', hrest', hf', hno', hn', -⟩ := lookahead_yields h.failure' hy'
  rw [hfit.head.kind] at ht'
  refine ⟨_, t, t', ht, ht', hf, hf', ?_, ?_, ?_, _, _, hrest, hrest', ?_⟩
  · rw [hno', hno, h.numberOf]
  · rw [hn', hn, h.number]
  · rw [htok', htok, hn]
    exact h.token
  · rw [hn]
    exact hfit

theorem note (s s' : Bytes) (h : Twin ρ l l') :
    Twin ρ { l with noted := l.noted.push s } { l' with noted := l'.noted.push s' } :=
  ⟨h.failure, h.failure', h.numberOf, h.number, h.token, h.rest⟩

theorem kind (h : Twin ρ l l') : l'.token.kind = l.token.kind := h.token.kind

end Twin

end Lexer

end LuaChunk
