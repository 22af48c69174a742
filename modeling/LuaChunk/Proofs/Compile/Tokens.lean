import LuaChunk.Proofs.Compile.Names

set_option autoImplicit false

namespace LuaChunk

open JumpList (Code IsOp Chain)

/-- Whether a token of this kind ends a block. -/
def TokenKind.closes (k : TokenKind) (withUntil : Bool) : Bool :=
  match k with
  | .word .else_ | .word .elseif_ | .word .end_ | .eos => true
  | .word .until_ => withUntil
  | _ => false

theorem TokenKind.closes_of {k : TokenKind} {withUntil : Bool} (h : k.closes false = true) :
    k.closes withUntil = true := by
  unfold TokenKind.closes at h ⊢
  split at h <;> first | rfl | cases h

namespace Compile

variable {F : List Pending} {base : Nat} {e : Exp} {s : State} {live : Nat → Prop} {o : Option Nat}
  {l : Lexer} {R : State → State → Prop}

def State.setLexer (s : State) (l : Lexer) : State := { s with lexer := l }

structure State.Passes (s : State) (l : Lexer) : Prop where
  failure : l.failure = none
  measure : l.measure ≤ s.lexer.measure
  tokens : l.taken + l.measure = s.lexer.taken + s.lexer.measure

structure State.Takes (s : State) (l : Lexer) : Prop extends s.Passes l where
  progress : l.measure < s.lexer.measure

theorem State.Passes.of_moves (h : s.lexer.Moves l) : s.Passes l where
  failure := h.failure
  measure := h.measure ▸ Nat.le_add_right _ _
  tokens := by
    have := h.measure
    rw [h.taken]
    omega

theorem State.Takes.of_moves (h : s.lexer.Moves l) (hw : Lexer.weight s.lexer.token = 1) :
    s.Takes l where
  toPasses := .of_moves h
  progress := by
    have := h.measure
    omega

theorem Coded.setLexer (h : s.Passes l) : Coded s (s.setLexer l) :=
  { Coded.refl s with tokens := h.tokens, measure := h.measure }

theorem Base.setLexer (hb : Base s) (h : s.Passes l) : Base (s.setLexer l) :=
  { hb with failure := h.failure, progress := Nat.lt_of_le_of_lt h.measure hb.progress }

theorem Inv.setLexer (hi : Inv F o live s) (h : s.Passes l) : Inv F o live (s.setLexer l) :=
  ⟨hi.base.setLexer h, hi.sound, hi.held⟩

theorem State.places_setLexer {kind : ExpKind} (h : s.Places base kind) :
    (s.setLexer l).Places base kind := by
  cases kind with
  | indexed t k a => exact ⟨h.1, h.2.text, h.2.readOnly⟩
  | indexUp t k a => exact ⟨h.1, h.2.1, h.2.2.1.of_fn rfl, h.2.2.2.text, h.2.2.2.readOnly⟩
  | indexStr t k a => exact ⟨h.1, h.2.1.of_fn rfl, h.2.2.text, h.2.2.readOnly⟩
  | _ => exact h

theorem Val.setLexer (hv : Val F base e s) (h : s.Passes l) : Val F base e (s.setLexer l) := by
  obtain ⟨T, E, hT, hE, hi⟩ := hv.jumps
  exact ⟨hv.low, ⟨T, E, hT, hE, hi.setLexer h⟩, State.places_setLexer hv.place, hv.bare⟩

theorem Read.setLexer (hr : Read F base e s) (h : s.Passes l) : Read F base e (s.setLexer l) :=
  ⟨hr.toVal.setLexer h, hr.fresh⟩

namespace Via

theorem errorExpected {α : Type} {k : TokenKind} {Q : α → State → Prop} :
    Via R (Compile.errorExpected k) s Q := Via.syntaxError

section

variable [Frame R]

theorem onLexer {α : Type} {act : Lexer.M α} {Q : α → State → Prop}
    (h : Ok act s.lexer fun a l => s.Passes l ∧ Q a (s.setLexer l)) : Via R (Compile.onLexer act) s
    Q := by
  unfold Ok at h
  unfold Via Compile.onLexer
  dsimp only
  cases ha : act s.lexer with
  | ok a l =>
    rw [ha] at h
    exact ⟨Frame.coded (.setLexer h.1), h.2⟩
  | error e l =>
    rw [ha] at h
    have hlex : e.Lexical := h
    exact Aborts.of_same hlex.reported hlex.isRefusal rfl rfl rfl

theorem pass {Q : Unit → State → Prop} (hb : Base s) (h : ∀ l, s.Passes l → Q () (s.setLexer l)) :
    Via R Compile.next s Q := by
  refine Via.onLexer (Ok.mono (Lexer.next_ok hb.failure) ?_)
  intro _ l hm
  have hp : s.Passes l := .of_moves hm
  exact ⟨hp, h l hp⟩

theorem take {Q : Unit → State → Prop} (hb : Base s) (hk : s.lexer.token.kind ≠ .eos)
    (h : ∀ l, s.Takes l → Q () (s.setLexer l)) : Via R Compile.next s Q := by
  refine Via.onLexer (Ok.mono (Lexer.next_ok hb.failure) ?_)
  intro _ l hm
  have ht : s.Takes l := .of_moves hm (if_neg hk)
  exact ⟨ht.toPasses, h l ht⟩

theorem takeNext {declaration : Option Nat} {Q : Unit → State → Prop} (hb : Base s) {name : Bytes}
    (ht : s.lexer.token = .name name) (h : ∀ l, s.Takes l → Q () (s.setLexer l)) :
    Via R (Compile.nextName declaration) s Q := by
  refine Via.onLexer (Ok.mono (Lexer.nextName_ok hb.failure) ?_)
  intro _ l hm
  have hl : s.Takes l := .of_moves hm (by rw [ht]; rfl)
  exact ⟨hl.toPasses, h l hl⟩

theorem lookahead {Q : TokenKind → State → Prop} (hb : Base s)
    (h : ∀ k l, s.Passes l → l.token = s.lexer.token → Q k (s.setLexer l)) :
    Via R Compile.lookahead s Q := by
  refine Via.onLexer (Ok.mono (Lexer.lookahead_ok hb.failure) ?_)
  rintro k l ⟨hm, htaken, hf, ht⟩
  have hp : s.Passes l := ⟨hf, Nat.le_of_eq hm, by rw [hm, htaken]⟩
  exact ⟨hp, h k l hp ht⟩

theorem intern {text : Bytes} {Q : Unit → State → Prop} (hb : Base s)
    (h : ∀ l, s.Passes l → Q () (s.setLexer l)) : Via R (Compile.intern text) s Q := by
  refine Via.onLexer (Ok.modify_iff.2 ?_)
  have hp : s.Passes { s.lexer with noted := s.lexer.noted.push text } :=
    ⟨hb.failure, Nat.le_refl _, rfl⟩
  exact ⟨hp, h _ hp⟩

end

section

variable [Steps R]

theorem currentToken {Q : Token → State → Prop} (h : Q s.lexer.token s) :
    Via R Compile.currentToken s Q :=
  Via.next (Via.get (Via.pure h))

theorem currentKind {Q : TokenKind → State → Prop} (h : Q s.lexer.token.kind s) :
    Via R Compile.currentKind s Q :=
  Via.next (Via.get (Via.pure h))

theorem currentLine {Q : Nat → State → Prop} (h : Q s.lexer.line s) :
    Via R Compile.currentLine s Q :=
  Via.next (Via.get (Via.pure h))

theorem blockEnds {withUntil : Bool} {Q : Bool → State → Prop}
    (h : Q (s.lexer.token.kind.closes withUntil) s) :
    Via R (Compile.blockEnds withUntil) s Q := by
  unfold Compile.blockEnds
  refine Via.next (Via.currentKind ?_)
  have he : ∀ k : TokenKind, (match k with
      | .word .else_ | .word .elseif_ | .word .end_ | .eos => Pure.pure true
      | .word .until_ => Pure.pure withUntil
      | _ => Pure.pure false : M Bool) = Pure.pure (k.closes withUntil) := by
    intro k
    unfold TokenKind.closes
    split <;> rfl
  exact (congrArg (Via R · s Q) (he _)).mpr (Via.pure h)

theorem check {k : TokenKind} {Q : Unit → State → Prop} (h : s.lexer.token.kind = k → Q () s) :
    Via R (Compile.check k) s Q := by
  unfold Compile.check
  refine Via.next (Via.currentKind (Via.ite (fun _ => Via.errorExpected) fun hk => Via.pure (h ?_)))
  simpa using hk

end

section

variable [Frame R] {k : TokenKind}

theorem testNext {Q : Bool → State → Prop} (hb : Base s) (hk : k ≠ .eos)
    (hyes : s.lexer.token.kind = k → ∀ l, s.Takes l → Q true (s.setLexer l)) (hno : Q false s) :
    Via R (Compile.testNext k) s Q := by
  unfold Compile.testNext
  refine Via.next (Via.currentKind (Via.ite (fun he => ?_) fun _ => Via.pure hno))
  exact Via.next (Via.take hb (he ▸ hk) fun l hl => Via.pure (hyes he l hl))

theorem checkNext {Q : Unit → State → Prop} (hb : Base s) (hk : k ≠ .eos)
    (h : ∀ l, s.Takes l → Q () (s.setLexer l)) : Via R (Compile.checkNext k) s Q :=
  Via.next (Via.check fun he => Via.take hb (he ▸ hk) h)

theorem checkMatch {who : TokenKind} {line : Nat} {Q : Unit → State → Prop} (hb : Base s)
    (hk : k ≠ .eos)
    (h : s.lexer.token.kind = k → ∀ l, s.Takes l → Q () (s.setLexer l)) :
    Via R (Compile.checkMatch k who line) s Q := by
  unfold Compile.checkMatch
  refine Via.next (Via.testNext hb hk (fun he l hl => Via.pure (h he l hl)) ?_)
  exact Via.next (Via.currentLine (Via.ite (fun _ => Via.errorExpected) fun _ => Via.syntaxError))

theorem takeName {Q : Bytes → State → Prop} (hb : Base s)
    (h : ∀ name l, s.Takes l → Q name (s.setLexer l)) : Via R Compile.takeName s Q := by
  unfold Compile.takeName
  refine Via.next (Via.currentToken ?_)
  split
  · rename_i text ht
    exact Via.next (Via.takeNext hb ht fun l hl => Via.pure (h text l hl))
  · exact Via.errorExpected

theorem takeDeclared {Q : Bytes × Nat → State → Prop} (hb : Base s)
    (h : ∀ name number l, s.Takes l → Q (name, number) (s.setLexer l)) : Via R Compile.takeDeclared
    s Q := by
  unfold Compile.takeDeclared
  refine Via.next (Via.get (Via.next (Via.currentToken ?_)))
  split
  · rename_i text ht
    exact Via.next (Via.takeNext hb ht fun l hl => Via.pure (h text _ l hl))
  · exact Via.errorExpected

end

end Via

end Compile

end LuaChunk
