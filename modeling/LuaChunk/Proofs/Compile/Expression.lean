import LuaChunk.Proofs.Compile.Multiple

set_option autoImplicit false

namespace LuaChunk

open JumpList (Code IsOp Chain)

namespace Compile

variable {F : List Pending} {base n count pc line limit : Nat} {e target : Exp} {earlier : List Exp}
  {s s' : State} {r : Nested}

/-- The state in which an expression can be coded: the registers in use are assigned. -/
structure Ready (F : List Pending) (s : State) : Prop where
  inv : Inv F none (· < s.fn.freeReg) s
  low : s.level ≤ s.fn.freeReg

/-- An expression has been read, and tokens have been taken for it. -/
structure Reads (F : List Pending) (s : State) (e : Exp) (s' : State) : Prop where
  read : Read F s.fn.freeReg e s'
  progress : s'.lexer.measure < s.lexer.measure

/-- The assignment to the targets before: their values are in the last registers. -/
structure Assigns (F : List Pending) (base : Nat) (targets : List Exp) (s : State) : Prop where
  low : s.level ≤ base
  all : ∀ t ∈ targets, s.Target base t.kind
  holds : s.Holds F base targets.length

structure NestedOk (r : Nested) : Prop where
  subExpr : ∀ {F : List Pending} {s : State} (limit : Nat), Ready F s →
    Via Keeps (r.subExpr limit) s fun p s' => Reads F s p.1 s' ∧ ∀ op, p.2 = some op → op.TakesTwo
  statement : ∀ {F : List Pending} {s : State}, Rests F s →
    Via Advances r.statement s fun _ s' => Settles F s' ∧ s'.lexer.measure < s.lexer.measure
  assign : ∀ {F : List Pending} {base : Nat} {target : Exp} {earlier : List Exp} {s : State},
    Read F base target s → s.Lawful target → (∀ t ∈ earlier, s.Target s.fn.freeReg t.kind) →
    Via Keeps (r.assign target earlier) s fun rest s' =>
      rest.length = earlier.length ∧ ∃ base', Assigns F base' rest s'
  initGlobals : ∀ {F : List Pending} {s : State} {count line : Nat} {names : List Bytes},
    Ready F s →
    names.length ≤ count →
    Via Keeps (r.initGlobals count line names) s fun _ s' =>
      ∃ base, s.fn.freeReg ≤ base ∧ s'.Holds F base (count - names.length)

theorem Rests.ready (h : Rests F s) : Ready F s :=
  ⟨by rw [h.free]; exact h.inv, Nat.le_of_eq h.free.symm⟩

theorem Ready.setLexer {l : Lexer} (h : Ready F s) (hl : s.Passes l) : Ready F (s.setLexer l) :=
  ⟨h.inv.setLexer hl, h.low⟩

theorem Rests.setLexer {l : Lexer} (h : Rests F s) (hl : s.Passes l) : Rests F (s.setLexer l) :=
  ⟨h.inv.setLexer hl, h.free, h.full⟩

theorem Ends.setLexer {l : Lexer} (h : Ends F s) (hl : s.Passes l) : Ends F (s.setLexer l) := by
  obtain ⟨⟨b, rest, hb, hi⟩, hf, hs⟩ := h
  exact ⟨⟨b, rest, hb, hi.setLexer hl⟩, hf, hs⟩

theorem Val.ready (h : Val F base (.inReg base) s) (hf : s.fn.freeReg = base + 1) : Ready F s :=
  ⟨h.inv_inReg, by have := h.low; omega⟩

theorem Ends.toBase (h : Ends F s) : Base s :=
  let ⟨_, _, _, hi⟩ := h.inv
  hi.base

theorem statements_spec (ok : NestedOk r) (h : Rests F s) :
    Via Advances (statements r) s fun _ s' => Settles F s' := by
  refine Via.repeatTurn (fun _ s' => Settles F s') (.inl h) h.inv.base.progress fun _ s₁ h₁ => ?_
  refine Via.next (Via.blockEnds (Via.ite (fun _ => Via.pure h₁) fun hk => ?_))
  have hrests : Rests F s₁ := by
    refine h₁.rests ?_
    cases hc : s₁.lexer.token.kind.closes false with
    | false => rfl
    | true => exact absurd (TokenKind.closes_of hc) hk
  refine Via.next (Via.currentKind
    (Via.bind (ok.statement hrests) fun _ s₂ _ ⟨h₂, hm⟩ => Via.pure ?_))
  split
  · exact ⟨h₂, hm⟩
  · exact h₂

theorem expression_spec (ok : NestedOk r) (h : Ready F s) : Via Keeps (expression r) s fun e s' =>
    Reads F s e s' :=
  Via.bind (ok.subExpr 0 h) fun _ _ _ h₁ => Via.pure h₁.1

/-- A list that has been read: all but the last expression are in registers from `base` on. -/
def ListRead (F : List Pending) (base : Nat) (p : Nat × Exp) (s : State) : Prop :=
  ∃ k, p.1 = k + 1 ∧ Read F (base + k) p.2 s ∧ s.level ≤ base

theorem ListRead.listed {p : Nat × Exp} (h : ListRead F base p s) : Listed F base p.1 p.2 s := by
  obtain ⟨k, hk, h, hl⟩ := h
  rw [hk]
  exact .cons hl h.toVal

theorem expressionList_spec (ok : NestedOk r) (h : Ready F s) :
    Via Keeps (expressionList r) s fun p s' => ListRead F s.fn.freeReg p s' ∧
      s'.lexer.measure < s.lexer.measure := by
  refine Via.bind (expression_spec ok h) fun e s₁ hk h₁ => ?_
  refine Via.repeatTurn (fun p s' => ListRead F s.fn.freeReg p s' ∧
    s'.lexer.measure < s.lexer.measure)
    ⟨⟨0, rfl, h₁.read, by rw [hk.level]; exact h.low⟩, h₁.progress⟩ h₁.read.toBase.progress ?_
  rintro ⟨n, e⟩ s₂ ⟨⟨k, hn, h₂, hl⟩, hm⟩
  change Read F _ e s₂ at h₂
  change n = k + 1 at hn
  refine Via.next (Via.testNext h₂.toBase (by simp) (fun _ l ht => ?_)
    (Via.pure ⟨⟨k, hn, h₂, hl⟩, hm⟩))
  refine Via.next (Via.discard ((toNextRegister_spec (h₂.toVal.setLexer ht.toPasses)).mono ?_))
  rintro _ s₃ hk₃ ⟨-, hf, hv⟩
  refine Via.bind (expression_spec ok (hv.ready hf)) fun e' s₄ hk₄ h₄ => Via.pure ?_
  have hlt := ht.progress
  have hm₃ := hk₃.measure
  have hm₄ := h₄.progress
  change s₃.lexer.measure ≤ l.measure at hm₃
  have hr := h₄.read
  rw [hf] at hr
  refine ⟨⟨⟨k + 1, by rw [hn], hr, ?_⟩, by omega⟩, by omega⟩
  rw [hk₄.level, hk₃.level]
  exact hl

theorem startNested_full (h : ¬ s.fn.nested.size < Instruction.maxBx) :
    Via Keeps (startNested line) s fun _ _ => False := by
  refine Via.next (Via.ofFn ?_)
  rw [if_pos (Nat.le_of_not_lt h)]
  exact Via.next Via.limitError

def State.setLastLine (s : State) (line : Nat) : State :=
  { s with fn := { s.fn with lastLineDefined := line } }

theorem Ends.setLastLine (line : Nat) (h : Ends F s) : Ends F (s.setLastLine line) := by
  obtain ⟨⟨b, rest, hb, hi⟩, hf, hs⟩ := h
  exact ⟨⟨b, rest, hb, { hi.base with }, hi.sound, hi.held⟩, hf, hs⟩

theorem Nests.setLastLine : Nests s (s.setLastLine line) := { Nests.refl s with }

theorem functionRest_spec {u : State} {first : Nat} (ok : NestedOk r)
    (h : Inv F none (· < s.fn.freeReg) s)
    (hlow : s.level ≤ s.fn.freeReg + 1)
    (hlim : s.fn.nested.size < Instruction.maxBx) (hu : Nests (s.startFn first) u) (hb : Blank u 0)
    (hm : u.lexer.measure < s.lexer.measure) :
    Via Logs (do
      parameters
      checkNext (.char ')')
      statements r
      let last ← currentLine
      modifyFn fun f => { f with lastLineDefined := last }
      checkMatch (.word .end_) (.word .function_) line
      let e ← emitClosure
      endNested
      return e) u fun e w =>
        Keeps s w ∧ MakesClosure F s e w ∧ w.lexer.measure < s.lexer.measure := by
  refine Via.bind (parameters_spec hb).logged fun _ u₁ _ ⟨hn₁, h₁⟩ => ?_
  refine Via.bind (Via.checkNext (R := Nests)
    (Q := fun _ u' => ∃ l, u₁.Takes l ∧ u' = u₁.setLexer l)
    h₁.inv.base (by simp) fun l hl => ⟨l, hl, rfl⟩).logged ?_
  rintro _ _ - ⟨hn₂, l, hl, rfl⟩
  refine Via.bind (statements_spec ok (h₁.setLexer hl.toPasses)).logged fun _ u₃ _ ⟨hn₃, h₃⟩ => ?_
  refine Via.next (Via.currentLine (Via.next ?_))
  have h₄ := h₃.ends.setLastLine u₃.lexer.line
  refine ⟨.of_same rfl rfl rfl rfl rfl, ?_⟩
  refine Via.bind (Via.checkMatch (R := Nests)
    (Q := fun _ u' => ∃ l, State.Passes (u₃.setLastLine u₃.lexer.line) l ∧
    u' = (u₃.setLastLine u₃.lexer.line).setLexer l) h₄.toBase (by simp) fun _ l hl =>
      ⟨l, hl.toPasses, rfl⟩).logged ?_
  rintro _ _ - ⟨hn₅, l', hl', rfl⟩
  have hn := hu.trans (hn₁.trans (hn₂.trans (hn₃.nests.trans (Nests.setLastLine.trans hn₅))))
  refine (endNested_spec h hlow hlim hn (h₄.setLexer hl')).mono fun e w _ ⟨hk, hmw, hc⟩ =>
    ⟨hk, hc, ?_⟩
  have := (hn₁.trans (hn₂.trans (hn₃.nests.trans (Nests.setLastLine.trans hn₅)))).measure
  omega

theorem functionBody_spec {isMethod : Bool} (ok : NestedOk r) (h : Inv F none (· < s.fn.freeReg) s)
    (hlow : s.level ≤ s.fn.freeReg + 1) :
    Via Keeps (functionBody r isMethod line) s fun e s' =>
      MakesClosure F s e s' ∧ s'.lexer.measure < s.lexer.measure := by
  unfold functionBody
  by_cases hlim : s.fn.nested.size < Instruction.maxBx
  case neg => exact Via.bind (startNested_full hlim) fun _ _ _ h => h.elim
  refine Via.of_logged (Via.of_step (bind_eq (startNested_eq hlim)) (.of_same rfl rfl rfl rfl rfl)
    ?_)
  have h₀ := Blank.start line h
  refine Via.bind (Via.checkNext (R := Nests) (Q := fun _ u => ∃ l, (s.startFn line).Takes l ∧
    u = (s.startFn line).setLexer l) h₀.inv.base (by simp) fun l hl => ⟨l, hl, rfl⟩).logged ?_
  rintro _ _ - ⟨hn₁, l, hl, rfl⟩
  have h₁ := h₀.setLexer hl.toPasses
  refine Via.ite (fun _ => ?_) fun _ => functionRest_spec ok h hlow hlim hn₁ h₁ hl.progress
  refine Via.bind (Via.declareHidden (R := Nests) (Q := fun _ u => Blank u 1 ) h₁.inv.base
    fun l' hl' =>
    (h₁.setLexer hl').declare rfl rfl).logged fun _ u₂ _ ⟨hn₂, h₂⟩ => ?_
  refine Via.bind (Via.activate (R := Nests) (Q := fun _ u => Blank u 0) h₂.inv.base h₂.declared
    fun vars locals stores ha =>
    h₂.activate stores ha).logged fun _ u₃ _ ⟨hn₃, h₃⟩ => ?_
  refine functionRest_spec ok h hlow hlim (hn₁.trans (hn₂.trans hn₃)) h₃ ?_
  exact Nat.lt_of_le_of_lt (hn₂.trans hn₃).measure hl.progress

end Compile

end LuaChunk
