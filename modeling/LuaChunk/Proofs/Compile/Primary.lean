import LuaChunk.Proofs.Compile.Constructor

set_option autoImplicit false

namespace LuaChunk

open JumpList (Code IsOp Chain)

namespace Compile

variable {F : List Pending} {base n m line limit operand : Nat} {e : Exp} {s s' : State}
  {r : Nested}

theorem fieldOf_spec (h : Read F base e s) :
    Via Keeps (fieldOf e) s fun e' s' =>
      Read F base e' s' ∧ s'.lexer.measure < s.lexer.measure ∧ e'.isVariable = true ∧
        s'.Lawful e' := by
  refine Via.bind (toTable_spec h.toVal) fun t s₁ hk₁ ⟨hl, ht, hi⟩ => ?_
  refine Via.next (Via.pass hi.base fun l hp => ?_)
  refine Via.next (Via.takeName (hi.setLexer hp).base fun name l' ht' => ?_)
  have hk₂ : Keeps s₁ ((s₁.setLexer l).setLexer l') :=
    ((Coded.setLexer hp).trans (Coded.setLexer ht'.toPasses)).toKeeps
  refine Via.bind (indexText_spec (s := (s₁.setLexer l).setLexer l') hl (ht.mono hk₂)
    ((hi.setLexer hp).setLexer ht'.toPasses)) ?_
  rintro e' s₂ hk₃ ⟨h₂, hw, hn⟩
  refine Via.next (Via.noteTarget (Via.pure ⟨h₂.relog, ?_, hn.isVariable, hw.lawful rfl⟩))
  exact Nat.lt_of_le_of_lt hk₃.measure
    (Nat.lt_of_lt_of_le ht'.progress (Nat.le_trans hp.measure hk₁.measure))

/-- The arguments of a call of the function in register `base`: all but the last one are in the
registers after it. -/
inductive Arguments (F : List Pending) (base : Nat) : Exp → State → Prop
  | none {s : State} (h : Ready F s) (hb : base < s.fn.freeReg) : Arguments F base .void s
  | value {n : Nat} {e : Exp} {s : State} (h : Val F n e s) (hm : e.isMulti = false)
    (hb : base < n) : Arguments F base e s
  | multi {m : Nat} {e : Exp} {s : State} (he : e.isMulti = true) (h : Inv F none (· < m) s)
    (hb : base < m)
    (hm : m ≤ s.fn.maxStack) : Arguments F base e s

theorem emitCall_spec (hi : Inv F none (· < m) s) (hl : s.level ≤ base) (hb : base < m)
    (hm : m ≤ s.fn.maxStack)
    (ho : base + operand ≤ m) :
    Via Keeps (do
      let pc ← emitABC .call base operand 2
      fixLine line
      setFreeReg (base + 1)
      noteTarget none
      return Exp.mk (.call pc) none none) s fun e' s' => Read F base e' s' ∧ s'.Lawful e' := by
  have hstack := hi.maxStack_le
  have hlast := hi.sound.shape.last
  have hop := Draft.opcode?_word (.abck .call base operand 2 0)
  have hd : (Draft.abck .call base operand 2 0).fits = true := Draft.fits_abck.2 (by omega)
  refine Via.next (Via.emit ?_)
  have hi₁ : Inv F none (· < base + 1) (s.emit (.abck .call base operand 2 0)) := by
    refine hi.pushABC (by omega) rfl (.inl rfl) ?_ fun _ _ _ _ _ => Instruction.serves_of_free rfl
    intro w ha hb' hc _
    have hreads : ∀ q ∈ List.range' w.a (max w.b 1), q < m := by
      intro q hq
      have := List.mem_range'_1.1 hq
      omega
    refine ⟨?_, hreads, fun q hq => ?_⟩
    · intro q hq
      rcases List.mem_append.1 (show q ∈ List.range' w.a (max w.b 1) ++ List.range' w.a (w.c - 1)
          from hq) with hq | hq
      · exact Nat.lt_of_lt_of_le (hreads q hq) hm
      · have := List.mem_range'_1.1 hq
        omega
    · exact .inl (by omega)
  refine Via.next (Via.fixLine hi₁.base (by simp [State.emit])
    (Via.next (Via.setFreeReg (Via.next (Via.noteTarget
    (Via.pure ⟨Read.relog ⟨?_, ?_⟩, .of_value rfl⟩))))))
  · refine Val.ofKind hl ((hi₁.fixLine (by simp [State.emit])).setFree
      (show base + 1 ≤ s.fn.maxStack by omega))
      ⟨rfl, ?_, ?_, (Draft.abck .call base operand 2 0).word, ?_, hop, (Draft.get_abck hd).1,
      (Draft.get_abck hd).2.2.1⟩
    · show _ = (s.fn.code.push _).size
      rw [Array.size_push]
    · exact hlast
    · exact Array.getElem?_push_size
  · exact State.Fresh.of_ne (by simp)

theorem callTail_spec {args : Exp} (h : Arguments F base args s) (hl : s.level ≤ base) :
    Via Keeps (do
      let operand ←
        if args.isMulti then pure 0
        else do
          if !args.isVoid then discard (toNextRegister args)
          pure ((← freeReg) - base)
      let pc ← emitABC .call base operand 2
      fixLine line
      setFreeReg (base + 1)
      noteTarget none
      return Exp.mk (.call pc) none none) s fun e' s' => Read F base e' s' ∧ s'.Lawful e' := by
  cases h with
  | none h hb =>
    have hroom := h.inv.room
    refine Via.ite (fun hm => nomatch hm) fun _ => Via.ite (fun hv => nomatch hv) fun _ => ?_
    exact Via.next (Via.freeReg (Via.next (Via.pure (emitCall_spec h.inv hl hb hroom (by omega)))))
  | value h hm hb =>
    refine Via.ite (fun hm' => by rw [hm] at hm'; cases hm') fun _ =>
      Via.ite (fun _ => ?_) fun hv => ?_
    · refine Via.next (Via.discard ((toNextRegister_spec h).mono ?_))
      rintro _ s₁ hk ⟨-, hf, hv⟩
      have hroom := hv.room
      refine Via.next (Via.freeReg (Via.next (Via.pure ?_)))
      exact emitCall_spec hv.inv_inReg (by rw [hk.level]; exact hl) (by omega) hroom (by omega)
    · rw [h.isVoid] at hv
      exact absurd rfl hv
  | multi he hi hb hm =>
    refine Via.ite (fun _ => ?_) fun hn => absurd he hn
    exact Via.next (Via.pure (emitCall_spec hi hl hb hm (by omega)))

theorem Arguments.setLexer {args : Exp} {l : Lexer} (h : Arguments F base args s)
    (hl : s.Passes l) :
    Arguments F base args (s.setLexer l) := by
  cases h with
  | none h hb => exact .none (h.setLexer hl) hb
  | value h hm hb => exact .value (h.setLexer hl) hm hb
  | multi he hi hb hm => exact .multi he (hi.setLexer hl) hb hm

theorem Arguments.toBase {args : Exp} (h : Arguments F base args s) : Base s := by
  cases h with
  | none h _ => exact h.inv.base
  | value h _ _ => exact h.toBase
  | multi _ hi _ _ => exact hi.base

theorem argumentList_spec {k : Exp → M Exp} {Q : Exp → State → Prop} (ok : NestedOk r)
    (h : Ready F s)
    (hb : base < s.fn.freeReg)
    (hq : ∀ e s', Keeps s s' → Arguments F base e s' → s'.lexer.measure < s.lexer.measure →
    Via Keeps (k e) s' Q) :
    Via Keeps (do
      let (_, e) ← expressionList r
      if e.isMulti then setReturns e none
      let args ← pure e
      k args) s Q := by
  refine Via.bind (expressionList_spec ok h) ?_
  rintro ⟨n, e⟩ s₁ hk₁ ⟨⟨k, -, h₁, -⟩, hm⟩
  change Read F _ e s₁ at h₁
  refine Via.ite (fun he => ?_) fun he => ?_
  · refine Via.bind (setOpenReturns_spec h₁.toVal he) fun _ s₂ hk₂ ⟨hi, hf, _⟩ =>
      Via.next (Via.pure ?_)
    have := hi.room
    exact hq e s₂ (hk₁.trans hk₂) (.multi he hi (by omega) (by omega))
      (Nat.lt_of_le_of_lt hk₂.measure hm)
  · exact Via.next (Via.pure (hq e s₁ hk₁ (.value h₁.toVal (by simpa using he) (by omega)) hm))

theorem callArguments_spec (ok : NestedOk r) (h : Ready F s) (hl : s.level ≤ base)
    (hb : base < s.fn.freeReg) :
    Via Keeps (callArguments r base line) s fun e s' =>
      Read F base e s' ∧ s'.Lawful e ∧ s'.lexer.measure < s.lexer.measure := by
  have hrest : ∀ args s₁, Keeps s s₁ → Arguments F base args s₁ →
      s₁.lexer.measure < s.lexer.measure →
      Via Keeps (do
        let operand ←
          if args.isMulti then pure 0
          else do
            if !args.isVoid then discard (toNextRegister args)
            pure ((← freeReg) - base)
        let pc ← emitABC .call base operand 2
        fixLine line
        setFreeReg (base + 1)
        noteTarget none
        return Exp.mk (.call pc) none none) s₁ fun e s' =>
          Read F base e s' ∧ s'.Lawful e ∧ s'.lexer.measure < s.lexer.measure := by
    intro args s₁ hk h₁ hm
    refine (callTail_spec h₁ (by rw [hk.level]; exact hl)).mono fun e s₂ hk₂ h₂ => ⟨h₂.1, h₂.2, ?_⟩
    exact Nat.lt_of_le_of_lt hk₂.measure hm
  have hclose : ∀ args s₁, Keeps s s₁ → Arguments F base args s₁ →
      s₁.lexer.measure < s.lexer.measure →
      Via Keeps (do
        checkMatch (.char ')') (.char '(') line
        let args ← pure args
        let operand ←
          if args.isMulti then pure 0
          else do
            if !args.isVoid then discard (toNextRegister args)
            pure ((← freeReg) - base)
        let pc ← emitABC .call base operand 2
        fixLine line
        setFreeReg (base + 1)
        noteTarget none
        return Exp.mk (.call pc) none none) s₁ fun e s' =>
          Read F base e s' ∧ s'.Lawful e ∧ s'.lexer.measure < s.lexer.measure := by
    intro args s₁ hk h₁ hm
    refine Via.next (Via.checkMatch h₁.toBase (by simp) fun _ l hp => Via.next (Via.pure ?_))
    exact hrest _ _ (hk.trans (Coded.setLexer hp.toPasses).toKeeps) (h₁.setLexer hp.toPasses)
      (Nat.lt_trans hp.progress hm)
  unfold callArguments
  refine Via.next (Via.currentToken ?_)
  split
  · rename_i text raw ht
    refine Via.next (Via.take h.inv.base (by rw [ht]; simp [Token.kind]) fun l hp =>
      Via.next (Via.pure ?_))
    have hv := Val.text (s := s.setLexer l) h.low (h.inv.setLexer hp.toPasses) text
    exact hrest _ _ (Coded.setLexer hp.toPasses).toKeeps (.value hv rfl hb) hp.progress
  · refine Via.ite (fun ht => ?_) fun _ => Via.ite (fun _ => ?_) fun _ => ?_
    · refine Via.next (Via.take h.inv.base (by rw [ht]; simp) fun l hp =>
        Via.next (Via.currentKind ?_))
      have hk := (Coded.setLexer hp.toPasses).toKeeps
      refine Via.ite (fun _ => Via.next (Via.pure ?_)) fun _ => ?_
      · exact hclose _ _ hk (.none (h.setLexer hp.toPasses) hb) hp.progress
      · refine argumentList_spec ok (h.setLexer hp.toPasses) hb fun e s₁ hk₁ h₁ hm => ?_
        exact hclose _ _ (hk.trans hk₁) h₁ (Nat.lt_trans hm hp.progress)
    · refine Via.bind (constructor_spec ok h) ?_
      rintro _ s₁ hk₁ ⟨rfl, h₁⟩
      exact hrest _ _ hk₁ (.value h₁.read.toVal rfl hb) h₁.progress
    · exact Via.next Via.syntaxError

theorem takeVariable_spec (h : Ready F s) :
    Via Keeps takeVariable s fun e s' => Reads F s e s' ∧ e.isVariable = true ∧ s'.Lawful e := by
  refine Via.next (Via.currentToken ?_)
  split
  · rename_i name ht
    refine Via.next (Via.get (Via.next (Via.takeNext h.inv.base ht fun l hl => ?_)))
    refine Via.bind (variableExp_spec (s := s.setLexer l) (h.inv.setLexer hl.toPasses) h.low)
      fun e s₁ hk h₁ => ?_
    obtain ⟨hr, hv, hname⟩ := h₁
    refine Via.next (Via.noteTarget
      (Via.pure ⟨⟨hr.relog, Nat.lt_of_le_of_lt hk.measure hl.progress⟩, hv, fun _ => ?_⟩))
    exact hname
  · exact Via.errorExpected

theorem primary_spec (ok : NestedOk r) (h : Ready F s) : Via Keeps (primary r) s fun e s' =>
    Reads F s e s' ∧ s'.Lawful e := by
  refine Via.next (Via.currentToken ?_)
  split
  · exact (takeVariable_spec h).mono fun _ _ _ h₁ => ⟨h₁.1, h₁.2.2⟩
  · refine Via.ite (fun ht => ?_) fun _ => Via.syntaxError
    refine Via.next (Via.currentLine
      (Via.next (Via.take h.inv.base (by rw [ht]; simp) fun l hl => ?_)))
    refine Via.bind (expression_spec ok (h.setLexer hl.toPasses)) fun e s₁ hk₁ h₁ => ?_
    refine Via.next (Via.checkMatch h₁.read.toBase (by simp) fun _ l' hl' => ?_)
    have h₂ := h₁.read.setLexer hl'.toPasses
    refine Via.bind (dischargeVars_spec h₂.toVal) fun e' s₃ hk₃ h₃ => ?_
    have hread : Read F s.fn.freeReg e' s₃ := ⟨h₃.val, h₃.fresh h₂.fresh⟩
    refine Via.next (Via.noteTarget (Via.pure ⟨⟨hread.relog, ?_⟩, .of_settled h₃.settled⟩))
    exact Nat.lt_of_le_of_lt (Nat.le_trans hk₃.measure hl'.measure)
      (Nat.lt_trans h₁.progress hl.progress)

theorem State.Table.le {base₂ : Nat} {t : Exp} (h : s.Table base base₂ t) : base ≤ base₂ := by
  cases h with
  | inReg h => rcases h with ⟨-, h⟩ | ⟨-, h⟩ <;> omega
  | upvalue _ hb => exact Nat.le_of_eq hb.symm

theorem bracketedIndex_spec (ok : NestedOk r) (h : Read F base e s) :
    Via Keeps (do
      let table ← toRegisterOrUpvalue e
      let key ← bracketed r
      let e ← index table key
      noteTarget none
      return Turn.again e : M (Turn Exp Exp)) s fun t s' =>
      ∃ e', t = .again e' ∧ Read F base e' s' ∧ s'.Lawful e' ∧
        s'.lexer.measure < s.lexer.measure := by
  refine Via.bind (toTable_spec h.toVal) fun t s₁ hk₁ ⟨hl, ht, hi⟩ => ?_
  have hready : Ready F s₁ := ⟨hi, Nat.le_trans hl ht.le⟩
  refine Via.bind (bracketed_spec ok hready) fun key s₂ hk₂ ⟨hv, hp, hm⟩ => ?_
  refine Via.bind (index_spec (by rw [hk₂.level]; exact hl) (ht.mono hk₂) hv hp) ?_
  rintro e' s₃ hk₃ ⟨h₃, hw, -⟩
  refine Via.next (Via.noteTarget (Via.pure ⟨e', rfl, h₃.relog, hw.lawful rfl, ?_⟩))
  exact Nat.lt_of_le_of_lt hk₃.measure (Nat.lt_of_lt_of_le hm hk₁.measure)

theorem methodCall_spec (ok : NestedOk r) (h : Read F base e s) :
    Via Keeps (do
      next
      let name ← takeName
      let base ← emitSelf e name
      return Turn.again (← callArguments r base line) : M (Turn Exp Exp)) s fun t s' =>
      ∃ e', t = .again e' ∧ Read F base e' s' ∧ s'.Lawful e' ∧
        s'.lexer.measure < s.lexer.measure := by
  refine Via.next (Via.pass h.toBase fun l hl =>
    Via.next (Via.takeName (h.setLexer hl).toBase fun name l' ht => ?_))
  have h₁ : Read F base e ((s.setLexer l).setLexer l') := (h.setLexer hl).setLexer ht.toPasses
  refine Via.bind (emitSelf_spec h₁.toVal) ?_
  rintro b s₂ hk₂ ⟨hb, hf, hi⟩
  subst hb
  have hlow : s₂.level ≤ b := Nat.le_trans (Nat.le_of_eq hk₂.level) h₁.low
  have hready : Ready F s₂ := ⟨by rw [hf]; exact hi, by omega⟩
  refine Via.bind (callArguments_spec ok hready hlow (by omega)) ?_
  rintro e' s₃ hk₃ ⟨h₃, hl₃, hm⟩
  refine Via.pure ⟨e', rfl, h₃, hl₃, Nat.lt_of_lt_of_le hm (Nat.le_trans hk₂.measure ?_)⟩
  exact Nat.le_trans ht.measure hl.measure

theorem call_spec (ok : NestedOk r) (h : Read F base e s) :
    Via Keeps (do
      let base ← toNextRegister e
      return Turn.again (← callArguments r base line) : M (Turn Exp Exp)) s fun t s' =>
      ∃ e', t = .again e' ∧ Read F base e' s' ∧ s'.Lawful e' ∧
        s'.lexer.measure < s.lexer.measure := by
  refine Via.bind (toNextRegister_spec h.toVal) ?_
  rintro b s₁ hk₁ ⟨hb, hf, hv⟩
  subst hb
  refine Via.bind (callArguments_spec ok (hv.ready hf) hv.low (by omega)) ?_
  rintro e' s₂ hk₂ ⟨h₂, hl₂, hm⟩
  exact Via.pure ⟨e', rfl, h₂, hl₂, Nat.lt_of_lt_of_le hm hk₁.measure⟩

theorem suffixed_spec (ok : NestedOk r) (h : Ready F s) : Via Keeps (suffixed r) s fun e s' =>
    Reads F s e s' ∧ s'.Lawful e := by
  refine Via.next (Via.currentLine (Via.bind (primary_spec ok h) fun e s₁ hk₁ h₁ => ?_))
  refine Via.repeatTurn (fun e s' => Reads F s e s' ∧ s'.Lawful e) h₁ h₁.1.read.toBase.progress
    fun e s₂ ⟨h₂, hl₂⟩ => ?_
  have hagain : ∀ (t : Turn Exp Exp) s',
      (∃ e', t = .again e' ∧ Read F s.fn.freeReg e' s' ∧ s'.Lawful e' ∧
        s'.lexer.measure < s₂.lexer.measure) →
      match t with
      | .again e' => (Reads F s e' s' ∧ s'.Lawful e') ∧ s'.lexer.measure < s₂.lexer.measure
      | .done e' => Reads F s e' s' ∧ s'.Lawful e' := by
    rintro _ s' ⟨e', rfl, hr, hl, hm⟩
    exact ⟨⟨⟨hr, Nat.lt_trans hm h₂.progress⟩, hl⟩, hm⟩
  refine Via.next (Via.currentKind ?_)
  refine Via.ite (fun _ => ?_) fun _ => Via.ite (fun _ => ?_) fun _ =>
    Via.ite (fun _ => ?_) fun _ =>
    Via.ite (fun _ => ?_) fun _ => Via.pure ⟨h₂, hl₂⟩
  · exact Via.bind (fieldOf_spec h₂.read) fun e' s₃ _ ⟨h₃, hm, _, hl⟩ =>
      Via.pure ⟨⟨⟨h₃, Nat.lt_trans hm h₂.progress⟩, hl⟩, hm⟩
  · exact (bracketedIndex_spec ok h₂.read).mono fun t s' _ ht => by
      have := hagain t s' ht; cases t <;> exact this
  · exact (methodCall_spec ok h₂.read).mono fun t s' _ ht => by
      have := hagain t s' ht; cases t <;> exact this
  · exact (call_spec ok h₂.read).mono fun t s' _ ht => by
      have := hagain t s' ht; cases t <;> exact this

theorem literal_spec {kind : ExpKind} (h : Ready F s) (hk : s.lexer.token.kind ≠ .eos)
    (hp : s.Places s.fn.freeReg kind)
    (ho : kind.opened = none) (hown : kind.ownJump s.fn.freeReg = [])
    (hr : ∀ pc, kind ≠ .relocatable pc) :
    Via Keeps (do
      next
      return Exp.mk kind none none) s fun e s' => Reads F s e s' := by
  refine Via.next (Via.take h.inv.base hk fun l hl =>
    Via.pure ⟨⟨?_, State.Fresh.of_ne hr⟩, hl.progress⟩)
  refine Val.ofKind h.low ?_ (State.places_setLexer hp)
  rw [ho]
  show Inv (kind.ownJump s.fn.freeReg ++ F) none _ _
  rw [hown]
  exact h.inv.setLexer hl.toPasses

theorem Inv.pushVararg (h : Inv F none (· < s.fn.freeReg) s) :
    Inv F none (· < s.fn.freeReg) (s.emit (.abck .vararg 0 0 1 0)) ∧
      (s.emit (.abck .vararg 0 0 1 0)).EndsWith s.fn.code.size .vararg 0 1 := by
  have hpos : 0 < s.fn.maxStack := Nat.lt_of_lt_of_le Nat.two_pos h.base.stack
  have hd : (Draft.abck .vararg 0 0 1 0).fits = true := by decide
  refine ⟨h.pushABC (by omega) rfl (.inl rfl) ?_ fun _ _ _ _ _ => Instruction.serves_of_free rfl,
    ?_,
    h.sound.shape.last, _, Array.getElem?_push_size,
    Draft.opcode?_word _, (Draft.get_abck hd).1, (Draft.get_abck hd).2.2.1⟩
  · intro w ha _ hc _
    refine ⟨fun q hq => ?_, (fun q hq => nomatch hq), fun q hq => .inl hq⟩
    change q ∈ w.a :: List.range' w.a (w.c - 1) at hq
    rw [ha, hc] at hq
    cases List.mem_singleton.1 hq
    exact hpos
  · show _ = (s.fn.code.push _).size
    rw [Array.size_push]

theorem simpleExpression_spec (ok : NestedOk r) (h : Ready F s) :
    Via Keeps (simpleExpression r) s fun e s' => Reads F s e s' := by
  have hlit : ∀ {kind : ExpKind}, s.lexer.token.kind ≠ .eos → s.Places s.fn.freeReg kind →
      kind.opened = none →
      kind.ownJump s.fn.freeReg = [] → (∀ pc, kind ≠ .relocatable pc) → Via Keeps (do
        next
        return Exp.mk kind none none) s fun e s' => Reads F s e s' := literal_spec h
  refine Via.next (Via.currentToken ?_)
  split
  · rename_i ht
    exact hlit (by rw [ht]; simp [Token.kind]) rfl rfl rfl (by simp)
  · rename_i ht
    exact hlit (by rw [ht]; simp [Token.kind]) rfl rfl rfl (by simp)
  · rename_i ht
    exact hlit (by rw [ht]; simp [Token.kind]) rfl rfl rfl (by simp)
  · rename_i ht
    exact hlit (by rw [ht]; simp [Token.kind]) rfl rfl rfl (by simp)
  · rename_i ht
    exact hlit (by rw [ht]; simp [Token.kind]) rfl rfl rfl (by simp)
  · rename_i ht
    exact hlit (by rw [ht]; simp [Token.kind]) rfl rfl rfl (by simp)
  · rename_i ht
    refine Via.next (Via.ofFn (Via.ite (fun _ => Via.next Via.syntaxError) fun _ => ?_))
    obtain ⟨hi, hend⟩ := h.inv.pushVararg
    have heos : (s.emit (.abck .vararg 0 0 1 0)).lexer.token.kind ≠ .eos := by
      show s.lexer.token.kind ≠ .eos
      rw [ht]
      simp [Token.kind]
    have hplace : (s.emit (.abck .vararg 0 0 1 0)).Places
        (s.emit (.abck .vararg 0 0 1 0)).fn.freeReg
        (.vararg s.fn.code.size) := ⟨rfl, hend⟩
    have hready : Ready F (s.emit (.abck .vararg 0 0 1 0)) := ⟨hi, h.low⟩
    have hlit' := literal_spec hready heos hplace rfl rfl (by simp)
    exact Via.next (Via.emit (hlit'.mono fun e s' _ h₁ => ⟨h₁.read, h₁.progress⟩))
  · rename_i ht
    refine Via.next (Via.take h.inv.base (by rw [ht]; simp [Token.kind]) fun l hl =>
      Via.next (Via.currentLine ?_))
    refine (functionBody_spec (s := s.setLexer l) ok (h.inv.setLexer hl.toPasses)
      (Nat.le_succ_of_le h.low)).mono ?_
    rintro e s₁ hk ⟨h₁, hm⟩
    refine ⟨h₁.read ?_, ?_⟩
    · rw [hk.level]
      exact h.low
    · exact Nat.lt_trans hm hl.progress
  · exact Via.ite (fun _ => (constructor_spec ok h).mono fun e s' _ h₁ => h₁.2) fun _ =>
      (suffixed_spec ok h).mono fun e s' _ h₁ => h₁.1

def OnlyTakesTwo (op? : Option BinaryOp) : Prop := ∀ op, op? = some op → op.TakesTwo

namespace OnlyTakesTwo

theorem arith {a : ArithOp} (h : (arithOpcode a).fallback? = some .mmBin) :
    OnlyTakesTwo (some (.arith a)) := by
  rintro _ ⟨⟩ _ ⟨⟩
  exact h

theorem other {op : BinaryOp} (h : ∀ a, op ≠ .arith a) : OnlyTakesTwo (some op) := by
  rintro _ ⟨⟩ a ha
  exact absurd ha (h a)

theorem ite {c : Prop} [Decidable c] {x y : Option BinaryOp} (hx : OnlyTakesTwo x)
    (hy : OnlyTakesTwo y) :
    OnlyTakesTwo (if c then x else y) := by
  split <;> assumption

end OnlyTakesTwo

theorem binaryOp?_takesTwo (k : TokenKind) : OnlyTakesTwo (binaryOp? k) := by
  have hnone : OnlyTakesTwo none := nofun
  unfold binaryOp?
  split
  · exact .arith rfl
  · exact .arith rfl
  · exact .arith rfl
  iterate 7 exact .other nofun
  refine .ite (.arith rfl) (.ite (.arith rfl)
    (.ite (.arith rfl) (.ite (.arith rfl) (.ite (.arith rfl) (.ite (.arith rfl) ?_)))))
  exact .ite (.arith rfl) (.ite (.arith rfl)
    (.ite (.arith rfl) (.ite (.other nofun) (.ite (.other nofun) hnone))))

theorem Prepared.le {op : BinaryOp} {F₂ : List Pending} {base₂ : Nat}
    (h : Prepared F base s op e F₂ base₂) : base ≤ base₂ := by
  cases h with
  | and _ | or _ | concat => omega
  | operand _ h _ =>
    cases h with
    | register h => rcases h with ⟨-, h⟩ | ⟨-, h⟩ <;> omega
    | constant _ hb => exact Nat.le_of_eq hb.symm

theorem Read.noting {m : M Exp} (h : Via Keeps m s fun e' s' => Read F base e' s') :
    Via Keeps (do let e ← m; noteTarget none; return e) s fun e' s' => Read F base e' s' :=
  Via.bind h fun _ _ _ h' => Via.next (Via.noteTarget (Via.pure h'.relog))

theorem binaryOperator_spec {op : BinaryOp} (ok : NestedOk r) (hop : op.TakesTwo)
    (h : Read F base e s) :
    Via Keeps (do
      let line ← currentLine
      next
      let left ← prepareLeft op e
      let (right, after) ← r.subExpr op.priority.2
      return Turn.again (← binaryExp op left right line, after) :
        M (Turn (Exp × Option BinaryOp) (Exp × Option BinaryOp))) s fun t s' =>
      ∃ p, t = .again p ∧ Read F base p.1 s' ∧ (∀ op, p.2 = some op → op.TakesTwo) ∧
        s'.lexer.measure < s.lexer.measure := by
  refine Via.next (Via.currentLine (Via.next (Via.pass h.toBase fun l hl => ?_)))
  refine Via.bind (prepareLeft_spec op (h.setLexer hl)) ?_
  rintro left s₁ hk₁ ⟨hlow, F₂, hprep, hi⟩
  refine Via.bind (ok.subExpr op.priority.2 ⟨hi, Nat.le_trans hlow hprep.le⟩) ?_
  rintro ⟨right, after⟩ s₂ hk₂ ⟨h₂, hafter⟩
  refine Via.bind (Read.noting
    (applyBinary_spec hop (by rw [hk₂.level]; exact hlow) (hprep.mono hk₂) h₂.read))
    fun e' s₃ hk₃ h₃ => Via.pure ?_
  exact ⟨(e', after), rfl, h₃, hafter,
    Nat.lt_of_le_of_lt hk₃.measure
      (Nat.lt_of_lt_of_le h₂.progress (Nat.le_trans hk₁.measure hl.measure))⟩

theorem operators_spec (ok : NestedOk r) (h : Reads F s e s') :
    Via Keeps (do
      let op := binaryOp? (← currentKind)
      repeatTurn (fun (e, op?) => do
        match op? with
        | none => return .done (e, none)
        | some op =>
          if op.priority.1 ≤ limit then return .done (e, some op)
          let line ← currentLine
          next
          let left ← prepareLeft op e
          let (right, after) ← r.subExpr op.priority.2
          return .again (← binaryExp op left right line, after)) (e, op)) s' fun p s'' =>
      Reads F s p.1 s'' ∧ ∀ op, p.2 = some op → op.TakesTwo := by
  refine Via.next (Via.currentKind ?_)
  refine Via.repeatTurn (fun (p : Exp × Option BinaryOp) s₁ => Reads F s p.1 s₁ ∧
    ∀ op, p.2 = some op → op.TakesTwo)
    ⟨h, binaryOp?_takesTwo _⟩ h.read.toBase.progress ?_
  rintro ⟨e₁, op?⟩ s₁ ⟨h₁, htwo⟩
  cases op? with
  | none => exact Via.pure ⟨h₁, fun _ hn => nomatch hn⟩
  | some op =>
    refine Via.ite (fun _ => Via.pure ⟨h₁, htwo⟩) fun _ => ?_
    refine (binaryOperator_spec ok (htwo op rfl) h₁.read).mono ?_
    rintro _ s₂ - ⟨p, rfl, hr, hp, hm⟩
    exact ⟨⟨⟨hr, Nat.lt_trans hm h₁.progress⟩, hp⟩, hm⟩

theorem subExpression_spec (ok : NestedOk r) (h : Ready F s) :
    Via Keeps (subExpression r limit) s fun p s' => Reads F s p.1 s' ∧ ∀ op, p.2 = some op →
      op.TakesTwo := by
  refine Via.next (Via.currentKind ?_)
  split
  · refine Via.next (Via.currentLine (Via.next (Via.pass h.inv.base fun l hl => ?_)))
    refine Via.bind (ok.subExpr unaryPriority (h.setLexer hl)) ?_
    rintro ⟨e, after⟩ s₁ hk₁ ⟨h₁, -⟩
    refine Via.bind (Read.noting (applyUnary_spec h₁.read)) fun e' s₂ hk₂ h₂ => ?_
    have hm : s₂.lexer.measure < s.lexer.measure :=
      Nat.lt_of_le_of_lt hk₂.measure (Nat.lt_of_lt_of_le h₁.progress hl.measure)
    exact operators_spec (s := s) ok ⟨h₂, hm⟩
  · exact Via.bind (simpleExpression_spec ok h) fun e s₁ _ h₁ => operators_spec ok h₁

end Compile

end LuaChunk
