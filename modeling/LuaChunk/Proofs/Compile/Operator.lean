import LuaChunk.Proofs.Compile.Condition

set_option autoImplicit false

namespace LuaChunk

open JumpList (Code IsOp Chain)

namespace Compile

variable {F P : List Pending} {base base₂ r r₁ r₂ line : Nat} {e e₁ e₂ : Exp} {s s' : State}
  {live : Nat → Prop}

theorem Read.fixLine {pc : Nat} (h : Read F base (.relocatable pc) s) (hs : 0 < s.fn.code.size) :
    Read F base (.relocatable pc) (s.fixLine line) :=
  ⟨.ofKind h.low ((h.plain rfl rfl).fixLine hs) h.place, h.fresh⟩

theorem Read.ofNumber (hl : s.level ≤ base) (h : Inv F none (· < s.fn.freeReg) s)
    (hf : s.fn.freeReg = base) (n : Number) : Read F base (.ofNumber n) s := by
  cases n with
  | int n => exact ⟨.ofKind hl h hf, .of_ne (by simp)⟩
  | float x => exact ⟨.ofKind hl h hf, .of_ne (by simp)⟩

theorem Exp.numeral?_eq {n : Number} (h : e.numeral? = some n) :
    e.hasJumps = false ∧ ((∃ i, e.kind = .int i) ∨ ∃ x, e.kind = .float x) := by
  unfold Exp.numeral? at h
  split at h
  · cases h
  · rename_i hj
    refine ⟨by simpa using hj, ?_⟩
    split at h
    · exact .inl ⟨_, ‹_›⟩
    · exact .inr ⟨_, ‹_›⟩
    · cases h

theorem fold?_eq {op : ArithOp} (h : fold? op e₁ e₂ = some e) :
    (∃ n, e₁.numeral? = some n) ∧ (∃ n, e₂.numeral? = some n) ∧ ∃ n, e = .ofNumber n := by
  unfold fold? at h
  split at h
  · rename_i a b ha hb
    refine ⟨⟨a, ha⟩, ⟨b, hb⟩, ?_⟩
    split at h
    · split at h
      · cases h
        exact ⟨_, rfl⟩
      · split at h
        · cases h
        · cases h
          exact ⟨_, rfl⟩
      · cases h
    · cases h
  · cases h

theorem Val.numeralInv {n : Number} (h : Val F base e s) (hn : e.numeral? = some n) :
    Inv F none (· < s.fn.freeReg) s ∧ s.fn.freeReg = base := by
  obtain ⟨hj, hk⟩ := Exp.numeral?_eq hn
  obtain ⟨hT, hE⟩ := h.noJumps hj
  have hi := h.plain hT hE
  have hp := h.place
  rcases hk with ⟨i, hk⟩ | ⟨x, hk⟩ <;> rw [hk] at hi hp <;> exact ⟨hi, hp⟩

theorem emitUnary_spec {op : Opcode} (h : Val F base e s) (hp : op.isPlain = true)
    (hr : op.isRelocatable = true) (hv : op ≠ .vararg)
    (hregs : ∀ i : Instruction, i.registersOf op = i.readsOf op ++ [i.a])
    (hreads : ∀ i : Instruction, i.readsOf op = [i.b]) (hfree : op.refers = false) :
    Via Keeps (emitUnary op e line) s fun e' s' => Read F base e' s' := by
  unfold emitUnary
  refine Via.bind (toAnyRegister_spec h) ?_
  rintro r s₁ - h₁
  have hlt := h₁.slot.lt h₁.low
  have hle := h₁.base_le
  have hroom := h₁.room
  have hstack := h₁.maxStack_le
  refine Via.bind (freeReg_spec h₁) ?_
  rintro _ _ - rfl
  refine Via.next (Via.emit ?_)
  have hval : Val F base (.relocatable (s₁.setFree base).fn.code.size)
      ((s₁.setFree base).emit (.abck op 0 r 0 0)) := by
    have hi : Inv F none (· < s₁.fn.freeReg) (s₁.setFree base) := h₁.inv_inReg.setFree (by omega)
    refine .emitOpen h₁.low hi (fun q hq => by omega) rfl
      (show r ≤ 255 ∧ 0 ≤ 255 by omega) hp hr hv hregs ?_ fun _ _ _ =>
        Instruction.serves_of_free hfree
    intro w hb _ q hq
    rw [hreads] at hq
    rw [List.mem_singleton.1 hq, hb]
    exact ⟨hlt, Nat.lt_of_lt_of_le hlt hroom⟩
  have hread : Read F base (.relocatable s₁.fn.code.size)
      ((s₁.setFree base).emit (.abck op 0 r 0 0)) :=
    ⟨hval, .emitted h₁.toBase.quiet⟩
  have hs : 0 < ((s₁.setFree base).emit (.abck op 0 r 0 0)).fn.code.size := by simp [State.emit]
  exact Via.next (Via.fixLine hval.toBase hs (Via.pure (hread.fixLine hs)))

theorem applyUnary_spec {op : UnaryOp} (h : Read F base e s) :
    Via Keeps (applyUnary op e line) s fun e' s' => Read F base e' s' := by
  unfold applyUnary
  refine Via.bind (dischargeVars_spec h.toVal) ?_
  rintro e₁ s₁ - ⟨h₁, hs, -, -, -, -⟩
  have hfold : ∀ {op : ArithOp} {e₂ : Exp}, fold? op e₁ (.ofNumber (.int 0)) = some e₂ →
      Read F base e₂ s₁ := by
    intro op e₂ he
    obtain ⟨⟨n, hn⟩, -, m, rfl⟩ := fold?_eq he
    obtain ⟨hi, hf⟩ := h₁.numeralInv hn
    exact .ofNumber h₁.low hi hf m
  cases op with
  | minus =>
    dsimp only
    cases he : fold? .unm e₁ (.ofNumber (.int 0)) with
    | some e₂ => exact Via.pure (hfold he)
    | none => exact emitUnary_spec h₁ rfl rfl (by simp) (fun _ => rfl) (fun _ => rfl) rfl
  | bnot =>
    dsimp only
    cases he : fold? .bnot e₁ (.ofNumber (.int 0)) with
    | some e₂ => exact Via.pure (hfold he)
    | none => exact emitUnary_spec h₁ rfl rfl (by simp) (fun _ => rfl) (fun _ => rfl) rfl
  | len => exact emitUnary_spec h₁ rfl rfl (by simp) (fun _ => rfl) (fun _ => rfl) rfl
  | not => exact emitNot_spec h₁ hs

inductive Exp.IsConstant : Exp → State → Prop
  | int {n : Int64} {s : State} : IsConstant ⟨.int n, none, none⟩ s
  | float {x : Double} {s : State} : IsConstant ⟨.float x, none, none⟩ s
  | konst {n : PoolEntry} {s : State} (hn : s.fn.pool.Holds n) : IsConstant ⟨.konst n, none, none⟩ s

/-- A left operand, while the right one is coded from `base₂` on. -/
inductive Left (base base₂ : Nat) (s : State) : Exp → Prop
  | register {r : Nat} (h : s.TableAt base base₂ r) : Left base base₂ s (.inReg r)
  | constant {e : Exp} (h : e.IsConstant s) (hb : base₂ = base) : Left base base₂ s e

theorem Exp.IsConstant.mono (h : e.IsConstant s) (hk : Keeps s s') : e.IsConstant s' := by
  cases h with
  | int => exact .int
  | float => exact .float
  | konst hn => exact .konst (hn.mono hk.pool)

theorem Left.mono (h : Left base base₂ s e) (hk : Keeps s s') : Left base base₂ s' e := by
  cases h with
  | register h =>
    refine .register ?_
    unfold State.TableAt
    rw [hk.level]
    exact h
  | constant h hb => exact .constant (h.mono hk) hb

theorem Exp.IsConstant.val (hc : e.IsConstant s) (hl : s.level ≤ s.fn.freeReg)
    (h : Inv F none (· < s.fn.freeReg) s) : Val F s.fn.freeReg e s := by
  cases hc with
  | int | float => exact .ofKind hl h rfl
  | konst hn => exact .ofKind hl h ⟨rfl, hn⟩

theorem fallback_reads {op f : Opcode} (hf : op.fallback? = some f) (i j : Instruction) :
    i.registersOf op = i.readsOf op ++ [i.a] ∧ j.registersOf f = j.readsOf f ∧
      (op.isRegisterArith = true ∧ i.readsOf op = [i.b, i.c] ∧ j.readsOf f = [j.a, j.b] ∨
        op.isRegisterArith = false ∧ i.readsOf op = [i.b] ∧ j.readsOf f = [j.a]) := by
  cases op <;> cases hf <;>
    first
    | exact ⟨rfl, rfl, .inl ⟨rfl, rfl, rfl⟩⟩
    | exact ⟨rfl, rfl, .inr ⟨rfl, rfl, rfl⟩⟩

/-- The state after a binary operation whose operands have been read. -/
def State.arith (s : State) (op f : Opcode) (r operand event flip line base : Nat)
    (meant : List Value := []) : State :=
  ((((s.emit (.abck op 0 r operand 0) meant).setFree base).fixLine line).emit
    (.abck f r operand event flip) meant).fixLine line

section

variable {op f : Opcode} {operand event flip : Nat} {meant : List Value}

theorem State.arith_keeps : Keeps s (s.arith op f r operand event flip line base meant) :=
  ((Coded.emit s _ meant).toKeeps.trans (.setFree _ base)).trans
    ((((Coded.fixLine _ line).trans (.emit _ _ meant)).trans (.fixLine _ line)).toKeeps)

theorem State.arith_view :
    (s.arith op f r operand event flip line base meant).fn.view
      = (s.fn.view.push (Draft.abck op 0 r operand 0).word).push
        (Draft.abck f r operand event flip).word :=
  rfl

theorem State.arith_late : (s.arith op f r operand event flip line base meant).lateLoad =
    s.lateLoad := by
  dsimp only [State.arith, State.fixLine, State.emit, State.setFree]

theorem State.arith_free : (s.arith op f r operand event flip line base meant).fn.freeReg =
    base := by
  dsimp only [State.arith, State.fixLine, State.emit, State.setFree]

end

theorem Inv.arith {op f : Opcode} {operand event flip : Nat} {meant : List Value}
    (h : Inv F none (· < s.fn.freeReg) s) (hb : base ≤ s.fn.freeReg) (hf : op.fallback? = some f)
    (hr : r < s.fn.freeReg) (ho : operand ≤ 255)
    (hreg : op.isRegisterArith = true → operand < s.fn.freeReg) (he : event ≤ 255)
    (hflip : flip ≤ 1)
    (ht : op.Takes s.fn.references operand meant) :
    Inv F (some s.fn.code.size) (· < s.fn.freeReg)
      (s.arith op f r operand event flip line base meant) := by
  have hroom := h.room
  have hstack := h.maxStack_le
  have htwo := h.base.stack
  have hd : (Draft.abck op 0 r operand 0).fits = true := Draft.fits_abck.2 (by omega)
  have hd' : (Draft.abck f r operand event flip).fits = true := Draft.fits_abck.2 (by omega)
  have hbase : Base (((s.emit (.abck op 0 r operand 0) meant).setFree base).fixLine line) := by
    refine ((h.base.emit hd (ht.refers hf hd)).setFree (Nat.le_trans hb hroom)).fixLine ?_
    simp [State.emit, State.setFree]
  have hop := Draft.opcode?_word (.abck op 0 r operand 0)
  have hop' := Draft.opcode?_word (.abck f r operand event flip)
  obtain ⟨ha, hbi, hc, -⟩ := Draft.get_abck hd
  obtain ⟨ha', hb', -, -⟩ := Draft.get_abck hd'
  obtain ⟨hregs, hregs', hreads⟩ :=
    fallback_reads hf (Draft.abck op 0 r operand 0).word (Draft.abck f r operand event flip).word
  have hi : ∀ q ∈ (Draft.abck op 0 r operand 0).word.readsOf op, q < s.fn.freeReg := by
    intro q hq
    rcases hreads with ⟨hra, h₁, -⟩ | ⟨-, h₁, -⟩ <;> rw [h₁] at hq
    · have := hreg hra
      simp only [hbi, hc, List.mem_cons, List.not_mem_nil, or_false] at hq
      omega
    · simp only [hbi, List.mem_cons, List.not_mem_nil, or_false] at hq
      omega
  have hj : ∀ q ∈ (Draft.abck f r operand event flip).word.readsOf f, q < s.fn.freeReg := by
    intro q hq
    rcases hreads with ⟨hra, -, h₁⟩ | ⟨-, -, h₁⟩ <;> rw [h₁] at hq
    · have := hreg hra
      simp only [ha', hb', List.mem_cons, List.not_mem_nil, or_false] at hq
      omega
    · simp only [ha', List.mem_cons, List.not_mem_nil, or_false] at hq
      omega
  have hbase' : Base (s.arith op f r operand event flip line base meant) := by
    have hsize : 0 < ((((s.emit (.abck op 0 r operand 0) meant).setFree base).fixLine line).emit
        (.abck f r operand event flip) meant).fn.code.size := by simp [State.emit]
    exact @Base.fixLine _ line (hbase.emit hd' (ht.fallback hf hd')) hsize
  have hheld : Holding (s.arith op f r operand event flip line base meant).fn.openLists
      (F ++ s.waiting) := h.held
  refine ⟨hbase', ?_, by rw [State.arith_keeps.waiting]; exact hheld⟩
  rw [State.arith_view, State.arith_late, State.arith_keeps.waiting]
  refine h.sound.pushArith hop hf hop' (ha'.trans hbi.symm) ?_ ?_ ?_ ?_
  · rw [Instruction.registers_eq hop]
    show ∀ q ∈ (Draft.abck op 0 r operand 0).word.registersOf op, q < s.fn.maxStack
    rw [hregs, ha]
    intro q hq
    rcases List.mem_append.1 hq with hq | hq
    · have := hi q hq
      omega
    · rw [List.mem_singleton.1 hq]
      omega
  · rw [Instruction.reads_eq hop]
    exact hi
  · rw [Instruction.registers_eq hop']
    show ∀ q ∈ (Draft.abck f r operand event flip).word.registersOf f, q < s.fn.maxStack
    rw [hregs']
    intro q hq
    have := hj q hq
    omega
  · rw [Instruction.reads_eq hop']
    exact hj

/-- A second operand: a constant, which takes no register, or a register. -/
inductive Second (base r operand : Nat) (op : Opcode) (s : State) : Exp → Prop
  | constant {e : Exp} (hr : e.register? = none) (ho : operand ≤ 255)
    (hop : op.isRegisterArith = false)
    (hs : s.Slot base r) : Second base r operand op s e
  | register (hs : s.Slots base r operand) : Second base r operand op s (.inReg operand)

theorem Via.freeExps {R : State → State → Prop} [Wide R] {operand : Nat} {op : Opcode}
    {Q : Unit → State → Prop} (hb : Base s) (hl : s.level ≤ base) (h : Second base r operand op s e)
    (hq : Q () (s.setFree base)) : Via R (Compile.freeExps (.inReg r) e) s Q := by
  unfold Compile.freeExps
  cases h with
  | constant hr ho hop hs =>
    simp only [Exp.register?, Exp.inReg] at hr ⊢
    rw [hr]
    exact Via.freeSlot hb hl hs hq
  | register hs => exact Via.freeSlots hb hl hs hq

/-- The result of a binary operation: its fallback is the last instruction. -/
structure ArithResult (F : List Pending) (base : Nat) (f : Opcode) (e : Exp) (s : State) :
    Prop where
  read : Read F base e s
  last : ∃ pc, e = .relocatable pc ∧ pc + 2 = s.fn.code.size ∧ IsOp s.fn.code (pc + 1) f

theorem arithTail_spec {op f : Opcode} {operand : Nat} {flip : Bool} {event : Event}
    {meant : List Value}
    (h : Inv F none (· < s.fn.freeReg) s) (hl : s.level ≤ base) (hf : op.fallback? = some f)
    (h₂ : Second base r operand op s e) (ht : op.Takes s.fn.references operand meant) :
    Via Keeps (do
      let pc ← emitABC op 0 r operand meant
      freeExps (.inReg r) e
      fixLine line
      discard (emitABCk f r operand event.number flip.toNat meant)
      fixLine line
      return Exp.relocatable pc) s fun e' s' => ArithResult F base f e' s' := by
  have hroom := h.room
  have hstack := h.maxStack_le
  have hsecond : base ≤ s.fn.freeReg ∧ r < s.fn.freeReg ∧ operand ≤ 255 ∧
      (op.isRegisterArith = true → operand < s.fn.freeReg) := by
    cases h₂ with
    | constant hr ho hop hs => exact ⟨hs.le, hs.lt hl, ho, by simp [hop]⟩
    | register hs =>
      obtain ⟨h₁, h₂⟩ := hs.lt hl
      exact ⟨hs.le, h₁, by omega, fun _ => h₂⟩
  obtain ⟨hb, hr, ho, hreg⟩ := hsecond
  have hflip : flip.toNat ≤ 1 := by cases flip <;> decide
  have hev : event.number ≤ 255 := by cases event <;> decide
  have hi := @Inv.arith F base r line s op f operand event.number flip.toNat meant h hb hf hr ho
    hreg hev hflip ht
  have hread : Read F base (.relocatable s.fn.code.size)
      (s.arith op f r operand event.number flip.toNat line base meant) := by
    refine ⟨.ofKind ?_ (hi.weaken fun q hq => ?_) State.arith_free, ?_⟩
    · rw [State.arith_keeps.level]
      exact hl
    · rw [State.arith_free] at hq
      exact Nat.lt_of_lt_of_le hq hb
    rintro _ ⟨⟩
    refine .inr ⟨op, ⟨_, ?_, Draft.opcode?_word (.abck op 0 r operand 0)⟩, ?_⟩
    · exact grows_push _ _ _ _ Array.getElem?_push_size
    · rintro rfl
      cases hf
  refine Via.next (Via.emit ?_)
  have hd : (Draft.abck op 0 r operand 0).fits = true := Draft.fits_abck.2 (by omega)
  have hb₁ := h.base.emit hd (ht.refers hf hd)
  have h₂' : Second base r operand op (s.emit (.abck op 0 r operand 0) meant) e := by
    cases h₂ with
    | constant hr ho hop hs => exact .constant hr ho hop hs
    | register hs => exact .register hs
  refine Via.next (Via.freeExps hb₁ hl h₂' ?_)
  have hb₂ : Base ((s.emit (.abck op 0 r operand 0) meant).setFree base) :=
    hb₁.setFree (by exact Nat.le_trans hb hroom)
  refine Via.next (Via.fixLine hb₂ (by simp [State.emit, State.setFree]) ?_)
  refine Via.next (Via.discard (Via.emit ?_))
  refine Via.next (Via.fixLine ?_ (by simp [State.emit]) ?_)
  · have hd' : (Draft.abck f r operand event.number flip.toNat).fits = true :=
      Draft.fits_abck.2 (by omega)
    exact (hb₂.fixLine (by simp [State.emit, State.setFree])).emit hd' (ht.fallback hf hd')
  refine Via.pure ⟨hread, _, rfl, ?_, (Draft.abck f r operand event.number flip.toNat).word, ?_,
    Draft.opcode?_word _⟩
  · simp [State.emit, State.fixLine, State.setFree]
  · rw [← Array.size_push (Draft.abck op 0 r operand 0).word]
    exact Array.getElem?_push_size

theorem State.Slots.symm (h : s.Slots base r₁ r₂) : s.Slots base r₂ r₁ := by
  rcases h with h | h | ⟨h, hf⟩
  · exact .inr (.inl h)
  · exact .inl h
  · exact .inr (.inr ⟨h.symm.imp And.symm And.symm, hf⟩)

theorem State.Slot.tableAt (h : s.Slot base r) : s.TableAt base s.fn.freeReg r := h

theorem State.TableAt.mono (h : s.TableAt base base₂ r) (hk : Keeps s s') :
    s'.TableAt base base₂ r := by
  unfold State.TableAt
  rw [hk.level]
  exact h

/-- An operand in a register, with all values before it. -/
structure Placement (F : List Pending) (base r : Nat) (s : State) : Prop where
  low : s.level ≤ base
  slot : s.Slot base r
  inv : Inv F none (· < s.fn.freeReg) s

theorem Val.placement (h : Val F base (.inReg r) s) : Placement F base r s :=
  ⟨h.low, h.slot, h.inv_inReg⟩

theorem Val.toRegister (h : Val F base e s) :
    Via Keeps (toAnyRegister e) s fun r s' => Placement F base r s' :=
  Via.mono (toAnyRegister_spec h) fun _ _ _ hv => hv.placement

theorem Left.toRegister (h : Left base base₂ s e) (hl : s.level ≤ base) (hf : s.fn.freeReg = base₂)
    (hi : Inv F none (· < s.fn.freeReg) s) :
    Via Keeps (toAnyRegister e) s fun r s' => Placement F base r s' := by
  cases h with
  | register ht =>
    rw [toAnyRegister_inReg]
    refine Via.pure ⟨hl, ?_, hi⟩
    subst hf
    exact ht
  | constant hc hb =>
    have hfb := hf.trans hb
    have hv := hc.val (hfb.symm ▸ hl) hi
    rw [hfb] at hv
    exact hv.toRegister

theorem Left.toRegisters {α : Type} {f : Nat → Nat → M α} {Q : α → State → Prop}
    (h : Left base base₂ s e₁) (hl : s.level ≤ base) (h₂ : Val F base₂ e₂ s)
    (hf : ∀ r₁ r₂ s', s'.level ≤ base → s'.Slots base r₁ r₂ → Inv F none (· < s'.fn.freeReg) s' →
      Via Keeps (f r₁ r₂) s' Q) :
    Via Keeps (do
      let r₂ ← toAnyRegister e₂
      let r₁ ← toAnyRegister e₁
      f r₁ r₂) s Q := by
  refine Via.bind (toAnyRegister_spec h₂) ?_
  intro r₂ s₁ hk₁ hv₂
  have hl₁ : s₁.level ≤ base := hk₁.level ▸ hl
  cases h with
  | register ht =>
    rw [toAnyRegister_inReg]
    exact Via.next (Via.pure (hf _ _ _ hl₁ ((ht.mono hk₁).slots hv₂.slot) hv₂.inv_inReg))
  | constant hc hb =>
    subst hb
    have hle := hv₂.base_le
    have hv₁ := (hc.mono hk₁).val (by omega) hv₂.inv_inReg
    refine Via.bind (toAnyRegister_spec hv₁) ?_
    intro r₁ s₂ hk₂ hv
    have hslots := (State.TableAt.mono hv₂.slot.tableAt hk₂).slots hv.slot
    exact hf _ _ _ (hk₂.level ▸ hl₁) hslots.symm hv.inv_inReg

section

variable {op f : Opcode} {operand : Nat} {flip : Bool} {event : Event} {meant : List Value}

theorem emitArith_constant (h : Via Keeps (toAnyRegister e₁) s fun r s' => Placement F base r s')
    (hr : e₂.register? = none) (hf : op.fallback? = some f) (hop : op.isRegisterArith = false)
    (ho : operand ≤ 255) (ht : op.Takes s.fn.references operand meant) :
    Via Keeps (emitArith op e₁ e₂ operand flip line f event meant) s fun e' s' =>
      ArithResult F base f e' s' := by
  unfold emitArith
  refine Via.bind h ?_
  rintro r s₁ hk₁ ⟨hl, hs, hi⟩
  exact arithTail_spec hi hl hf (.constant hr ho hop hs) (ht.mono hk₁.references)

theorem emitArithRegisters_spec {op : ArithOp} (h : Left base base₂ s e₁) (hl : s.level ≤ base)
    (h₂ : Val F base₂ e₂ s) (hf : (arithOpcode op).fallback? = some .mmBin) :
    Via Keeps (emitArithRegisters op e₁ e₂ line) s fun e' s' => Read F base e' s' := by
  unfold emitArithRegisters emitArith
  refine Left.toRegisters h hl h₂ ?_
  intro r₁ r₂ s' hl' hs hi
  exact Via.mono (arithTail_spec hi hl' hf (.register hs) (Opcode.takes_of_ne hf (by simp)))
    fun _ _ _ h => h.read

end

theorem fitsSC_operand {n : Int64} (h : fitsSC n = true) : signedOperand n ≤ 255 := by
  simp only [fitsSC, Bool.and_eq_true, decide_eq_true_eq, Int64.le_iff_toInt_le] at h
  have h₁ : Int64.toInt (-127) = -127 := rfl
  have h₂ : Int64.toInt 128 = 128 := rfl
  unfold signedOperand
  omega

theorem Exp.smallInteger?_eq {n : Int64} (h : e.smallInteger? = some n) :
    e.integer? = some n ∧ fitsSC n = true := by
  unfold Exp.smallInteger? at h
  split at h
  · split at h
    · rename_i m hm hf
      cases h
      exact ⟨hm, hf⟩
    · cases h
  · cases h

theorem Exp.register?_of_kind (h : ∀ r, e.kind ≠ .inReg r) : e.register? = none := by
  unfold Exp.register?
  split
  · exact absurd ‹_› (h _)
  · rfl

theorem Exp.integer?_register {n : Int64} (h : e.integer? = some n) : e.register? = none := by
  apply Exp.register?_of_kind
  simp [Exp.integer?_eq h]

/-- Both operands of a binary operation, the right one just read. -/
structure Operands (F : List Pending) (base base₂ : Nat) (e₁ e₂ : Exp) (s : State) : Prop where
  low : s.level ≤ base
  left : Left base base₂ s e₁
  right : Val F base₂ e₂ s

theorem toConstant?_pool {Q : Option PoolEntry → State → Prop} (hc : e.IsConstant s) (hb : Base s)
    (h : ∀ k? p logs, PoolGrown s.fn.pool p →
      (∀ k, k? = some k → k.index ≤ 255 ∧ p.Holds k ∧ ∀ m, e.numeral? = some m →
        p.Has k.index (.num m)) →
      Q k? (s.setPool p logs)) : Via Keeps (toConstant? e) s Q := by
  have hold : PoolGrown s.fn.pool s.fn.pool := ⟨hb.pool, hb.known, fun _ _ h => h⟩
  have hsmall : ∀ {n : PoolEntry} {p : ConstantPool}, p.Holds n →
      (∀ m, e.numeral? = some m → p.Has n.index (.num m)) →
      ∀ k, (if n.index ≤ Instruction.maxB then some n else none) = some k →
        k.index ≤ 255 ∧ p.Holds k ∧ ∀ m, e.numeral? = some m → p.Has k.index (.num m) := by
    intro n p hn hm k hk
    split at hk
    · cases hk
      exact ⟨‹_›, hn, hm⟩
    · cases hk
  unfold toConstant?
  cases hc with
  | int =>
    refine Via.next (Via.map (Via.addConstant hb (by simp) fun n p logs hp hn => ?_))
    exact Via.pure (h _ p logs hp (hsmall hn (by rintro _ ⟨⟩; exact hn)))
  | float =>
    refine Via.next (Via.map (Via.addConstant hb (by simp) fun n p logs hp hn => ?_))
    exact Via.pure (h _ p logs hp (hsmall hn (by rintro _ ⟨⟩; exact hn)))
  | konst hn =>
    exact Via.next
      (Via.pure (Via.pure (h _ _ (s.stores, s.floats) hold (hsmall hn (by rintro _ ⟨⟩)))))

/-- The operations on two registers, and those of them that have a form with a constant. -/
theorem arithConstantOpcode?_eq {op : ArithOp} {opcode : Opcode}
    (h : arithConstantOpcode? op = some opcode) :
    opcode.fallback? = some .mmBinK ∧ opcode.isRegisterArith = false := by
  cases op <;> cases h <;> exact ⟨rfl, rfl⟩

/-- A form with a constant is chosen only if that is a number, or an integer for bitwise
operations. -/
def Exp.ConstantFor (e : Exp) (op : ArithOp) : Prop :=
  ∃ m, e.numeral? = some m ∧ (op.isBitwise = true → m.isInt = true)

theorem Exp.constantFor_numeral {op : ArithOp} (hop : op.isBitwise = false)
    (h : e.isNumeral = true) : e.ConstantFor op := by
  obtain ⟨m, hm⟩ := Option.isSome_iff_exists.1 h
  refine ⟨m, hm, fun hb => ?_⟩
  rw [hop] at hb
  cases hb

theorem Exp.constantFor_integer {op : ArithOp} {n : Int64} (h : e.integer? = some n) :
    e.ConstantFor op := by
  unfold Exp.integer? at h
  split at h
  · exact ⟨_, ‹_›, fun _ => rfl⟩
  · cases h

theorem takes_constant {op : ArithOp} {opcode : Opcode} {k : PoolEntry}
    (h : arithConstantOpcode? op = some opcode)
    (ha : e.ConstantFor op) (hholds : s.fn.pool.Holds k)
    (hk : ∀ m, e.numeral? = some m → s.fn.pool.Has k.index (.num m)) :
    opcode.Takes s.fn.references k.index [k.value] := by
  obtain ⟨m, hm, hint⟩ := ha
  obtain ⟨w, hw, hs⟩ := hk m hm
  have hstand : Stand s.fn.references.constants [k.index] [k.value] := .cons hholds .nil
  have hnum : s.fn.references.Holds Value.isNumber k.index := ⟨w, hw, hs.holds rfl fun _ _ => rfl⟩
  have hbit : op.isBitwise = true → s.fn.references.Holds Value.isInteger k.index := by
    intro hb
    cases m with
    | int n => exact ⟨w, hw, hs.holds rfl fun _ _ => rfl⟩
    | float x => cases hint hb
  intro i f hf
  cases op <;> cases h <;> cases hf <;> refine ⟨fun hc => ?_, fun hb => ?_⟩
  all_goals first
    | exact ⟨show s.fn.references.Holds _
      i.b by rw [hb]; exact hnum, show Stand _ [i.b] _ by rw [hb]; exact hstand⟩
    | exact ⟨show s.fn.references.Holds _
      i.c by rw [hc]; exact hnum, show Stand _ [i.c] _ by rw [hc]; exact hstand⟩
    | exact ⟨show s.fn.references.Holds _
      i.c by rw [hc]; exact hbit rfl, show Stand _ [i.c] _ by rw [hc]; exact hstand⟩

section

variable {op : ArithOp} {useConstant : Bool}

theorem emitArithConstant_right (h : Operands F base base₂ e₁ e₂ s)
    (hf : (arithOpcode op).fallback? = some .mmBin) (ha : useConstant = true → e₂.ConstantFor op) :
    Via Keeps (emitArithConstant op e₁ e₂ useConstant false line) s fun e' s' =>
      Read F base e' s' := by
  have hregisters : ∀ {s : State}, Operands F base base₂ e₁ e₂ s →
      Via Keeps (emitArithRegisters op e₁ e₂ line) s fun e' s' => Read F base e' s' :=
    fun h => emitArithRegisters_spec h.left h.low h.right hf
  unfold emitArithConstant
  cases useConstant with
  | false => exact Via.next (Via.pure (hregisters h))
  | true =>
    refine Via.bind ((toConstant?_spec h.right).weaken fun _ h => h.toKeeps) ?_
    rintro k? s₁ hk₁ ⟨hv, hk⟩
    have h₁ : Operands F base base₂ e₁ e₂ s₁ := ⟨hk₁.level ▸ h.low, h.left.mono hk₁, hv⟩
    cases k? with
    | none => exact hregisters h₁
    | some k =>
      obtain ⟨hk, hkonst, hnum⟩ := hk k rfl
      cases hop : arithConstantOpcode? op with
      | none => exact hregisters h₁
      | some opcode =>
        obtain ⟨hf', hr⟩ := arithConstantOpcode?_eq hop
        have hi := hkonst.plain rfl rfl
        exact Via.mono (emitArith_constant (h₁.left.toRegister h₁.low hkonst.place.1 hi) rfl hf' hr
          hk
          (takes_constant hop (ha rfl) hkonst.place.2 hnum)) fun _ _ _ h => h.read

theorem emitArithConstant_left (hc : e₁.IsConstant s) (hl : s.level ≤ base) (h : Val F base e₂ s)
    (hf : (arithOpcode op).fallback? = some .mmBin) (ha : useConstant = true → e₁.ConstantFor op) :
    Via Keeps (emitArithConstant op e₂ e₁ useConstant true line) s fun e' s' =>
      Read F base e' s' := by
  have hregisters : ∀ {s : State}, e₁.IsConstant s → s.level ≤ base → Val F base e₂ s →
      Via Keeps (emitArithRegisters op e₁ e₂ line) s fun e' s' => Read F base e' s' :=
    fun hc hl h => emitArithRegisters_spec (.constant hc rfl) hl h hf
  unfold emitArithConstant
  cases useConstant with
  | false => exact Via.next (Via.pure (hregisters hc hl h))
  | true =>
    refine Via.next (toConstant?_pool hc h.toBase fun k? p logs hp hk => ?_)
    have hc₁ := hc.mono (Coded.setPool logs hp).toKeeps
    have h₁ := h.setPool logs hp
    cases k? with
    | none => exact hregisters hc₁ hl h₁
    | some k =>
      cases hop : arithConstantOpcode? op with
      | none => exact hregisters hc₁ hl h₁
      | some opcode =>
        obtain ⟨hf', hr⟩ := arithConstantOpcode?_eq hop
        obtain ⟨hk, hholds, hnum⟩ := hk k rfl
        exact Via.mono (emitArith_constant h₁.toRegister rfl hf' hr hk
          (takes_constant hop (ha rfl) hholds hnum)) fun _ _ _ h => h.read

end

theorem emitArithInteger_spec {op : Opcode} {n : Int64} {flip : Bool} {event : Event}
    (h : Via Keeps (toAnyRegister e₁) s fun r s' => Placement F base r s')
    (hr : e₂.register? = none)
    (hop : op.fallback? = some .mmBinI) (hn : fitsSC n = true) :
    Via Keeps (emitArithInteger op e₁ e₂ n flip line event) s fun e' s' => Read F base e' s' := by
  have hra : op.isRegisterArith = false := by
    cases op <;> first | rfl | cases hop
  unfold emitArithInteger
  exact Via.mono (emitArith_constant h hr hop hra (fitsSC_operand hn)
    (Opcode.takes_of_ne hop (by simp))) fun _ _ _ h => h.read

theorem setFallback_spec {n : Nat} (h : ArithResult F base .mmBinI e s) (hn : n ≤ 255) :
    Via Keeps (setLast [(.b, n)]) s fun _ s' => Read F base e s' := by
  obtain ⟨pc, rfl, hsize, i, hi, hop⟩ := h.last
  unfold setLast
  refine Via.next (Via.here ?_)
  have hlast : s.fn.code.size - 1 = pc + 1 := by omega
  rw [hlast]
  refine Via.setAt (by omega) ?_
  have hop' : (i.setAll [(.b, n)]).opcode? = some .mmBinI := by
    rw [Instruction.opcode?_setAll _ _ rfl, hop]
  have ha : (i.setAll [(.b, n)]).a = i.a := Instruction.get_setAll_apart .a _ i rfl
  have hr := h.read
  have hinv := hr.plain rfl rfl
  have hi' : Inv F (some pc) (· < s.fn.freeReg) (s.setAt (pc + 1) [(.b, n)]) := by
    refine Inv.setAt hinv.base ?_
      (hinv.sound.editNeutral hi hop hop' rfl ?_ ha ?_ ?_ ?_ (by simp) ?_)
      (.modify_free hi hop hop' rfl rfl) hinv.held
    · simp only [List.all_cons, List.all_nil, Bool.and_true, Instruction.Field.fits_iff]
      exact hn
    · rw [Instruction.demand_eq hop', Instruction.demand_eq hop]
      rfl
    · rw [Instruction.reads_eq hop', Instruction.reads_eq hop]
      exact congrArg (fun q => [q]) ha
    · rw [Instruction.flow_eq hop', Instruction.flow_eq hop]
      rfl
    · rw [Instruction.registers_eq hop', Instruction.registers_eq hop]
      exact congrArg (fun q => [q]) ha
    · rintro _ ⟨⟩
      omega
  refine ⟨.ofKind hr.low hi' hr.place, ?_⟩
  rintro _ ⟨⟩
  rcases hr.fresh pc rfl with h' | ⟨op, ⟨j, hj, hopj⟩, hne⟩
  · omega
  · refine .inr ⟨op, ⟨j, ?_, hopj⟩, hne⟩
    show (s.fn.code.modify (pc + 1) _)[pc]? = _
    rw [Array.getElem?_modify, if_neg (by omega), hj]

theorem emitArithNegated?_spec {op : Opcode} {event : Event} (h : Operands F base base₂ e₁ e₂ s)
    (hop : op.fallback? = some .mmBinI) :
    Via Keeps (emitArithNegated? op e₁ e₂ line event) s fun e? s' =>
      match e? with
      | some e => Read F base e s'
      | none => s' = s := by
  have hra : op.isRegisterArith = false := by
    cases op <;> first | rfl | cases hop
  unfold emitArithNegated?
  cases hn : e₂.integer? with
  | none => exact Via.pure rfl
  | some n =>
    refine Via.ite (fun hfits => ?_) fun _ => Via.pure rfl
    simp only [Bool.and_eq_true] at hfits
    have hnum : e₂.numeral? = some (.int n) := by
      unfold Exp.integer? at hn
      split at hn
      · cases hn
        assumption
      · cases hn
    obtain ⟨hi, hf⟩ := h.right.numeralInv hnum
    refine Via.bind (emitArith_constant (h.left.toRegister h.low hf hi) (Exp.integer?_register hn)
      hop hra
      (fitsSC_operand hfits.2) (Opcode.takes_of_ne hop (by simp))) ?_
    intro e s₁ _ hres
    refine Via.bind (setFallback_spec hres (fitsSC_operand hfits.1)) ?_
    exact fun _ _ _ hr => Via.pure hr

theorem Left.numeral {n : Number} (h : Left base base₂ s e) (hn : e.numeral? = some n) :
    base₂ = base ∧ e.IsConstant s := by
  obtain ⟨-, hk⟩ := Exp.numeral?_eq hn
  cases h with
  | register h => rcases hk with ⟨_, hk⟩ | ⟨_, hk⟩ <;> cases hk
  | constant h hb => exact ⟨hb, h⟩

theorem Exp.numeral?_of_integer {n : Int64} (h : e.integer? = some n) :
    e.numeral? = some (.int n) := by
  unfold Exp.integer? at h
  split at h
  · cases h
    assumption
  · cases h

theorem Exp.numeral?_register {n : Number} (h : e.numeral? = some n) : e.register? = none := by
  apply Exp.register?_of_kind
  rcases (Exp.numeral?_eq h).2 with ⟨_, hk⟩ | ⟨_, hk⟩ <;> simp [hk]

section

variable {op : ArithOp}

theorem emitCommutative_spec (h : Operands F base base₂ e₁ e₂ s)
    (hf : (arithOpcode op).fallback? = some .mmBin) (hb : op.isBitwise = false) :
    Via Keeps (emitCommutative op e₁ e₂ line) s fun e' s' => Read F base e' s' := by
  unfold emitCommutative
  cases hn : e₁.numeral? with
  | some n =>
    -- a number on the left goes to the right
    obtain ⟨rfl, hc⟩ := h.left.numeral hn
    have hflip : e₁.isNumeral = true := by simp [Exp.isNumeral, hn]
    rw [hflip]
    simp only [if_true]
    split
    · rename_i m hm
      obtain ⟨-, hfits⟩ := Exp.smallInteger?_eq hm
      exact emitArithInteger_spec h.right.toRegister (Exp.numeral?_register hn) rfl hfits
    · exact emitArithConstant_left hc h.low h.right hf (Exp.constantFor_numeral hb)
  | none =>
    have hflip : e₁.isNumeral = false := by simp [Exp.isNumeral, hn]
    rw [hflip]
    simp only [Bool.false_eq_true, if_false]
    split
    · rename_i m hm
      obtain ⟨hint, hfits⟩ := Exp.smallInteger?_eq hm
      obtain ⟨hi, hfree⟩ := h.right.numeralInv (Exp.numeral?_of_integer hint)
      exact emitArithInteger_spec (h.left.toRegister h.low hfree hi) (Exp.integer?_register hint)
        rfl hfits
    · exact emitArithConstant_right h hf (Exp.constantFor_numeral hb)

theorem emitBitwise_spec (h : Operands F base base₂ e₁ e₂ s)
    (hf : (arithOpcode op).fallback? = some .mmBin) :
    Via Keeps (emitBitwise op e₁ e₂ line) s fun e' s' => Read F base e' s' := by
  unfold emitBitwise
  cases hn : e₁.integer? with
  | some n =>
    obtain ⟨rfl, hc⟩ := h.left.numeral (Exp.numeral?_of_integer hn)
    exact emitArithConstant_left hc h.low h.right hf fun _ => Exp.constantFor_integer hn
  | none =>
    refine emitArithConstant_right h hf fun hi => ?_
    obtain ⟨n, hn⟩ := Option.isSome_iff_exists.1 hi
    exact Exp.constantFor_integer hn

theorem emitShiftLeft_spec (h : Operands F base base₂ e₁ e₂ s) :
    Via Keeps (emitShiftLeft e₁ e₂ line) s fun e' s' => Read F base e' s' := by
  unfold emitShiftLeft
  cases hn : e₁.smallInteger? with
  | some n =>
    obtain ⟨hint, hfits⟩ := Exp.smallInteger?_eq hn
    obtain ⟨rfl, -⟩ := h.left.numeral (Exp.numeral?_of_integer hint)
    exact emitArithInteger_spec h.right.toRegister (Exp.integer?_register hint) rfl hfits
  | none =>
    refine Via.bind (emitArithNegated?_spec h rfl) ?_
    intro e? s' _ he
    cases e? with
    | some e => exact Via.pure he
    | none =>
      subst he
      exact emitArithRegisters_spec h.left h.low h.right rfl

theorem emitArithmetic_spec (h : Operands F base base₂ e₁ e₂ s)
    (hf : (arithOpcode op).fallback? = some .mmBin) :
    Via Keeps (emitArithmetic op e₁ e₂ line) s fun e' s' => Read F base e' s' := by
  unfold emitArithmetic
  cases op with
  | add | mul => exact emitCommutative_spec h hf rfl
  | sub =>
    refine Via.bind (emitArithNegated?_spec h rfl) ?_
    intro e? s' _ he
    cases e? with
    | some e => exact Via.pure he
    | none =>
      subst he
      exact emitArithConstant_right h hf (Exp.constantFor_numeral rfl)
  | band | bor | bxor => exact emitBitwise_spec h hf
  | shl => exact emitShiftLeft_spec h
  | shr =>
    cases hn : e₂.smallInteger? with
    | some n =>
      obtain ⟨hint, hfits⟩ := Exp.smallInteger?_eq hn
      obtain ⟨hi, hfree⟩ := h.right.numeralInv (Exp.numeral?_of_integer hint)
      exact emitArithInteger_spec (h.left.toRegister h.low hfree hi) (Exp.integer?_register hint)
        rfl hfits
    | none =>
      exact emitArithRegisters_spec h.left h.low h.right hf
  | unm | bnot => cases hf
  | _ => exact emitArithConstant_right h hf (Exp.constantFor_numeral rfl)

end

end Compile

end LuaChunk
