import LuaChunk.Proofs.Compile.Operator

set_option autoImplicit false

namespace LuaChunk

open JumpList (Code IsOp Chain)

namespace Compile

variable {F : List Pending} {base base₂ r r₁ r₂ line : Nat} {e e₁ e₂ : Exp} {s s' : State}

/-- A comparison: it reads registers and stores nothing. -/
structure Comparison (op : Opcode) : Prop where
  test : op.isTest = true
  stores : op ≠ .testSet
  uses : ∀ i : Instruction, i.registersOf op = i.readsOf op

/-- The second operand of a comparison: only that of one with a constant refers to anything. -/
def Compared (pool : ConstantPool) (op : Opcode) (operand : Nat) (meant : List Value) : Prop :=
  op ≠ .eqK ∧ meant = [] ∨ op = .eqK ∧ ∃ k : PoolEntry, pool.Holds k ∧ operand = k.index ∧
    meant = [k.value]

theorem Compared.plain {pool : ConstantPool} {op : Opcode} {operand : Nat} (h : op ≠ .eqK) :
    Compared pool op operand [] :=
  .inl ⟨h, rfl⟩

theorem Compared.serves {op : Opcode} {operand : Nat} {meant : List Value} {w : Instruction}
    (hop : Comparison op)
    (h : Compared s.fn.pool op operand meant) (hw : w.b = operand) : w.Serves s.fn.references op
    meant := by
  obtain ⟨hne, rfl⟩ | ⟨rfl, k, hk, hi, rfl⟩ := h
  · refine Instruction.serves_of_free ?_
    have ht := hop.test
    cases op <;> first
      | rfl
      | (cases ht; done)
      | exact absurd rfl hne
  · exact ⟨Nat.lt_of_le_of_lt (Nat.le_of_eq (hw.trans hi)) hk.lt, hk.stand (hw.trans hi)⟩

theorem compare_spec {op : Opcode} {operand c k : Nat} {meant : List Value} (hop : Comparison op)
    (h : Inv F none (· < s.fn.freeReg) s) (hl : s.level ≤ base) (hb : base ≤ s.fn.freeReg)
    (hr : r ≤ 255)
    (ho : operand ≤ 255) (hc : c ≤ 255) (hk : k ≤ 1)
    (hreads : ∀ w : Instruction, w.a = r → w.b = operand → ∀ q ∈ w.readsOf op, q < s.fn.freeReg)
    (hx : Compared s.fn.pool op operand meant) :
    Via Keeps (do return Exp.mk (.jump (← testJump op r operand c k meant)) none none)
      (s.setFree base)
      fun e' s' => Read F base e' s' := by
  have hroom := h.room
  refine Via.next (Via.testJump
    (Via.pure ⟨.ofKind hl ?_ ⟨rfl, s.fn.code.size, op, rfl, ?_, hop.test, hop.stores⟩,
    .of_ne (by simp)⟩))
  · have hi : Inv F none (· < s.fn.freeReg) (s.setFree base) := h.setFree (by omega)
    have ht := @Inv.test F (· < s.fn.freeReg) (s.setFree base) op r operand c k meant base hi
      ⟨hr, ho, hc, hk⟩ hop.test ?_ ?_
      fun w hw => Compared.serves (s := s.setFree base) hop hx hw
    · exact ht.weaken fun q hq => Nat.lt_of_lt_of_le hq hb
    · intro w ha hb' _
      refine ⟨.inl ⟨hop.stores, ?_⟩, hreads w ha hb'⟩
      rw [hop.uses]
      intro q hq
      exact Nat.lt_of_lt_of_le (hreads w ha hb' q hq) hroom
    · exact fun q hq => Nat.lt_of_lt_of_le hq hb
  · exact ⟨_, grows_push _ _ _ _ Array.getElem?_push_size,
      Draft.opcode?_word (.abck op r operand c k)⟩

theorem compareConstant_spec {op : Opcode} {operand c k : Nat} {meant : List Value}
    (hop : Comparison op)
    (hone : ∀ i : Instruction, i.readsOf op = [i.a]) (h : Placement F base r s)
    (he : e.register? = none)
    (ho : operand ≤ 255) (hc : c ≤ 255) (hk : k ≤ 1) (hx : Compared s.fn.pool op operand meant) :
    Via Keeps (do
      freeExps (.inReg r) e
      return Exp.mk (.jump (← testJump op r operand c k meant)) none none) s fun e' s' =>
        Read F base e' s' := by
  have hlt := h.slot.lt h.low
  have hroom := h.inv.room
  have hstack := h.inv.maxStack_le
  refine Via.next (Via.freeExps h.inv.base h.low
    (@Second.constant base r operand .move s e he ho rfl h.slot) ?_)
  refine compare_spec hop h.inv h.low h.slot.le (by omega) ho hc hk ?_ hx
  intro w ha _ q hq
  rw [hone] at hq
  rw [List.mem_singleton.1 hq, ha]
  exact hlt

theorem freeExps_comm (he : e.register? = none) :
    freeExps e (.inReg r) = freeExps (.inReg r) e := by
  unfold freeExps
  rw [he]
  rfl

theorem compareRegisters_spec {op : Opcode} {c k : Nat} (hop : Comparison op)
    (htwo : ∀ i : Instruction, i.readsOf op = [i.a, i.b]) (hi : Inv F none (· < s.fn.freeReg) s)
    (hl : s.level ≤ base) (hs : s.Slots base r₁ r₂) (hc : c ≤ 255) (hk : k ≤ 1)
    (hne : op ≠ .eqK) :
    Via Keeps (do
      freeExps (.inReg r₁) (.inReg r₂)
      return Exp.mk (.jump (← testJump op r₁ r₂ c k)) none none) s fun e' s' =>
        Read F base e' s' := by
  obtain ⟨h₁, h₂⟩ := hs.lt hl
  have hroom := hi.room
  have hstack := hi.maxStack_le
  refine Via.next (Via.freeSlots hi.base hl hs ?_)
  refine compare_spec hop hi hl hs.le (by omega) (by omega) hc hk ?_ (.plain hne)
  intro w ha hb q hq
  rw [htwo, ha, hb] at hq
  simp only [List.mem_cons, List.not_mem_nil, or_false] at hq
  omega

theorem Exp.smallNumber?_eq {n : Nat} {isFloat : Bool} (h : e.smallNumber? = some (n, isFloat)) :
    n ≤ 255 ∧ ∃ m, e.numeral? = some m := by
  unfold Exp.smallNumber? at h
  split at h
  · cases h
  · rename_i m hm
    refine ⟨?_, m, hm⟩
    split at h
    · cases h
    · split at h
      · cases h
        exact fitsSC_operand ‹_›
      · cases h

theorem comparison_pick {strict weak : Opcode} {orEqual : Bool} (h₁ : Comparison strict)
    (h₂ : Comparison weak) : Comparison (if orEqual then weak else strict) := by
  cases orEqual
  · exact h₁
  · exact h₂

theorem reads_pick {strict weak : Opcode} {orEqual : Bool} {f : Instruction → List Nat}
    (h₁ : ∀ i : Instruction, i.readsOf strict = f i) (h₂ : ∀ i : Instruction, i.readsOf weak = f i)
    (i : Instruction) : i.readsOf (if orEqual then weak else strict) = f i := by
  cases orEqual
  · exact h₁ i
  · exact h₂ i

theorem toNat_le (b : Bool) : b.toNat ≤ 255 := by cases b <;> decide

/-- A left operand that can be compared: a small number or a register. -/
def Ordered (e : Exp) : Prop := e.smallNumber? = none → ∃ r, e = .inReg r

theorem emitOrder_spec {orEqual : Bool} (h : Operands F base base₂ e₁ e₂ s) (hl : Ordered e₁) :
    Via Keeps (emitOrder orEqual e₁ e₂) s fun e' s' => Read F base e' s' := by
  unfold emitOrder
  cases h₂ : e₂.smallNumber? with
  | some p =>
    obtain ⟨n, isFloat⟩ := p
    obtain ⟨ho, m, hm⟩ := Exp.smallNumber?_eq h₂
    obtain ⟨hi, hf⟩ := h.right.numeralInv hm
    refine Via.bind (h.left.toRegister h.low hf hi) ?_
    intro r s₁ _ hp
    exact compareConstant_spec
      (comparison_pick ⟨rfl, by simp, fun _ => rfl⟩ ⟨rfl, by simp, fun _ => rfl⟩)
      (reads_pick (fun _ => rfl) fun _ => rfl) hp (Exp.numeral?_register hm) ho (toNat_le _)
        (Nat.le_refl _)
      (.plain (by cases orEqual <;> simp))
  | none =>
    cases h₁ : e₁.smallNumber? with
    | some p =>
      obtain ⟨n, isFloat⟩ := p
      obtain ⟨ho, m, hm⟩ := Exp.smallNumber?_eq h₁
      obtain ⟨rfl, -⟩ := h.left.numeral hm
      refine Via.bind h.right.toRegister ?_
      intro r s₁ _ hp
      have he := Exp.numeral?_register hm
      simp only [freeExps_comm he]
      exact compareConstant_spec
        (comparison_pick ⟨rfl, by simp, fun _ => rfl⟩ ⟨rfl, by simp, fun _ => rfl⟩)
        (reads_pick (fun _ => rfl) fun _ => rfl) hp he ho (toNat_le _) (Nat.le_refl _)
          (.plain (by cases orEqual <;> simp))
    | none =>
      obtain ⟨r₁, rfl⟩ := hl h₁
      rw [toAnyRegister_inReg]
      refine Via.next (Via.pure (Via.bind (toAnyRegister_spec h.right) ?_))
      intro r₂ s₁ hk₁ hv
      cases h.left with
      | constant hc _ => cases hc
      | register ht =>
        exact compareRegisters_spec
          (comparison_pick ⟨rfl, by simp, fun _ => rfl⟩ ⟨rfl, by simp, fun _ => rfl⟩)
          (reads_pick (fun _ => rfl) fun _ => rfl) hv.inv_inReg (hk₁.level ▸ h.low)
          ((ht.mono hk₁).slots hv.slot) (toNat_le _) (Nat.le_refl _) (by cases orEqual <;> simp)

theorem emitOrder_swapped {orEqual : Bool} (h : Operands F base base₂ e₁ e₂ s) (hl : Ordered e₁) :
    Via Keeps (emitOrder orEqual e₂ e₁) s fun e' s' => Read F base e' s' := by
  unfold emitOrder
  cases h₁ : e₁.smallNumber? with
  | some p =>
    obtain ⟨n, isFloat⟩ := p
    obtain ⟨ho, m, hm⟩ := Exp.smallNumber?_eq h₁
    obtain ⟨rfl, -⟩ := h.left.numeral hm
    refine Via.bind h.right.toRegister ?_
    intro r s₁ _ hp
    exact compareConstant_spec
      (comparison_pick ⟨rfl, by simp, fun _ => rfl⟩ ⟨rfl, by simp, fun _ => rfl⟩)
      (reads_pick (fun _ => rfl) fun _ => rfl) hp (Exp.numeral?_register hm) ho (toNat_le _)
        (Nat.le_refl _)
      (.plain (by cases orEqual <;> simp))
  | none =>
    cases h₂ : e₂.smallNumber? with
    | some p =>
      obtain ⟨n, isFloat⟩ := p
      obtain ⟨ho, m, hm⟩ := Exp.smallNumber?_eq h₂
      obtain ⟨hi, hf⟩ := h.right.numeralInv hm
      refine Via.bind (h.left.toRegister h.low hf hi) ?_
      intro r s₁ _ hp
      have he := Exp.numeral?_register hm
      simp only [freeExps_comm he]
      exact compareConstant_spec
        (comparison_pick ⟨rfl, by simp, fun _ => rfl⟩ ⟨rfl, by simp, fun _ => rfl⟩)
        (reads_pick (fun _ => rfl) fun _ => rfl) hp he ho (toNat_le _) (Nat.le_refl _)
          (.plain (by cases orEqual <;> simp))
    | none =>
      obtain ⟨r₁, rfl⟩ := hl h₁
      rw [toAnyRegister_inReg]
      refine Via.bind (toAnyRegister_spec h.right) ?_
      intro r₂ s₁ hk₁ hv
      refine Via.next (Via.pure ?_)
      cases h.left with
      | constant hc _ => cases hc
      | register ht =>
        exact compareRegisters_spec
          (comparison_pick ⟨rfl, by simp, fun _ => rfl⟩ ⟨rfl, by simp, fun _ => rfl⟩)
          (reads_pick (fun _ => rfl) fun _ => rfl) hv.inv_inReg (hk₁.level ▸ h.low)
          ((ht.mono hk₁).slots hv.slot).symm (toNat_le _) (Nat.le_refl _)
            (by cases orEqual <;> simp)

theorem equalTail_spec {equal : Bool} (hl : s.level ≤ base) (ht : s.TableAt base base₂ r)
    (h : Val F base₂ e s) :
    Via Keeps (do
      let comparison :=
        fun (op : Opcode) (v₂ : Exp) (operand : Nat) (isFloat : Bool) (meant : List Value) => do
        freeExps (.inReg r) v₂
        return Exp.mk (.jump (← testJump op r operand isFloat.toNat equal.toNat meant)) none none
      match e.smallNumber? with
      | some (n, isFloat) => comparison .eqI e n isFloat []
      | none =>
        match ← toOperand e with
        | .konst k => comparison .eqK (Operand.toExp (.konst k)) k.index false [k.value]
        | .reg r₂ => comparison .eq (.inReg r₂) r₂ false []) s fun e' s' => Read F base e' s' := by
  have hbit : equal.toNat ≤ 1 := by cases equal <;> decide
  cases hn : e.smallNumber? with
  | some p =>
    obtain ⟨n, isFloat⟩ := p
    obtain ⟨ho, m, hm⟩ := Exp.smallNumber?_eq hn
    obtain ⟨hi, hf⟩ := h.numeralInv hm
    have hs : s.Slot base r := by
      subst hf
      exact ht
    exact compareConstant_spec ⟨rfl, by simp, fun _ => rfl⟩ (fun _ => rfl) ⟨hl, hs, hi⟩
      (Exp.numeral?_register hm) ho (toNat_le _) hbit (.plain (by simp))
  | none =>
    refine Via.bind (toOperand_spec h) ?_
    rintro o s₁ hk₁ ⟨hv, ho, -⟩
    have hl₁ : s₁.level ≤ base := hk₁.level ▸ hl
    have ht₁ := ht.mono hk₁
    cases o with
    | konst n =>
      have hs : s₁.Slot base r := by
        have hf : s₁.fn.freeReg = base₂ := hv.place.1
        subst hf
        exact ht₁
      exact compareConstant_spec ⟨rfl, by simp, fun _ => rfl⟩ (fun _ => rfl)
        ⟨hl₁, hs, hv.plain rfl rfl⟩
        rfl ho (toNat_le _) hbit (.inr ⟨rfl, n, hv.place.2, rfl, rfl⟩)
    | reg r₂ =>
      exact compareRegisters_spec ⟨rfl, by simp, fun _ => rfl⟩ (fun _ => rfl) hv.inv_inReg hl₁
        (ht₁.slots hv.slot) (toNat_le _) hbit (by simp)

theorem emitEqual_spec {equal : Bool} (h : Operands F base base₂ e₁ e₂ s) :
    Via Keeps (emitEqual equal e₁ e₂) s fun e' s' => Read F base e' s' := by
  unfold emitEqual
  cases h.left with
  | register ht => exact equalTail_spec h.low ht h.right
  | constant hc hb =>
    -- the constant goes to the right
    subst hb
    have hr : e₁.register?.isSome = false := by cases hc <;> rfl
    rw [hr]
    refine Via.bind (toAnyRegister_spec h.right) ?_
    intro r s₁ hk₁ hv
    have hl := hv.low
    have hle := hv.base_le
    exact equalTail_spec hl hv.slot.tableAt ((hc.mono hk₁).val (by omega) hv.inv_inReg)

theorem State.ConcatAt.fixLine (h : s.ConcatAt r) : (s.fixLine line).ConcatAt r := h

theorem Inv.extendConcat {i : Instruction} (h : Inv F none (· < base + 2) s)
    (hm : base + 2 ≤ s.fn.maxStack)
    (hL : s.fn.lastTarget < s.fn.code.size) (hi : s.fn.code[s.fn.code.size - 1]? = some i)
    (hop : i.opcode? = some .concat) (ha : i.a = base + 1) :
    Inv F none (· < base + 1) (s.setAt (s.fn.code.size - 1) [(.a, base), (.b, i.b + 1)]) ∧
      (s.setAt (s.fn.code.size - 1) [(.a, base), (.b, i.b + 1)]).ConcatAt base := by
  have hstack := h.maxStack_le
  have hregs : ∀ q ∈ List.range' (base + 1) i.b ++ [base + 1], q < s.fn.maxStack := by
    have hb := h.sound.bounds.lt hi (Instruction.ne_of_opcode hop (by simp))
    rw [Instruction.registers_eq hop] at hb
    change ∀ q ∈ List.range' i.a i.b ++ [i.a], q < s.fn.maxStack at hb
    rwa [ha] at hb
  have hend : base + 1 + i.b ≤ s.fn.maxStack := by
    by_cases hz : i.b = 0
    · omega
    · have := hregs (base + i.b) (List.mem_append_left _ (by rw [List.mem_range'_1]; omega))
      omega
  have hfa : Instruction.Field.a.fits base = true :=
    (Instruction.Field.fits_iff _ _).2 (show base ≤ 255 by omega)
  have hfb : Instruction.Field.b.fits (i.b + 1) = true :=
    (Instruction.Field.fits_iff _ _).2 (show i.b + 1 ≤ 255 by omega)
  obtain ⟨ha', hb'⟩ := Instruction.get_setAll_two i hfa hfb rfl rfl
  have hop' : (i.setAll [(.a, base), (.b, i.b + 1)]).opcode? = some .concat := by
    rw [Instruction.opcode?_setAll _ _ rfl, hop]
  have hreads : (i.setAll [(.a, base), (.b, i.b + 1)]).reads = List.range' base (i.b + 1) := by
    rw [Instruction.reads_eq hop']
    show List.range' (Instruction.get _ .a) (Instruction.get _ .b) = _
    rw [ha', hb']
  have hwrites : (i.setAll [(.a, base), (.b, i.b + 1)]).writes = [base] := by
    rw [Instruction.writes_eq hop']
    show [Instruction.get _ .a] = _
    rw [ha']
  have hold : i.writes = [base + 1] := by
    rw [Instruction.writes_eq hop]
    exact congrArg (fun q => [q]) ha
  have holdReads : i.reads = List.range' (base + 1) i.b := by
    rw [Instruction.reads_eq hop]
    exact congrArg (fun q => List.range' q i.b) ha
  refine ⟨Inv.setAt h.base (by simp [hfa, hfb])
    (h.sound.editLast ?_ ?_ hi hop hop' (by simp) ?_ ?_ ?_)
    (.modify_free hi hop hop' rfl rfl) h.held, ?_⟩
  · show s.fn.code.size - 1 + 1 = s.fn.code.size
    omega
  · show s.fn.lastTarget ≤ s.fn.code.size - 1
    omega
  · rw [Instruction.registers_eq hop']
    show ∀ q ∈ List.range' (Instruction.get _ .a) (Instruction.get _ .b) ++ [Instruction.get _ .a],
        q < s.fn.maxStack
    rw [ha', hb']
    intro q hq
    rw [List.mem_append, List.mem_range'_1, List.mem_singleton] at hq
    omega
  · rw [hreads, hold, holdReads]
    intro q hq
    rw [List.mem_range'_1] at hq
    rw [List.mem_range'_1, List.mem_singleton]
    omega
  · rw [hwrites, hold, holdReads]
    intro q hq
    rw [List.mem_range'_1, List.mem_singleton, List.mem_singleton]
    omega
  · intro _ j hj hopj
    have hs : (s.setAt (s.fn.code.size - 1) [(.a, base), (.b, i.b + 1)]).fn.code.size =
        s.fn.code.size := by
      simp [State.setAt]
    rw [Array.back?_eq_getElem?, hs] at hj
    change (s.fn.code.modify (s.fn.code.size - 1) _)[s.fn.code.size - 1]? = some j at hj
    rw [Array.getElem?_modify, if_pos rfl, hi] at hj
    cases hj
    exact ha'

theorem emitConcat_spec (h : Val F (base + 1) (.inReg (base + 1)) s) (hl : s.level ≤ base)
    (hf : s.fn.freeReg = base + 2) :
    Via Keeps (emitConcat base (base + 1) line) s fun e' s' => Read F base e' s' := by
  have hroom := h.room
  have hstack := h.maxStack_le
  have hi := h.inv_inReg
  have hconcat := h.place.2 (Nat.le_succ_of_le hl)
  rw [hf] at hi hroom
  have hresult : ∀ {s' : State}, s'.level ≤ base → s'.fn.freeReg = base + 1 →
      Inv F none (· < base + 1) s' →
      s'.ConcatAt base → Read F base (.inReg base) s' := by
    intro s' hl hf hi hc
    exact ⟨.inReg hl (hf ▸ hi) (.inr ⟨rfl, hf⟩) fun _ => hc, .of_ne (by simp)⟩
  have hfresh : Via Keeps (do
      discard (emitABC .concat base 2 0)
      freeExp (.inReg (base + 1))
      fixLine line) s fun _ s' => Read F base (.inReg base) s' := by
    refine Via.next (Via.discard (Via.emit ?_))
    have hpush : Inv F none (· < base + 1) (s.emit (.abck .concat base 2 0 0)) := by
      refine hi.pushABC (by omega) rfl (.inl rfl) ?_ fun _ _ _ _ _ => Instruction.serves_of_free rfl
      intro w ha hb _ _
      have hreads : ∀ q, q ∈ w.readsOf .concat ↔ base ≤ q ∧ q < base + 2 := by
        intro q
        show q ∈ List.range' w.a w.b ↔ _
        rw [ha, hb, List.mem_range'_1]
      refine ⟨?_, ?_, fun q hq => .inl (by omega)⟩
      · intro q hq
        rcases List.mem_append.1 hq with hq | hq
        · have := (hreads q).1 hq
          omega
        · change q ∈ [w.a] at hq
          rw [List.mem_singleton.1 hq, ha]
          omega
      · intro q hq
        exact ((hreads q).1 hq).2
    have hs : 0 < (s.emit (.abck .concat base 2 0 0)).fn.code.size := by simp [State.emit]
    refine Via.next (Via.freeTop hpush.base (Nat.le_succ_of_le hl) hf ?_)
    have hfree : Inv F none (· < base + 1)
        ((s.emit (.abck .concat base 2 0 0)).setFree (base + 1)) :=
      hpush.setFree (show base + 1 ≤ s.fn.maxStack by omega)
    refine Via.fixLine hfree.base hs (hresult hl rfl (hfree.fixLine hs) ?_)
    intro _ i hi' _
    have hback : (s.emit (.abck .concat base 2 0 0)).fn.code.back? = some i := hi'
    simp only [State.emit, Array.back?_push, Option.some.injEq] at hback
    rw [← hback]
    exact (Draft.get_abck (Draft.fits_abck.2 (by omega))).1
  unfold emitConcat
  refine Via.next (Via.previous ?_)
  cases hp : s.previous with
  | none => exact Via.bind hfresh fun _ _ _ h => Via.pure h
  | some prev =>
    obtain ⟨hL, hprev⟩ := State.previous_eq hp
    refine Via.ite (fun hc => ?_) fun _ => Via.bind hfresh fun _ _ _ h => Via.pure h
    have hop := Instruction.is_iff.1 hc
    have ha : prev.a = base + 1 := by
      refine hconcat hL prev ?_ hop
      rw [Array.back?_eq_getElem?]
      exact hprev
    refine Via.next (Via.freeTop h.toBase (Nat.le_succ_of_le hl) hf ?_)
    have hfree : Inv F none (· < base + 2) (s.setFree (base + 1)) := hi.setFree (by omega)
    obtain ⟨hinv, hcat⟩ := hfree.extendConcat hroom hL hprev hop ha
    refine Via.next (Via.next (Via.here (Via.setAt ?_ (Via.pure (hresult hl rfl hinv hcat)))))
    exact (Array.getElem?_eq_some_iff.1 hprev).1

/-- A left operand that is prepared: the right one is to be coded from `base₂` on, with `F₂`
pending. -/
inductive Prepared (F : List Pending) (base : Nat) (s : State) :
    BinaryOp → Exp → List Pending → Nat → Prop
  | and {e : Exp} {E : List Nat} (h : e.whenFalse = E.head?) :
    Prepared F base s .and e (.list E base :: F) base
  | or {e : Exp} {T : List Nat} (h : e.whenTrue = T.head?) :
    Prepared F base s .or e (.list T base :: F) base
  | concat : Prepared F base s .concat (.inReg base) F (base + 1)
  | operand {op : BinaryOp} {e : Exp} {base₂ : Nat} (hop : op ≠ .and ∧ op ≠ .or ∧ op ≠ .concat)
    (h : Left base base₂ s e) (ho : op = .lt ∨ op = .le ∨ op = .gt ∨ op = .ge → Ordered e) :
    Prepared F base s op e F base₂

theorem Prepared.mono {op : BinaryOp} {F₂ : List Pending} (h : Prepared F base s op e F₂ base₂)
    (hk : Keeps s s') : Prepared F base s' op e F₂ base₂ := by
  cases h with
  | and h => exact .and h
  | or h => exact .or h
  | concat => exact .concat
  | operand hop h ho => exact .operand hop (h.mono hk) ho

/-- What is ready when the right operand is to be read. -/
structure Waits (F : List Pending) (base : Nat) (op : BinaryOp) (e : Exp) (s : State) : Prop where
  low : s.level ≤ base
  ready : ∃ F₂, Prepared F base s op e F₂ s.fn.freeReg ∧ Inv F₂ none (· < s.fn.freeReg) s

theorem Val.isConstant {n : Number} (h : Val F base e s) (hn : e.numeral? = some n) :
    e.IsConstant s := by
  obtain ⟨hj, hk⟩ := Exp.numeral?_eq hn
  obtain ⟨hT, hE⟩ := h.noJumps hj
  obtain ⟨kind, T, E⟩ := e
  cases hT
  cases hE
  rcases hk with ⟨i, rfl⟩ | ⟨x, rfl⟩
  · exact .int
  · exact .float

theorem prepareLeft_spec (op : BinaryOp) (h : Read F base e s) :
    Via Keeps (prepareLeft op e) s fun e' s' => Waits F base op e' s' := by
  unfold prepareLeft
  refine Via.bind (dischargeVars_spec h.toVal) ?_
  rintro e₁ s₁ - ⟨h₁, hs, -, -, hfresh, -⟩
  have hn := hfresh h.fresh
  -- a number stays as it is
  have hnumber : ∀ {n : Number}, e₁.numeral? = some n → (op ≠ .and ∧ op ≠ .or ∧ op ≠ .concat) →
      (op = .lt ∨ op = .le ∨ op = .gt ∨ op = .ge → Ordered e₁) → Waits F base op e₁ s₁ := by
    intro n he hop ho
    obtain ⟨hi, hf⟩ := h₁.numeralInv he
    exact ⟨h₁.low, F, .operand hop (.constant (h₁.isConstant he) hf) ho, hi⟩
  have hreg : (op ≠ .and ∧ op ≠ .or ∧ op ≠ .concat) →
      Via Keeps (do return Exp.inReg (← toAnyRegister e₁)) s₁ fun e' s' =>
        Waits F base op e' s' := by
    intro hop
    refine Via.bind (toAnyRegister_spec h₁) ?_
    intro r s₂ _ hv
    exact Via.pure ⟨hv.low, F, .operand hop (.register hv.slot.tableAt) fun _ _ => ⟨r, rfl⟩,
      hv.inv_inReg⟩
  have hoperand : (op = .eq ∨ op = .ne) →
      Via Keeps (do return (← toOperand e₁).toExp) s₁ fun e' s' => Waits F base op e' s' := by
    intro hop
    have hop' : op ≠ .and ∧ op ≠ .or ∧ op ≠ .concat := by rcases hop with rfl | rfl <;> simp
    have ho' : ¬ (op = .lt ∨ op = .le ∨ op = .gt ∨ op = .ge) := by
      rcases hop with rfl | rfl <;> simp
    refine Via.bind (toOperand_spec h₁) ?_
    rintro o s₂ - ⟨hv, -, -⟩
    refine Via.pure ⟨hv.low, F, .operand hop' ?_ fun h => absurd h ho', hv.operandInv⟩
    cases o with
    | konst n => exact .constant (.konst hv.place.2) hv.place.1
    | reg r => exact .register hv.slot.tableAt
  have hsmall : (op = .lt ∨ op = .le ∨ op = .gt ∨ op = .ge) →
      Via Keeps
        (if e₁.smallNumber?.isSome then return e₁ else return Exp.inReg (← toAnyRegister e₁)) s₁
        fun e' s' => Waits F base op e' s' := by
    intro hop
    have hop' : op ≠ .and ∧ op ≠ .or ∧ op ≠ .concat := by
      rcases hop with rfl | rfl | rfl | rfl <;> simp
    refine Via.ite (fun hsome => ?_) fun _ => hreg hop'
    obtain ⟨⟨n, isFloat⟩, hp⟩ := Option.isSome_iff_exists.1 hsome
    obtain ⟨-, m, hm⟩ := Exp.smallNumber?_eq hp
    refine Via.pure (hnumber hm hop' fun _ hnone => ?_)
    rw [hp] at hnone
    cases hnone
  cases op with
  | and =>
    refine Via.mono (goIfTrue_spec h₁ hn) ?_
    rintro e' s' - ⟨-, hl, hf, ms, hms, hi⟩
    refine ⟨hl, .list ms base :: F, ?_, hf.symm ▸ hi⟩
    rw [hf]
    exact .and hms
  | or =>
    refine Via.mono (goIfFalse_spec h₁ hn) ?_
    rintro e' s' - ⟨-, hl, hf, ms, hms, hi⟩
    refine ⟨hl, .list ms base :: F, ?_, hf.symm ▸ hi⟩
    rw [hf]
    exact .or hms
  | concat =>
    refine Via.bind (toNextRegister_spec h₁) ?_
    rintro r s₂ - ⟨rfl, hf, hv⟩
    refine Via.pure ⟨hv.low, F, ?_, hv.inv_inReg⟩
    rw [hf]
    exact .concat
  | arith op =>
    refine Via.ite (fun hnum => ?_) fun _ => hreg (by simp)
    obtain ⟨n, hn⟩ := Option.isSome_iff_exists.1 hnum
    exact Via.pure (hnumber hn (by simp) (by simp))
  | eq =>
    refine Via.ite (fun hnum => ?_) fun _ => hoperand (.inl rfl)
    obtain ⟨n, hn⟩ := Option.isSome_iff_exists.1 hnum
    exact Via.pure (hnumber hn (by simp) (by simp))
  | ne =>
    refine Via.ite (fun hnum => ?_) fun _ => hoperand (.inr rfl)
    obtain ⟨n, hn⟩ := Option.isSome_iff_exists.1 hnum
    exact Via.pure (hnumber hn (by simp) (by simp))
  | lt => exact hsmall (by simp)
  | le => exact hsmall (by simp)
  | gt => exact hsmall (by simp)
  | ge => exact hsmall (by simp)

theorem joinLists_spec {L M K : List Nat} (hl : s.level ≤ base) (hp : s.Places base e.kind)
    (hs : e.kind.isSettled = true) (hn : s.Fresh e)
    (h : Inv (.list L base :: .list M base :: .list K base :: (e.kind.ownJump base ++ F))
    e.kind.opened
      (· < s.fn.freeReg) s) :
    Via Keeps (appendJumps L.head? M.head?) s fun first s' => first = (L ++ M).head? ∧
      s'.level ≤ base ∧ s'.Places base e.kind ∧ s'.Fresh e ∧
      Inv (.list (L ++ M) base :: .list K base :: (e.kind.ownJump base ++ F)) e.kind.opened
        (· < s'.fn.freeReg) s' := by
  refine Via.mono (Via.widen (appendJumps_spec h)) ?_
  rintro first s' - ⟨hc, rfl, hi, hsize, hlast, hconcat, hops⟩
  refine ⟨rfl, hc.level ▸ hl, ?_, ?_, hc.freeReg ▸ hi⟩
  · cases hk : e.kind with
    | nil | true_ | false_ | float | int | str | relocatable =>
      rw [hk] at hp
      exact hc.freeReg.trans hp
    | konst n =>
      rw [hk] at hp
      exact ⟨hc.freeReg.trans hp.1, hp.2.mono hc.pool⟩
    | inReg r =>
      rw [hk] at hp
      obtain ⟨hslot, hcat⟩ := hp
      refine ⟨?_, fun hr => hconcat r (hcat (hc.level ▸ hr))⟩
      unfold State.Slot
      rw [hc.level, hc.freeReg]
      exact hslot
    | jump pc =>
      rw [hk] at hp
      obtain ⟨hf, q, op, hq, hop, ht, hne⟩ := hp
      refine ⟨hc.freeReg.trans hf, q, op, hq, hops q op hop ?_, ht, hne⟩
      rintro rfl
      cases ht
    | _ =>
      rw [hk] at hs
      cases hs
  · intro pc hk
    rw [hk] at h
    obtain ⟨i, op, hi', hop, hrel, -⟩ := (h.sound.shape.reloc pc rfl).op
    rcases hn pc hk with hlast | ⟨op', ⟨j, hj, hopj⟩, hne⟩
    · exact .inl ⟨hlast.1.trans hsize.symm, hlast.2.congr hc.locals⟩
    · cases hi'.symm.trans hj
      cases hop.symm.trans hopj
      refine .inr ⟨op, hops pc op ⟨i, hi', hop⟩ ?_, hne⟩
      rintro rfl
      cases hrel

theorem perm_third (a b m : Pending) (own F : List Pending) :
    List.Perm (a :: m :: b :: (own ++ F)) (a :: b :: (own ++ m :: F)) := by
  have hm : List.Perm (m :: (own ++ F)) (own ++ m :: F) := List.perm_middle.symm
  exact (List.Perm.swap b m _).cons a |>.trans ((hm.cons b).cons a)

def BinaryOp.TakesTwo (op : BinaryOp) : Prop :=
  ∀ a, op = .arith a → (arithOpcode a).fallback? = some .mmBin

theorem applyBinary_spec {op : BinaryOp} {F₂ : List Pending} (hop : op.TakesTwo)
    (hl : s.level ≤ base)
    (h₁ : Prepared F base s op e₁ F₂ base₂) (h₂ : Read F₂ base₂ e₂ s) :
    Via Keeps (applyBinary op e₁ e₂ line) s fun e' s' => Read F base e' s' := by
  unfold applyBinary
  refine Via.bind (dischargeVars_spec h₂.toVal) ?_
  rintro e s₁ hk ⟨hv, hs, -, -, hfresh, -⟩
  have hn := hfresh h₂.fresh
  have hl₁ : s₁.level ≤ base := hk.level ▸ hl
  cases h₁.mono hk with
  | @and _ M hM =>
    obtain ⟨T, E, hT, hE, hi⟩ := hv.jumps
    rw [hM, hE]
    have hi' := hi.perm ((perm_third (.list E base) (.list T base) _ _ F).trans (List.Perm.swap ..))
    refine Via.bind (joinLists_spec hl₁ hv.place hs hn hi') ?_
    rintro _ s₂ - ⟨rfl, hl₂, hp, hf, hinv⟩
    refine Via.pure ⟨⟨hl₂, ⟨T, E ++ M, hT, rfl, hinv.perm (List.Perm.swap ..)⟩, hp, ?_⟩, hf⟩
    intro hu
    rw [hs] at hu
    cases hu
  | @or _ M hM =>
    obtain ⟨T, E, hT, hE, hi⟩ := hv.jumps
    rw [hM, hT]
    refine Via.bind (joinLists_spec hl₁ hv.place hs hn (hi.perm (perm_third ..))) ?_
    rintro _ s₂ - ⟨rfl, hl₂, hp, hf, hinv⟩
    refine Via.pure ⟨⟨hl₂, ⟨T ++ M, E, rfl, hE, hinv⟩, hp, ?_⟩, hf⟩
    intro hu
    rw [hs] at hu
    cases hu
  | concat =>
    refine Via.bind (toNextRegister_spec hv) ?_
    rintro _ s₂ hk₂ ⟨rfl, hf, hv₂⟩
    exact emitConcat_spec hv₂ (hk₂.level ▸ hl₁) hf
  | operand hne hleft hord =>
    have ho : Operands F base base₂ e₁ e s₁ := ⟨hl₁, hleft, hv⟩
    cases op with
    | arith a =>
      dsimp only
      cases hfold : fold? a e₁ e with
      | none => exact emitArithmetic_spec ho (hop a rfl)
      | some e' =>
        obtain ⟨⟨n₁, hn₁⟩, ⟨n₂, hn₂⟩, n, rfl⟩ := fold?_eq hfold
        obtain ⟨rfl, -⟩ := hleft.numeral hn₁
        obtain ⟨hi, hf⟩ := hv.numeralInv hn₂
        exact Via.pure (.ofNumber hl₁ hi hf n)
    | and => exact absurd rfl hne.1
    | or => exact absurd rfl hne.2.1
    | concat => exact absurd rfl hne.2.2
    | eq | ne => exact emitEqual_spec ho
    | lt | le => exact emitOrder_spec ho (hord (by simp))
    | gt | ge => exact emitOrder_swapped ho (hord (by simp))

end Compile

end LuaChunk
