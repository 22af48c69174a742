import LuaChunk.Compile.Operator
import LuaChunk.Proofs.Compile.Access

set_option autoImplicit false

namespace LuaChunk

open JumpList (Code IsOp Chain)

namespace Compile

variable {F P : List Pending} {o : Option Nat} {base r m : Nat} {e : Exp} {s s' : State}
  {live : Nat → Prop}
  {T E J : List Nat}

theorem State.Compares.control {pc : Nat} (h : s.Compares pc) :
    ∃ q i op, pc = q + 1 ∧ JumpList.control s.fn.code pc = q ∧ s.fn.code[q]? = some i ∧
      i.opcode? = some op ∧ op.isTest = true ∧ op ≠ .testSet := by
  obtain ⟨q, op, rfl, ⟨i, hi, hop⟩, ht, hne⟩ := h
  refine ⟨q, i, op, rfl, ?_, hi, hop, ht, hne⟩
  simp [JumpList.control, hi, Instruction.isTest, hop, ht]

theorem Instruction.setK_test {i : Instruction} {op : Opcode} (k : Nat) (hop : i.opcode? = some op)
    (ht : op.isTest = true) :
    (i.setAll [(.k, k)]).opcode? = some op ∧ (i.setAll [(.k, k)]).a = i.a ∧
      (i.setAll [(.k, k)]).b = i.b ∧ (i.setAll [(.k, k)]).demand = i.demand ∧
      (i.setAll [(.k, k)]).reads = i.reads ∧ (i.setAll [(.k, k)]).registers = i.registers ∧
      ∀ p, (i.setAll [(.k, k)]).flow p = i.flow p := by
  have hop' : (i.setAll [(.k, k)]).opcode? = some op := by
    rw [Instruction.opcode?_setAll _ _ rfl, hop]
  have ha : (i.setAll [(.k, k)]).a = i.a := Instruction.get_setAll_apart .a _ i rfl
  have hb : (i.setAll [(.k, k)]).b = i.b := Instruction.get_setAll_apart .b _ i rfl
  have hab : [(i.setAll [(.k, k)]).a, (i.setAll [(.k, k)]).b] = [i.a, i.b] := by rw [ha, hb]
  have hreads : (i.setAll [(.k, k)]).readsOf op = i.readsOf op := by
    cases op <;>
      first
      | (cases ht; done)
      | exact hab
      | exact congrArg (fun r => [r]) ha
      | exact congrArg (fun r => [r]) hb
  refine ⟨hop', ha, hb, ?_, ?_, ?_, fun p => ?_⟩
  · rw [Instruction.demand_eq hop', Instruction.demand_eq hop]
    cases op <;> first | rfl | cases ht
  · rw [Instruction.reads_eq hop', Instruction.reads_eq hop, hreads]
  · rw [Instruction.registers_eq hop', Instruction.registers_eq hop]
    cases op <;> first | (cases ht; done) | exact hab | exact congrArg (· ++ []) hreads
  · rw [Instruction.flow_eq hop', Instruction.flow_eq hop]
    cases op <;>
      first
      | (cases ht; done)
      | rfl
      | exact congrArg (fun r => [(p + 1, [r]), (p + 2, [])]) ha

theorem Instruction.becomes_setK {refs : References} {i : Instruction} {op : Opcode} (k : Nat)
    (hop : i.opcode? = some op)
    (ht : op.isTest = true) : i.Becomes refs (i.setAll [(.k, k)]) := by
  have hop' : (i.setAll [(.k, k)]).opcode? = some op := by
    rw [Instruction.opcode?_setAll _ _ rfl, hop]
  have hb : (i.setAll [(.k, k)]).b = i.b := Instruction.get_setAll_apart .b _ i rfl
  refine .inr ⟨fun hr => (Instruction.refers_iff hop').2 ?_, ?_, ?_, ?_, ?_⟩
  · have hr := (Instruction.refers_iff hop).1 hr
    cases op <;> first
      | (cases ht; done)
      | trivial
      | exact show (i.setAll [(.k, k)]).b < _ by rw [hb]; exact hr
  · rw [Instruction.constants_eq hop', Instruction.constants_eq hop]
    cases op <;> first
      | (cases ht; done)
      | rfl
      | exact congrArg (fun n => [n]) hb
  · rw [hop]
    rintro ⟨⟩
    cases ht
  · rw [hop]
    rintro ⟨⟩
    cases ht
  · rw [hop']
    rintro ⟨⟩
    cases ht

theorem negateCondition_spec {pc : Nat} (h : Inv P none live s) (hc : s.Compares pc) :
    Via Coded (negateCondition pc) s fun _ s' => Inv P none live s' ∧ s'.Compares pc ∧
      s'.fn.code.size = s.fn.code.size := by
  obtain ⟨q, i, op, rfl, hctl, hi, hop, ht, hne⟩ := hc.control
  have hq : q < s.fn.code.size := (Array.getElem?_eq_some_iff.1 hi).1
  unfold negateCondition
  refine Via.next (Via.ofFn ?_)
  rw [hctl]
  refine Via.next (Via.instructionAt hi (Via.setAt hq ?_))
  obtain ⟨hop', ha, hb, hd, hreads, hregs, hflow⟩ := Instruction.setK_test (1 - i.k) hop ht
  refine ⟨Inv.setAt h.base ?_ (h.sound.editNeutral hi hop hop' ?_ hd ha hreads (hflow q) hregs
    (fun _ => hb) (by simp)) (.modify_at hi (Instruction.becomes_setK _ hop ht)) h.held,
      ⟨q, op, rfl, ⟨_, ?_, hop'⟩, ht, hne⟩, ?_⟩
  · simp only [List.all_cons, List.all_nil, Bool.and_true, Instruction.Field.fits_iff]
    exact Nat.sub_le 1 _
  · cases op <;> first | rfl | cases ht
  · show (s.fn.code.modify q _)[q]? = _
    rw [Array.getElem?_modify, if_pos rfl, hi]
    rfl
  · simp [State.setAt]

theorem Base.dropLast {pc : Nat} {i : Instruction} (h : Base s) (hs : pc + 1 = s.fn.code.size)
    (hq : s.Quiet pc)
    (hi : s.fn.code[pc]? = some i) (hx : i.opcode? ≠ some .extraArg) : Base s.dropLast :=
  have hback : ∀ j, s.fn.code.back? = some j → j.opcode? ≠ some .extraArg := fun j hj => by
    rw [Array.back?_eq_getElem?, ← hs, Nat.add_sub_cancel, hi] at hj
    cases hj
    exact hx
  { h with
    tracked := by
      have ht := h.tracked.dropLast hs hq
      rwa [show pc = s.fn.code.pop.size by rw [Array.size_pop]; omega] at ht
    refers := h.refers.pop hback
    meaning := h.meaning.pop hback
    lines := by
      obtain ⟨n, hn⟩ : ∃ n, s.fn.code.size = n + 1 := ⟨s.fn.code.size - 1, by omega⟩
      have hl := h.lines
      rw [hn] at hl
      show s.fn.lines.removeLast.Fits s.fn.code.pop.size
      rw [Array.size_pop, hn]
      exact hl.removeLast }

theorem removeLast_eq (hb : Base s) (hs : 0 < s.fn.code.size) :
    removeLast s = .ok () s.dropLast := by
  obtain ⟨n, hn⟩ : ∃ n, s.fn.code.size = n + 1 := ⟨s.fn.code.size - 1, by omega⟩
  have hc : s.fn.lines.canRemove = true := LineTable.Fits.canRemove (hn ▸ hb.lines)
  have he : s.fn.code.isEmpty = false := by
    rw [Array.isEmpty_eq_false_iff]
    rintro h
    simp [h] at hs
  show (if (s.fn.lines.canRemove && !s.fn.code.isEmpty) = true then _ else _ : M Unit) s = _
  rw [hc, he]
  rfl

/-- The state after a test and its jump. -/
def State.test (s : State) (op : Opcode) (a b c k : Nat) (meant : List Value := []) : State :=
  (s.emit (.abck op a b c k) meant).jump

theorem testJump_eq {op : Opcode} {a b c k : Nat} {meant : List Value} :
    testJump op a b c k meant s = .ok (s.fn.code.size + 1) (s.test op a b c k meant) := by
  refine (@bind_eq _ _ (discard (emit (.abck op a b c k) meant)) _ () s
    (s.emit (.abck op a b c k) meant) rfl).trans ?_
  rw [show s.fn.code.size + 1 = (s.emit (.abck op a b c k) meant).fn.code.size
    from (Array.size_push ..).symm]
  exact jump_eq

theorem Via.testJump {R : State → State → Prop} [Frame R] {op : Opcode} {a b c k : Nat}
    {meant : List Value}
    {Q : Nat → State → Prop} (h : Q (s.fn.code.size + 1) (s.test op a b c k meant)) :
    Via R (testJump op a b c k meant) s Q := by
  exact Via.of_eq testJump_eq (Frame.coded ((Coded.emit s _ meant).trans (.jump _))) h

theorem testNegation_spec {pc c : Nat} {i : Instruction} (h : Inv P (some pc) (· < s.fn.freeReg) s)
    (hpc : pc + 1 = s.fn.code.size) (hq : s.Quiet pc) (hi : s.fn.code[pc]? = some i)
    (hop : i.opcode? = some .not)
    (hf : s.fn.freeReg = base) (hc : c ≤ 1) :
    Via Keeps (do
      removeLast
      testJump .test i.b 0 0 c) s fun pc s' =>
        Inv (.list [pc] base :: P) none (· < base) s' ∧ s'.fn.freeReg = base ∧ s'.Compares pc := by
  have hs : 0 < s.fn.code.size := by omega
  have hstack := h.maxStack_le
  have hib : i.b < s.fn.maxStack := by
    refine h.sound.bounds.lt hi (Instruction.ne_of_opcode hop (by simp)) _ ?_
    rw [Instruction.registers_eq hop]
    exact List.mem_append_left _ (List.mem_singleton.2 rfl)
  have hpop : Inv P none (fun r => r < s.fn.freeReg ∨ r = i.b) s.dropLast :=
    ⟨h.base.dropLast hpc hq hi (Instruction.ne_of_opcode hop (by simp)), h.sound.pop hpc hi hop,
      h.held⟩
  have htest := @Inv.test _ _ s.dropLast .test i.b 0 0 c [] base hpop
    ⟨by omega, by omega, by omega, hc⟩ rfl ?_ ?_
    fun _ _ => Instruction.serves_of_free rfl
  · have he : (do removeLast; testJump .test i.b 0 0 c : M Nat) s
        = .ok (s.dropLast.fn.code.size + 1) (s.dropLast.test .test i.b 0 0 c) := by
      show EStateM.bind removeLast _ s = _
      unfold EStateM.bind
      rw [removeLast_eq h.base hs]
      exact testJump_eq
    have htested : Coded s.dropLast (s.dropLast.test .test i.b 0 0 c) :=
      (Coded.emit _ _ []).trans (.jump _)
    refine Via.of_eq he { htested.toKeeps with
      code := fun _ => by simp [State.test, State.jump, State.setHeld, State.emit] } ⟨?_, hf, ?_⟩
    · exact htest.weaken fun r hr => .inl (hf ▸ hr)
    · refine ⟨s.dropLast.fn.code.size, .test, rfl, ?_, rfl, by simp⟩
      refine ⟨(Draft.abck .test i.b 0 0 c).word, ?_, Draft.opcode?_word _⟩
      exact grows_push _ _ _ _ Array.getElem?_push_size
  · intro w ha _ _
    refine ⟨.inl ⟨by simp, ?_⟩, ?_⟩
    · intro r hr
      change r ∈ [w.a] at hr
      rw [List.mem_singleton.1 hr, ha]
      exact hib
    · intro r hr
      change r ∈ [w.a] at hr
      rw [List.mem_singleton.1 hr, ha]
      exact .inr rfl
  · exact fun r hr => .inl (hf ▸ hr)

/-- A settled value that is no comparison, with what is pending besides it. -/
structure Loadable (P : List Pending) (base : Nat) (e : Exp) (s : State) : Prop where
  low : s.level ≤ base
  inv : Inv P e.kind.opened (· < s.fn.freeReg) s
  place : s.Places base e.kind
  settled : e.kind.isSettled = true
  noJump : ∀ pc, e.kind ≠ .jump pc

theorem Via.dischargeFree {α : Type} {f : Exp → M α} {Q : α → State → Prop}
    (h : Loadable P base e s)
    (hf : ∀ r live s', Inv P none live s' → live r → r < s'.fn.maxStack → (∀ q < base, live q) →
      s'.fn.freeReg = base → s'.level = s.level → Via Keeps (f { e with kind := .inReg r }) s' Q) :
    Via Keeps (do
      let e ← dischargeToAny e
      freeExp e
      f e) s Q := by
  have hbase := h.inv.base
  have hroom := hbase.room
  have hi := h.inv
  have hp := h.place
  obtain ⟨kind, T, E⟩ := e
  -- anything but a value in a register goes into the first free one
  have hload : s.fn.freeReg = base → s.Loads (· < s.fn.freeReg) kind → (∀ r, kind ≠ .inReg r) →
      Via Keeps (do
        Compile.reserve 1
        dischargeTo ⟨kind, T, E⟩ ((← Compile.freeReg) - 1)) s fun e s' => Via Keeps (do
          freeExp e
          f e) s' Q := by
    intro hfree hk hr
    refine Via.next (Via.reserve hi.maxStack_le fun n hn hbn hn' => ?_)
    refine Via.next (Via.freeReg ?_)
    have hi' : Inv P kind.opened (· < s.fn.freeReg) ((s.raise n).setFree (s.fn.freeReg + 1)) :=
      (hi.raise hn hn').setFree hbn
    have hk' : ((s.raise n).setFree (s.fn.freeReg + 1)).Loads (· < s.fn.freeReg) kind := by
      cases kind <;> first | exact hk | exact absurd rfl (hr _)
    have hd := @dischargeTo_spec ⟨kind, T, E⟩ _ _ _ (· < s.fn.freeReg + 1) s.fn.freeReg hi' hk' hbn
      fun r hr => by omega
    refine Via.weaken (Via.mono hd ?_) fun _ h => h.toKeeps
    rintro e' s₁ hk₁ ⟨rfl, hl⟩
    have hf₁ := hk₁.freeReg
    have hm₁ := hk₁.maxStack
    have h₁ := hl.inv
    have hlevel : s₁.level = s.level := hk₁.level
    refine Via.next (Via.freeTop h₁.base ?_ hf₁ ?_)
    · rw [hlevel, hfree]
      exact h.low
    · have hlt : s.fn.freeReg < s₁.fn.maxStack := Nat.lt_of_lt_of_eq hbn hm₁.symm
      exact hf _ _ _ (h₁.setFree (Nat.le_of_lt hlt)) (Nat.lt_succ_self _) hlt
        (fun q hq => by omega) hfree hlevel
  cases kind with
  | inReg r =>
    have hlt := hp.1.lt h.low
    refine Via.next (Via.pure (Via.next ?_))
    refine Via.freeSlot hbase h.low hp.1 ?_
    refine hf r _ _ (hi.setFree ?_) hlt (Nat.lt_of_lt_of_le hlt hroom)
      (fun q hq => Nat.lt_of_lt_of_le hq hp.1.le) rfl rfl
    exact Nat.le_trans hp.1.le hroom
  | jump pc => exact absurd rfl (h.noJump pc)
  | konst k => exact Via.next (hload hp.1 hp.2 (by simp))
  | nil | true_ | false_ | float | int | str | relocatable =>
    exact Via.next (hload hp trivial (by simp))
  | _ => cases h.settled

theorem testRegister_spec {cond : Bool} (h : Loadable P base e s) :
    Via Keeps (do
      let e ← dischargeToAny e
      freeExp e
      match e.register? with
      | some r => testJump .testSet Instruction.noRegister r 0 cond.toNat
      | none => broken .indexInRange) s fun pc s' =>
        Inv (.list [pc] base :: P) none (· < base) s' ∧ s'.fn.freeReg = base := by
  have hstack := h.inv.maxStack_le
  refine Via.dischargeFree h ?_
  intro r live s' hi hr hrm hlow hf hl
  have hm := hi.maxStack_le
  refine Via.testJump ⟨?_, hf⟩
  refine (hi.test ⟨Nat.le_refl _, by omega, by omega, ?_⟩ rfl ?_ hlow
    fun _ _ => Instruction.serves_of_free rfl).weaken hlow
  · cases cond <;> decide
  · intro w _ hb _
    refine ⟨.inr ⟨rfl, hrm, rfl⟩, fun q hq => ?_⟩
    change q ∈ [w.b] at hq
    rw [List.mem_singleton.1 hq, hb]
    exact hr

theorem jumpOn_spec {cond : Bool} (h : Loadable P base e s) (hn : s.Fresh e) :
    Via Keeps (jumpOn e cond) s fun pc s' =>
      Inv (.list [pc] base :: P) none (· < base) s' ∧ s'.fn.freeReg = base := by
  unfold jumpOn
  cases hk : e.kind with
  | relocatable pc =>
    have hi := h.inv
    rw [hk] at hi
    have hf := h.place
    rw [hk] at hf
    obtain ⟨i, op, hi', hop, -, -⟩ := (hi.sound.shape.reloc pc rfl).op
    refine Via.next (Via.instructionAt hi' ?_)
    refine Via.ite (fun hnot => ?_) fun _ => testRegister_spec h
    have hop' := Instruction.is_iff.1 hnot
    have hlast : pc + 1 = s.fn.code.size ∧ s.Quiet pc := by
      rcases hn pc hk with h | ⟨op', ⟨j, hj, hopj⟩, hne⟩
      · exact h
      · cases hi'.symm.trans hj
        exact absurd (Option.some.inj (hopj.symm.trans hop')) hne
    refine Via.mono (testNegation_spec hi hlast.1 hlast.2 hi' hop' hf ?_) ?_
    · cases cond <;> decide
    · rintro pc s' - ⟨h, hf, -⟩
      exact ⟨h, hf⟩
  | _ => exact testRegister_spec h

/-- A list of jumps, with no value left in the registers from `base` on. -/
def Branches (F : List Pending) (base : Nat) (list : Option Nat) (s : State) : Prop :=
  s.level ≤ base ∧ s.fn.freeReg = base ∧
    ∃ ms : List Nat, list = ms.head? ∧ Inv (.list ms base :: F) none (· < base) s

/-- The jump of a test joins one list of the value, and the other list goes on from here. -/
theorem branch_spec {α : Type} {f : Option Nat → α} (hl : s.level ≤ base) (hf : s.fn.freeReg = base)
    (h : Inv (.list J base :: .list T base :: .list E base :: F) none (· < base) s) :
    Via Coded (do
      let list ← appendJumps T.head? J.head?
      patchToHere E.head?
      return f list) s fun a s' => ∃ list, a = f list ∧ Branches F base list s' := by
  refine Via.bind (appendJumps_spec (h.perm (List.Perm.swap ..))) ?_
  rintro list s₁ hc₁ ⟨rfl, h₁, -⟩
  refine Via.bind (patchToHere_spec (h₁.perm (List.Perm.swap ..)) fun r hr => hr) ?_
  rintro _ s₂ hc₂ ⟨h₂, -, -⟩
  have hc := hc₁.trans hc₂
  exact Via.pure ⟨_, rfl, hc.level ▸ hl, hc.freeReg.trans hf, _, rfl, h₂⟩

namespace Val

theorem loadable (h : Val F base e s) (hs : e.kind.isSettled = true)
    (hj : ∀ pc, e.kind ≠ .jump pc) :
    ∃ T E, e.whenTrue = List.head? T ∧ e.whenFalse = List.head? E ∧
      Loadable (.list T base :: .list E base :: F) base e s := by
  obtain ⟨T, E, hT, hE, hi⟩ := h.jumps
  have hown : e.kind.ownJump base = [] := by
    cases hk : e.kind <;> first | rfl | exact absurd hk (hj _)
  rw [hown] at hi
  exact ⟨T, E, hT, hE, h.low, hi, h.place, hs, hj⟩

end Val

/-- A value that has been tested: `pc?` is the jump of the test, if there is one, and the jumps that
the value had before are still there. -/
structure Tested (F : List Pending) (base : Nat) (e : Exp) (pc? : Option Nat) (s : State) :
    Prop where
  low : s.level ≤ base
  free : s.fn.freeReg = base
  lists : ∃ J T E, pc? = List.head? J ∧ e.whenTrue = List.head? T ∧ e.whenFalse = List.head? E ∧
    Inv (.list J base :: .list T base :: .list E base :: F) none (· < base) s

namespace Tested

theorem joinTrue {α : Type} {f : Option Nat → α} {pc? : Option Nat} (h : Tested F base e pc? s) :
    Via Keeps (do
      let list ← appendJumps e.whenTrue pc?
      patchToHere e.whenFalse
      return f list) s fun a s' => ∃ list, a = f list ∧ Branches F base list s' := by
  obtain ⟨J, T, E, rfl, hT, hE, hi⟩ := h.lists
  rw [hT, hE]
  exact (branch_spec h.low h.free hi).weaken fun _ h => h.toKeeps

theorem joinFalse {α : Type} {f : Option Nat → α} {pc? : Option Nat} (h : Tested F base e pc? s) :
    Via Keeps (do
      let list ← appendJumps e.whenFalse pc?
      patchToHere e.whenTrue
      return f list) s fun a s' => ∃ list, a = f list ∧ Branches F base list s' := by
  obtain ⟨J, T, E, rfl, hT, hE, hi⟩ := h.lists
  rw [hT, hE]
  exact (branch_spec h.low h.free (hi.perm ((List.Perm.swap ..).cons _))).weaken fun _ h =>
    h.toKeeps

end Tested

namespace Val

theorem comparison {pc : Nat} (h : Val F base e s) (hk : e.kind = .jump pc) :
    Tested F base e (some pc) s ∧ s.Compares pc := by
  obtain ⟨T, E, hT, hE, hi⟩ := h.jumps
  have hp := h.place
  rw [hk] at hi hp
  have hperm : List.Perm (.list [pc] base :: .list T base :: .list E base :: F)
      (.list T base :: .list E base :: ((ExpKind.jump pc).ownJump base ++ F)) :=
    (@List.perm_middle _ (.list [pc] base) [.list T base, .list E base] F).symm
  refine ⟨⟨h.low, hp.1, [pc], T, E, rfl, hT, hE, (hi.perm hperm).weaken fun r hr => ?_⟩, hp.2⟩
  exact hp.1.symm ▸ hr

theorem untested (h : Val F base e s) (hs : e.kind.isSettled = true) (hj : ∀ pc, e.kind ≠ .jump pc)
    (ho : e.kind.opened = none) (hr : ∀ r, e.kind ≠ .inReg r) : Tested F base e none s := by
  obtain ⟨T, E, hT, hE, hl⟩ := h.loadable hs hj
  have hf := h.settledFree hs hr
  have hi := hl.inv
  rw [ho, hf] at hi
  exact ⟨h.low, hf, [], T, E, rfl, hT, hE, hi.addNil base⟩

theorem tested {cond : Bool} (h : Val F base e s) (hn : s.Fresh e) (hs : e.kind.isSettled = true)
    (hj : ∀ pc, e.kind ≠ .jump pc) :
    Via Keeps (some <$> jumpOn e cond) s fun pc? s' => Tested F base e pc? s' := by
  obtain ⟨T, E, hT, hE, hl⟩ := h.loadable hs hj
  refine Via.map (Via.mono (jumpOn_spec hl hn) ?_)
  rintro pc s' hk ⟨hi, hf⟩
  exact ⟨hk.level ▸ h.low, hf, [pc], T, E, rfl, hT, hE, hi⟩

end Val

theorem negateTested_spec {pc : Nat} (h : Tested F base e (some pc) s) (hc : s.Compares pc) :
    Via Coded (negateCondition pc) s fun _ s' => Tested F base e (some pc) s' := by
  obtain ⟨J, T, E, hJ, hT, hE, hi⟩ := h.lists
  refine Via.mono (negateCondition_spec hi hc) ?_
  rintro _ s' hc ⟨hi', -, -⟩
  exact ⟨hc.level ▸ h.low, hc.freeReg.trans h.free, J, T, E, hJ, hT, hE, hi'⟩

theorem goIfTrue_spec (h : Val F base e s) (hn : s.Fresh e) :
    Via Keeps (goIfTrue e) s fun e' s' => e'.whenTrue = none ∧ Branches F base e'.whenFalse s' := by
  unfold goIfTrue
  refine Via.bind (dischargeVars_spec h) ?_
  rintro e₁ s₁ - ⟨h₁, hs, -, -, hfresh, -⟩
  have hjoin : ∀ {kind : ExpKind} {pc? : Option Nat} {s : State}, Tested F base e₁ pc? s →
      Via Keeps (do
        let list ← appendJumps e₁.whenFalse pc?
        patchToHere e₁.whenTrue
        return Exp.mk kind none list) s fun e' s' =>
          e'.whenTrue = none ∧ Branches F base e'.whenFalse s' := by
    intro kind pc? s ht
    refine Via.mono ht.joinFalse ?_
    rintro e' s' - ⟨list, rfl, hb⟩
    exact ⟨rfl, hb⟩
  cases hk : e₁.kind with
  | jump pc =>
    obtain ⟨ht, hc⟩ := h₁.comparison hk
    refine Via.bind ((negateTested_spec ht hc).weaken fun _ h => h.toKeeps) ?_
    exact fun _ _ _ ht => Via.next (Via.pure (hjoin ht))
  | konst | float | int | str | true_ =>
    refine Via.next (Via.pure (hjoin (h₁.untested hs ?_ ?_ ?_))) <;> simp [hk, ExpKind.opened]
  | nil | false_ | inReg | relocatable =>
    refine Via.bind (h₁.tested (hfresh hn) hs (by simp [hk])) ?_
    exact fun _ _ _ ht => hjoin ht
  | _ =>
    rw [hk] at hs
    cases hs

theorem goIfFalse_spec (h : Val F base e s) (hn : s.Fresh e) :
    Via Keeps (goIfFalse e) s fun e' s' => e'.whenFalse = none ∧
      Branches F base e'.whenTrue s' := by
  unfold goIfFalse
  refine Via.bind (dischargeVars_spec h) ?_
  rintro e₁ s₁ - ⟨h₁, hs, -, -, hfresh, -⟩
  have hjoin : ∀ {kind : ExpKind} {pc? : Option Nat} {s : State}, Tested F base e₁ pc? s →
      Via Keeps (do
        let list ← appendJumps e₁.whenTrue pc?
        patchToHere e₁.whenFalse
        return Exp.mk kind list none) s fun e' s' =>
          e'.whenFalse = none ∧ Branches F base e'.whenTrue s' := by
    intro kind pc? s ht
    refine Via.mono ht.joinTrue ?_
    rintro e' s' - ⟨list, rfl, hb⟩
    exact ⟨rfl, hb⟩
  cases hk : e₁.kind with
  | jump pc => exact Via.next (Via.pure (hjoin (h₁.comparison hk).1))
  | nil | false_ =>
    refine Via.next (Via.pure (hjoin (h₁.untested hs ?_ ?_ ?_))) <;> simp [hk, ExpKind.opened]
  | konst | float | int | str | true_ | inReg | relocatable =>
    refine Via.bind (h₁.tested (hfresh hn) hs (by simp [hk])) ?_
    exact fun _ _ _ ht => hjoin ht
  | _ =>
    rw [hk] at hs
    cases hs

structure Read (F : List Pending) (base : Nat) (e : Exp) (s : State) :
    Prop extends Val F base e s where
  fresh : s.Fresh e

/-- What is kept when storing tests become plain ones. -/
structure Untested (s s' : State) : Prop where
  size : s'.fn.code.size = s.fn.code.size
  ops : ∀ p op, IsOp s.fn.code p op → op ≠ .testSet → IsOp s'.fn.code p op

theorem Untested.trans {s s' s'' : State} (h : Untested s s') (h' : Untested s' s'') :
    Untested s s'' :=
  ⟨h'.size.trans h.size, fun p op hop hne => h'.ops p op (h.ops p op hop hne) hne⟩

def ExpKind.isNegation : ExpKind → Bool
  | .true_ | .false_ | .jump _ | .relocatable _ => true
  | _ => false

/-- The lists of a negated value change places, and none of its jumps has a value to give. -/
theorem swapLists_spec {kind : ExpKind} (hn : kind.isNegation = true) (hl : s.level ≤ base)
    (hf : s.fn.freeReg = base) (hp : s.Places base kind)
    (hx : ∀ pc, kind = .relocatable pc → pc + 1 = s.fn.code.size ∧ s.Quiet pc)
    (h : Inv (.list T base :: .list E base :: (kind.ownJump base ++ F)) kind.opened (· < base) s) :
    Via Keeps (do
      removeValues T.head?
      removeValues E.head?
      return Exp.mk kind E.head? T.head?) s fun e' s' => Read F base e' s' := by
  refine Via.weaken ?_ fun _ h => Coded.toKeeps h
  refine Via.bind (removeValues_spec h (List.mem_cons_self ..)) ?_
  rintro _ s₁ hc₁ ⟨h₁, hs₁, ho₁⟩
  refine Via.bind (removeValues_spec h₁ (List.mem_cons_of_mem _ (List.mem_cons_self ..))) ?_
  rintro _ s₂ hc₂ ⟨h₂, hs₂, ho₂⟩
  have hc := hc₁.trans hc₂
  have hu : Untested s s₂ := (Untested.mk hs₁ ho₁).trans ⟨hs₂, ho₂⟩
  have hf₂ : s₂.fn.freeReg = base := hc.freeReg.trans hf
  refine Via.pure ⟨⟨hc.level ▸ hl, ⟨E, T, rfl, rfl, ?_⟩, ?_, ?_⟩, ?_⟩
  · rw [hf₂]
    exact h₂.perm (List.Perm.swap ..)
  · cases kind with
    | true_ | false_ | relocatable => exact hf₂
    | jump pc =>
      obtain ⟨q, op, hpc, hop, ht, hne⟩ := hp.2
      exact ⟨hf₂, q, op, hpc, hu.ops q op hop hne, ht, hne⟩
    | _ => cases hn
  · intro hs
    cases kind <;> first | (cases hs; done) | cases hn
  · intro pc hk
    exact .inl ⟨(hx pc hk).1.trans hu.size.symm, (hx pc hk).2.congr hc.locals⟩

theorem notRegister_spec (h : Val F base e s) (hs : e.kind.isSettled = true)
    (hj : ∀ pc, e.kind ≠ .jump pc) :
    Via Keeps (do
      let kind ← do
        let v ← dischargeToAny e
        freeExp v
        match v.register? with
        | some r => ExpKind.relocatable <$> emitABC .not 0 r 0
        | none => broken .notOfValue
      removeValues e.whenTrue
      removeValues e.whenFalse
      return Exp.mk kind e.whenFalse e.whenTrue) s fun e' s' => Read F base e' s' := by
  obtain ⟨T, E, hT, hE, hl⟩ := h.loadable hs hj
  refine Via.dischargeFree hl ?_
  intro r live s₁ hi hr hrm hlow hf hlevel
  have hv : Val (.list T base :: .list E base :: F) base (.relocatable s₁.fn.code.size)
      (s₁.emit (.abck .not 0 r 0 0)) := by
    have hm := hi.maxStack_le
    refine .emitOpen (hlevel ▸ h.low) hi hlow hf ⟨by omega, by omega⟩ rfl rfl (by simp)
      (fun _ => rfl) ?_
      fun _ _ _ => Instruction.serves_of_free rfl
    intro w hb _ q hq
    rw [List.mem_singleton.1 hq, hb]
    exact ⟨hr, hrm⟩
  have hinv := hv.plain rfl rfl
  have hf' : (s₁.emit (.abck .not 0 r 0 0)).fn.freeReg = base := hf
  rw [hf'] at hinv
  rw [hT, hE]
  refine Via.next (Via.map (Via.emit (swapLists_spec rfl hv.low hf hf ?_ hinv)))
  rintro _ ⟨⟩
  exact ⟨(Array.size_push ..).symm, hi.base.quiet⟩

theorem emitNot_spec (h : Val F base e s) (hs : e.kind.isSettled = true) :
    Via Keeps (emitNot e) s fun e' s' => Read F base e' s' := by
  unfold emitNot
  have hswap : ∀ {kind : ExpKind} {s : State} {T E : List Nat}, e.whenTrue = T.head? →
      e.whenFalse = E.head? → kind.isNegation = true → s.level ≤ base → s.fn.freeReg = base →
      s.Places base kind → (∀ pc, kind = .relocatable pc → pc + 1 = s.fn.code.size ∧ s.Quiet pc) →
      Inv (.list T base :: .list E base :: (kind.ownJump base ++ F)) kind.opened (· < base) s →
      Via Keeps (do
        removeValues e.whenTrue
        removeValues e.whenFalse
        return Exp.mk kind e.whenFalse e.whenTrue) s fun e' s' => Read F base e' s' := by
    intro kind s T E hT hE hn hl hf hp hx hi
    rw [hT, hE]
    exact swapLists_spec hn hl hf hp hx hi
  -- a constant is negated at once
  have hconst : ∀ {kind : ExpKind}, kind.isNegation = true → kind.opened = none →
      kind.ownJump base = [] → (∀ pc, e.kind ≠ .jump pc) → (∀ r, e.kind ≠ .inReg r) →
      e.kind.opened = none → (s.fn.freeReg = base → s.Places base kind) →
      Via Keeps (do
        removeValues e.whenTrue
        removeValues e.whenFalse
        return Exp.mk kind e.whenFalse e.whenTrue) s fun e' s' => Read F base e' s' := by
    intro kind hn ho hown hj hr ho' hp
    obtain ⟨-, hf, J, T, E, hJ, hT, hE, hi⟩ := h.untested hs hj ho' hr
    obtain rfl : J = [] := List.head?_eq_none_iff.1 hJ.symm
    refine hswap hT hE hn h.low hf (hp hf) ?_ ?_
    · rintro pc rfl
      cases ho
    · rw [ho, hown]
      exact hi.dropNil
  cases hk : e.kind with
  | nil | false_ =>
    refine Via.next (Via.pure (hconst rfl rfl rfl ?_ ?_ ?_ fun hf => hf)) <;>
      simp [hk, ExpKind.opened]
  | konst | float | int | str | true_ =>
    refine Via.next (Via.pure (hconst rfl rfl rfl ?_ ?_ ?_ fun hf => hf)) <;>
      simp [hk, ExpKind.opened]
  | jump pc =>
    obtain ⟨T, E, hT, hE, hi⟩ := h.jumps
    have hp := h.place
    rw [hk] at hi hp
    obtain ⟨hf, hc⟩ := hp
    refine Via.bind (negateCondition_spec hi hc).widen ?_
    rintro _ s₁ - ⟨hcode, h₁, hc₁, -⟩
    have hf₁ := hcode.freeReg.trans hf
    refine Via.next (Via.pure (hswap hT hE rfl (hcode.level ▸ h.low) hf₁ ⟨hf₁, hc₁⟩ (by simp) ?_))
    exact h₁.weaken fun r hr => hf.symm ▸ hr
  | relocatable | inReg => exact notRegister_spec h hs (by simp [hk])
  | _ =>
    rw [hk] at hs
    cases hs

end Compile

end LuaChunk
