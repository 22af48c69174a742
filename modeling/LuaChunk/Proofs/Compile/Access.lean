import LuaChunk.Proofs.Compile.Register

set_option autoImplicit false

namespace LuaChunk

open JumpList (Code IsOp Chain)

namespace Compile

variable {F P : List Pending} {base base₂ r reg : Nat} {e v k : Exp} {s s' : State}
  {live live' : Nat → Prop}
  {p : ConstantPool}

/-! ### Constants -/

theorem PoolGrown.references (h : PoolGrown s.fn.pool p) (logs : Array Store × Array FloatUse) :
    s.fn.references.Grows (s.setPool p logs).fn.references :=
  ⟨h.grows, Nat.le_refl _, Nat.le_refl _⟩

theorem State.Places.setPool {kind : ExpKind} (logs : Array Store × Array FloatUse)
    (h : s.Places base kind) (hp : PoolGrown s.fn.pool p) : (s.setPool p logs).Places base
    kind := by
  have hnames : ∀ {a : GlobalAccess}, s.Names a → (s.setPool p logs).Names a := by
    intro a ha
    refine ⟨fun k hk => ?_, ha.readOnly⟩
    obtain ⟨t, hv, ht⟩ := ha.text k hk
    exact ⟨t, hv, hp.grows _ _ ht⟩
  have hkey : ∀ {k : PoolEntry}, s.ShortKey k → (s.setPool p logs).ShortKey k :=
    fun h => ⟨h.small, h.short.mono (hp.references logs), h.holds.mono hp.grows⟩
  cases kind with
  | konst k => exact ⟨h.1, h.2.mono hp.grows⟩
  | indexed t k a => exact ⟨h.1, hnames h.2⟩
  | indexUp t k a => exact ⟨h.1, h.2.1, hkey h.2.2.1, hnames h.2.2.2⟩
  | indexStr t k a => exact ⟨h.1, hkey h.2.1, hnames h.2.2⟩
  | _ => exact h

theorem Val.setPool (logs : Array Store × Array FloatUse) (h : Val F base e s)
    (hp : PoolGrown s.fn.pool p) : Val F base e (s.setPool p logs) := by
  obtain ⟨T, E, hT, hE, hi⟩ := h.jumps
  exact ⟨h.low, ⟨T, E, hT, hE, hi.setPool logs hp⟩, h.place.setPool logs hp, h.bare⟩

theorem Val.toKonst {n : PoolEntry} (h : Val F base e s) (hj : e.hasJumps = false)
    (ho : e.kind.opened = none) (hown : e.kind.ownJump base = []) (hf : s.fn.freeReg = base)
    (hn : s.fn.pool.Holds n) : Val F base ⟨.konst n, none, none⟩ s := by
  obtain ⟨hT, hE⟩ := h.noJumps hj
  have hi := h.plain hT hE
  rw [ho, hown] at hi
  exact .ofKind h.low hi ⟨hf, hn⟩

structure Exp.ConstantAt (e : Exp) (F : List Pending) (base : Nat) (n : PoolEntry) (s : State) :
    Prop where
  small : n.index ≤ 255
  val : Val F base ⟨.konst n, none, none⟩ s
  numeral : ∀ m, e.numeral? = some m → s.fn.pool.Has n.index (.num m)

theorem Exp.numeral?_kind {m : Number} (h : e.numeral? = some m) : e.kind = .ofValue (.num m) := by
  unfold Exp.numeral? at h
  split at h
  · cases h
  · split at h
    · cases h
      assumption
    · cases h
      assumption
    · cases h

theorem toConstant?_spec (h : Val F base e s) :
    Via Coded (toConstant? e) s fun k? s' =>
      Val F base e s' ∧ ∀ n, k? = some n → e.ConstantAt F base n s' := by
  unfold toConstant?
  refine Via.ite (fun _ => Via.pure ⟨h, by simp⟩) fun hj => ?_
  have hj : e.hasJumps = false := by simpa using hj
  -- a constant that is in the pool by now becomes an operand if its index is small
  have hpick : ∀ {n : PoolEntry} {s' : State}, Val F base e s' →
      Val F base ⟨.konst n, none, none⟩ s' →
      (∀ m, e.numeral? = some m → s'.fn.pool.Has n.index (.num m)) →
      Via Coded (Pure.pure (if n.index ≤ Instruction.maxB then some n else none)) s' fun k? s' =>
        Val F base e s' ∧ ∀ n, k? = some n → e.ConstantAt F base n s' := by
    intro n s' hv hk hnum
    refine Via.pure ⟨hv, fun m hm => ?_⟩
    split at hm
    · rename_i hle
      cases hm
      exact ⟨hle, hk, hnum⟩
    · cases hm
  have hadd : ∀ {key : PoolKey} {c : Value}, (∀ tag, c ≠ .unknown tag) → e.kind.opened = none →
      e.kind.ownJump base = [] → s.fn.freeReg = base →
        (∀ m, e.kind = .ofValue (.num m) → c = .num m) →
      Via Coded (some <$> addConstant key c) s fun n? s' => ∃ n, n? = some n ∧ Val F base e s' ∧
        Val F base ⟨.konst n, none, none⟩ s' ∧ ∀ m, e.numeral? = some m →
          s'.fn.pool.Has n.index (.num m) := by
    intro key c hc ho hown hf hnum
    refine Via.map (Via.addConstant h.toBase hc fun n p logs hp hn => ?_)
    have hv := h.setPool logs hp
    exact ⟨⟨n, c⟩, rfl, hv, hv.toKonst hj ho hown hf hn, fun m hm => hnum m (Exp.numeral?_kind hm) ▸
      hn⟩
  have hp := h.place
  cases hk : e.kind with
  | konst n =>
    rw [hk] at hp
    refine Via.next (Via.pure ?_)
    refine hpick h (h.toKonst hj (by rw [hk]; rfl) (by rw [hk]; rfl) hp.1 hp.2) fun m hm => ?_
    have hn := Exp.numeral?_kind hm
    rw [hk] at hn
    cases m <;> cases hn
  | nil | true_ | false_ | int | float | str =>
    rw [hk] at hp hadd
    refine Via.bind (hadd (by simp) rfl rfl hp fun m hm => by cases m <;> cases hm <;> rfl) ?_
    rintro n? s' - ⟨n, rfl, hv, hkonst, hnum⟩
    exact hpick hv hkonst hnum
  | _ => exact Via.pure ⟨h, by simp⟩

theorem toOperand_spec (h : Val F base e s) :
    Via Keeps (toOperand e) s fun o s' => Val F base o.toExp s' ∧ o.number ≤ 255 ∧ o.flag ≤ 1 := by
  unfold toOperand
  refine Via.bind ((toConstant?_spec h).weaken fun _ h => h.toKeeps) ?_
  rintro k? s₁ - ⟨h₁, hk⟩
  cases k? with
  | some n => exact Via.pure ⟨(hk n rfl).val, (hk n rfl).small, Nat.le_refl _⟩
  | none =>
    refine Via.bind (toAnyRegister_spec h₁) ?_
    intro r s₂ _ h₂
    have hlt := h₂.slot.lt h₂.low
    have hroom := h₂.room
    have hstack := h₂.maxStack_le
    exact Via.pure ⟨h₂, show r ≤ 255 by omega, Nat.zero_le _⟩

theorem Operand.lastRegister {o : Operand} {w : Instruction} (hc : w.c = o.number)
    (hk : w.k = o.flag)
    {r : Nat} (hr : r ∈ w.lastRegister) : o = .reg r := by
  cases o with
  | konst n =>
    rw [Instruction.lastRegister, if_neg (by rw [hk]; simp [Operand.flag])] at hr
    cases hr
  | reg n =>
    rw [Instruction.lastRegister, if_pos (show w.k = 0 from hk), hc] at hr
    rw [List.mem_singleton.1 hr]
    rfl

theorem Val.operandInv {o : Operand} (h : Val F base o.toExp s) :
    Inv F none (· < s.fn.freeReg) s := by
  cases o with
  | konst n => exact h.plain rfl rfl
  | reg r => exact h.inv_inReg

/-- What a store reads: registers below `base`, and its value. Its other operands are indices of
what there is. -/
structure StoresBelow (op : Opcode) (a b base : Nat) (refs : References) (meant : List Value) :
    Prop where
  plain : op.isPlain = true
  noConcat : op ≠ .concat
  small : a ≤ 255 ∧ b ≤ 255
  reads : ∀ w : Instruction, w.a = a → w.b = b → ∀ r ∈ w.readsOf op, r < base ∨ r ∈ w.lastRegister
  writes : ∀ w : Instruction, w.registersOf op = w.readsOf op
  serves : ∀ (refs' : References) (w : Instruction) (vs : List Value), refs.Grows refs' → w.a = a →
    w.b = b →
    w.FlaggedConstant refs' → Stand refs'.constants w.flaggedConstant vs →
      w.Serves refs' op (meant ++ vs)

theorem StoresBelow.mono {op : Opcode} {a b : Nat} {refs refs' : References} {meant : List Value}
    (h : StoresBelow op a b base refs meant) (hg : refs.Grows refs') : StoresBelow op a b base refs'
    meant :=
  { h with serves := fun r w vs hr => h.serves r w vs (hg.trans hr) }

def State.Holding (s : State) (base : Nat) : Operand → Prop
  | .konst n => s.fn.freeReg = base ∧ s.fn.pool.Holds n
  | .reg r => s.Slot base r

theorem State.Holding.flagged {o : Operand} {w : Instruction} (h : s.Holding base o)
    (hc : w.c = o.number)
    (hk : w.k = o.flag) : w.FlaggedConstant s.fn.references := by
  intro hone
  cases o with
  | konst n =>
    rw [hc]
    exact h.2.lt
  | reg r =>
    rw [hk] at hone
    cases hone

theorem Operand.stand {o : Operand} {w : Instruction} {p : ConstantPool}
    (ho : ∀ n, o = .konst n → p.Holds n)
    (hc : w.c = o.number) (hk : w.k = o.flag) : Stand p.values w.flaggedConstant o.meant := by
  unfold Instruction.flaggedConstant
  cases o with
  | konst n =>
    rw [if_pos (show w.k = 1 from hk)]
    exact (ho n rfl).stand hc
  | reg r =>
    rw [if_neg (by rw [hk]; simp [Operand.flag])]
    exact .nil

theorem State.Holding.stand {o : Operand} {w : Instruction} (h : s.Holding base o)
    (hc : w.c = o.number)
    (hk : w.k = o.flag) : Stand s.fn.references.constants w.flaggedConstant o.meant := by
  refine Operand.stand (p := s.fn.pool) (fun n hn => ?_) hc hk
  rw [hn] at h
  exact h.2

theorem storeOperand_spec {o : Operand} {op : Opcode} {a b : Nat} {meant : List Value}
    (hl : s.level ≤ base)
    (hi : Inv F none (· < s.fn.freeReg) s) (hn : o.number ≤ 255) (hf : o.flag ≤ 1)
    (ho : s.Holding base o)
    (hop : StoresBelow op a b base s.fn.references meant) :
    Via Keeps (do
      discard (emitABCk op a b o.number o.flag (meant ++ o.meant))
      freeExp o.toExp) s fun _ s' => s'.fn.freeReg = base ∧ Inv F none (· < base) s' ∧
        ∀ q, s'.ConcatAt q := by
  have hroom := hi.room
  have hle : base ≤ s.fn.freeReg := by
    cases o with
    | konst n => exact Nat.le_of_eq ho.1.symm
    | reg r => exact State.Slot.le ho
  refine Via.next (Via.discard (Via.emit ?_))
  have hreads : ∀ w : Instruction, w.a = a → w.b = b → w.c = o.number → w.k = o.flag →
      ∀ r ∈ w.readsOf op, r < s.fn.freeReg := by
    intro w ha hb hc hk r hr
    rcases hop.reads w ha hb r hr with hr | hr
    · omega
    · have he := Operand.lastRegister hc hk hr
      subst he
      exact State.Slot.lt ho hl
  have hinv : Inv F none (· < s.fn.freeReg)
      (s.emit (.abck op a b o.number o.flag) (meant ++ o.meant)) := by
    refine hi.pushABC ⟨hop.small.1, hop.small.2, hn, hf⟩ hop.plain (.inr hop.noConcat) ?_ ?_
    · intro w ha hb hc hk
      refine ⟨?_, hreads w ha hb hc hk, fun r hr => .inl hr⟩
      rw [hop.writes]
      intro r hr
      have := hreads w ha hb hc hk r hr
      omega
    · intro w ha hb hc hk
      exact hop.serves _ w _ (.refl _) ha hb (ho.flagged hc hk) (ho.stand hc hk)
  have hconcat := @State.concatAt_emit s _ (meant ++ o.meant)
    (show (Draft.abck op a b o.number o.flag).opcode ≠ _ from hop.noConcat)
  cases o with
  | konst n => exact Via.pure ⟨ho.1, hinv.weaken fun r hr => Nat.lt_of_lt_of_le hr hle, hconcat⟩
  | reg r =>
    have hv : Val F base (.inReg r) (s.emit (.abck op a b r 0) (meant ++ (Operand.reg r).meant)) :=
      .inReg hl hinv ho fun _ => hconcat r
    refine Via.mono (freeReg_spec hv) ?_
    rintro _ _ - rfl
    exact ⟨rfl, (hinv.setFree (Nat.le_trans hle hroom)).weaken fun r hr =>
      Nat.lt_of_lt_of_le hr hle, hconcat⟩

theorem emitWithOperand_spec {op : Opcode} {a b : Nat} {meant : List Value} (h : Val F base e s)
    (hop : StoresBelow op a b base s.fn.references meant) :
    Via Keeps (emitWithOperand op a b e meant) s fun _ s' =>
      s'.fn.freeReg = base ∧ Inv F none (· < base) s' ∧ ∀ q, s'.ConcatAt q := by
  unfold emitWithOperand
  refine Via.bind (toOperand_spec h) ?_
  rintro o s₁ hk₁ ⟨h₁, hn, hfl⟩
  refine storeOperand_spec h₁.low h₁.operandInv hn hfl ?_ (hop.mono hk₁.references)
  cases o with
  | konst n => exact h₁.place
  | reg r => exact h₁.slot

/-! ### Assignments -/

/-- A variable that can be assigned to: its registers are below `base`. -/
def State.Target (s : State) (base : Nat) : ExpKind → Prop
  | .localVar r _ => r < s.level
  | .upvalue i => i < s.fn.upvalues.size
  | .indexUp t k _ => t < s.fn.upvalues.size ∧ s.ShortKey k
  | .indexInt t k => t < base ∧ k ≤ 255
  | .indexStr t k _ => t < base ∧ s.ShortKey k
  | .indexed t k _ => t < base ∧ k < base
  | _ => False

theorem State.ShortKey.mono {k : PoolEntry} (h : s.ShortKey k)
    (hg : s.fn.references.Grows s'.fn.references) :
    s'.ShortKey k :=
  ⟨h.small, h.short.mono hg, h.holds.mono hg.constants⟩

theorem State.Target.mono {kind : ExpKind} (h : s.Target base kind) (hk : Keeps s s')
    (hb : base ≤ base₂) : s'.Target base₂ kind := by
  have hl := hk.level
  have hu := hk.upvalues
  cases kind with
  | localVar r i => exact Nat.lt_of_lt_of_eq h hl.symm
  | upvalue i => exact Nat.lt_of_lt_of_le h hu
  | indexUp t k a => exact ⟨Nat.lt_of_lt_of_le h.1 hu, h.2.mono hk.references⟩
  | indexInt t k => exact ⟨Nat.lt_of_lt_of_le h.1 hb, h.2⟩
  | indexStr t k a => exact ⟨Nat.lt_of_lt_of_le h.1 hb, h.2.mono hk.references⟩
  | indexed t k a => exact ⟨Nat.lt_of_lt_of_le h.1 hb, Nat.lt_of_lt_of_le h.2 hb⟩
  | _ => exact h

theorem Val.toVariable (h : Val F base e s) (hs : e.kind.isSettled = true) (hr : reg < s.level)
    {n : Nat} (hn : n ≤ s.fn.freeReg) :
    Via Coded (toRegister e reg) (s.setFree n) fun _ s' =>
      s'.fn.freeReg = n ∧ Inv F none (· < base) s' := by
  obtain ⟨T, E, hT, hE, hi⟩ := h.jumps
  have hle := h.base_le
  have hlow := h.low
  have hroom := h.room
  have hstack := h.maxStack_le
  refine Via.mono (@toRegister_settled _ base reg base e _ _ T E hT hE
    (hi.setFree (by omega)) (h.loads hs) (show reg < s.fn.maxStack by omega) ?_ (by omega) ?_) ?_
  · exact fun r hr => Nat.lt_of_lt_of_le hr hle
  · exact fun r hr => .inl hr
  · rintro _ s' hc ⟨hinv, -⟩
    exact ⟨hc.freeReg, hinv⟩

theorem storeUpvalue_spec {i : Nat} (hl : s.level ≤ base) (hi : Inv F none (· < s.fn.freeReg) s)
    (hs : s.Slot base r)
    (hu : i < s.fn.upvalues.size) :
    Via Keeps (do
      discard (emitABC .setUpval r i 0)
      freeExp (.inReg r)) s fun _ s' => s'.fn.freeReg = base ∧ Inv F none (· < base) s' := by
  have hlt := hs.lt hl
  have hle := hs.le
  have hroom := hi.room
  have hstack := hi.maxStack_le
  have hups := hi.base.upvalues_le
  refine Via.next (Via.discard (Via.emit ?_))
  have hinv : Inv F none (· < s.fn.freeReg) (s.emit (.abck .setUpval r i 0 0)) := by
    refine hi.pushABC ⟨by omega, by omega, by omega, by omega⟩ rfl (.inl rfl) ?_
      fun w _ hb _ _ => ⟨Nat.lt_of_le_of_lt (Nat.le_of_eq hb) hu, .nil⟩
    intro w ha _ _ _
    have hreads : ∀ q ∈ w.readsOf .setUpval, q < s.fn.freeReg := by
      intro q hq
      rw [List.mem_singleton.1 hq, ha]
      exact hlt
    refine ⟨fun q hq => ?_, hreads, fun q hq => .inl hq⟩
    have := hreads q hq
    omega
  have hval : Val F base (.inReg r) (s.emit (.abck .setUpval r i 0 0)) :=
    .inReg hl hinv hs fun _ => State.concatAt_emit (by simp [Draft.opcode]) r
  refine Via.mono (freeReg_spec hval) ?_
  rintro _ _ - rfl
  exact ⟨rfl, (hinv.setFree (Nat.le_trans hle hroom)).weaken fun q hq => Nat.lt_of_lt_of_le hq hle⟩

/-- The instruction that stores a field of a table, but for the value, and the constant that its key
stands for. -/
def ExpKind.store? : ExpKind → Option (Opcode × Nat × Nat × List Value)
  | .indexUp t k _ => some (.setTabUp, t, k.index, [k.value])
  | .indexInt t k => some (.setI, t, k, [])
  | .indexStr t k _ => some (.setField, t, k.index, [k.value])
  | .indexed t k _ => some (.setTable, t, k, [])
  | _ => none

theorem storeTo_field {op : Opcode} {a b : Nat} {meant : List Value}
    (h : v.kind.store? = some (op, a, b, meant)) :
    storeTo v e = emitWithOperand op a b e meant := by
  unfold storeTo
  generalize v.kind = kind at h
  cases kind <;> cases h <;> rfl

theorem State.Target.cases (ht : s.Target base v.kind) (hb : base ≤ 254)
    (hu : s.fn.upvalues.size ≤ 255) :
    (∃ r i, v.kind = .localVar r i ∧ r < s.level) ∨
      (∃ i, v.kind = .upvalue i ∧ i < s.fn.upvalues.size) ∨
      ∃ op a b meant, v.kind.store? = some (op, a, b, meant) ∧
        StoresBelow op a b base s.fn.references meant := by
  generalize v.kind = kind at ht
  cases kind with
  | localVar r i => exact .inl ⟨r, i, rfl, ht⟩
  | upvalue i => exact .inr (.inl ⟨i, rfl, ht⟩)
  | indexUp t k a =>
    simp only [State.Target] at ht
    have hkey := ht.2.small
    refine .inr (.inr ⟨_, _, _, _, rfl, rfl, by simp, by omega, ?_, fun w => List.append_nil _, ?_⟩)
    · exact fun w _ _ r hr => .inr hr
    · rintro refs' w vs hg rfl hb hc hs
      have hshort := ht.2.short.mono hg
      rw [← hb] at hshort
      exact ⟨⟨Nat.lt_of_lt_of_le ht.1 hg.upvalues, hshort, hc⟩,
        ((ht.2.holds.stand hb).mono hg.constants).append hs⟩
  | indexInt t k =>
    simp only [State.Target] at ht
    refine .inr (.inr ⟨_, _, _, _, rfl, rfl, by simp, by omega, ?_, fun w => List.append_nil _,
      fun _ _ _ _ _ _ hc hs => ⟨hc, hs⟩⟩)
    intro w ha _ r hr
    rcases List.mem_cons.1 hr with rfl | hr
    · exact .inl (ha ▸ ht.1)
    · exact .inr hr
  | indexStr t k a =>
    simp only [State.Target] at ht
    have hkey := ht.2.small
    refine .inr (.inr ⟨_, _, _, _, rfl, rfl, by simp, by omega, ?_, fun w => List.append_nil _, ?_⟩)
    · intro w ha _ r hr
      rcases List.mem_cons.1 hr with rfl | hr
      · exact .inl (ha ▸ ht.1)
      · exact .inr hr
    · rintro refs' w vs hg rfl hb hc hs
      have hshort := ht.2.short.mono hg
      rw [← hb] at hshort
      exact ⟨⟨hshort, hc⟩, ((ht.2.holds.stand hb).mono hg.constants).append hs⟩
  | indexed t k a =>
    simp only [State.Target] at ht
    refine .inr (.inr ⟨_, _, _, _, rfl, rfl, by simp, by omega, ?_, fun w => List.append_nil _,
      fun _ _ _ _ _ _ hc hs => ⟨hc, hs⟩⟩)
    intro w ha hb r hr
    rcases List.mem_cons.1 hr with rfl | hr
    · exact .inl (ha ▸ ht.1)
    · rcases List.mem_cons.1 hr with rfl | hr
      · exact .inl (hb ▸ ht.2)
      · exact .inr hr
  | _ => exact ht.elim

theorem storeTo_local {i : Nat} (hv : v.kind = .localVar r i) :
    storeTo v e = (do
      freeExp e
      toRegister e r : M Unit) := by
  unfold storeTo
  rw [hv]

theorem storeTo_upvalue {i : Nat} (hv : v.kind = .upvalue i) :
    storeTo v e = (do
      let r ← toAnyRegister e
      discard (emitABC .setUpval r i 0)
      freeExp (.inReg r) : M Unit) := by
  unfold storeTo
  rw [hv]

theorem storeTo_spec (ht : s.Target base v.kind) (h : Val F base e s) :
    Via Keeps (storeTo v e) s fun _ s' =>
      Inv F none (· < base) s' ∧ (e.isMulti = false → s'.fn.freeReg = base) ∧
        (v.isIndexed = true → ∀ q, s'.ConcatAt q) := by
  have hle := h.base_le
  have hroom := h.room
  have hstack := h.maxStack_le
  obtain ⟨r, i, hv, hr⟩ | ⟨i, hv, hi⟩ | ⟨op, a, b, meant, hstore, hop⟩ :=
    ht.cases (by omega) h.toBase.upvalues_le
  · have hx : v.isIndexed = false := by rw [Exp.isIndexed, hv]
    rw [storeTo_local hv, hx]
    by_cases hs : e.kind.isSettled = true
    · refine Via.bind (freeExp_spec h hs) ?_
      rintro _ _ - rfl
      refine Via.mono ((h.toVariable hs hr hle).weaken fun _ h => h.toKeeps) ?_
      rintro _ s₁ - ⟨hf, hi⟩
      exact ⟨hi, fun _ => hf, by simp⟩
    · have hn : e.register? = none := by
        unfold Exp.register?
        split
        · rename_i r hk
          rw [hk] at hs
          exact absurd rfl hs
        · rfl
      unfold freeExp
      rw [hn]
      refine Via.next (Via.pure ?_)
      refine Via.toRegister_of (Via.mono (dischargeVars_spec h) ?_)
      rintro e' s₁ hk ⟨h₁, hs₁, -, hfree, -, -⟩
      refine ⟨hs₁, ?_⟩
      have hto := h₁.toVariable hs₁ (Nat.lt_of_lt_of_eq hr hk.level.symm) (Nat.le_refl _)
      rw [State.setFree_self rfl] at hto
      refine Via.mono (hto.weaken fun _ h => h.toKeeps) ?_
      rintro _ s₂ - ⟨hf, hi⟩
      refine ⟨hi, fun hm => ?_, by simp⟩
      rcases hfree with h | h | h
      · exact absurd h hs
      · rw [hm] at h
        cases h
      · exact hf.trans h
  · have hx : v.isIndexed = false := by rw [Exp.isIndexed, hv]
    rw [storeTo_upvalue hv, hx]
    refine Via.bind (toAnyRegister_spec h) ?_
    rintro r s₁ hk h₁
    refine (storeUpvalue_spec h₁.low h₁.inv_inReg h₁.slot (Nat.lt_of_lt_of_le hi hk.upvalues)).mono
      ?_
    rintro _ s₂ - ⟨hf, hi⟩
    exact ⟨hi, fun _ => hf, by simp⟩
  · rw [storeTo_field hstore]
    refine (emitWithOperand_spec h hop).mono ?_
    rintro _ s₁ - ⟨hf, hi, hc⟩
    exact ⟨hi, fun _ => hf, fun _ => hc⟩

theorem storeRegister_spec (ht : s.Target base v.kind) (hl : s.level ≤ base)
    (hi : Inv F none (· < s.fn.freeReg) s)
    (hs : s.Slot base r) :
    Via Keeps (storeTo v (.inReg r)) s fun _ s' => s'.fn.freeReg = base ∧
      Inv F none (· < base) s' := by
  have hlt := hs.lt hl
  have hle := hs.le
  have hroom := hi.room
  have hstack := hi.maxStack_le
  obtain ⟨q, i, hv, hq⟩ | ⟨i, hv, hu⟩ | ⟨op, a, b, meant, hstore, hop⟩ :=
    ht.cases (by omega) hi.base.upvalues_le
  · rw [storeTo_local hv]
    show Via Keeps (freeRegister r >>= fun _ => toRegister (.inReg r) q) s _
    refine Via.next (Via.freeSlot hi.base hl hs ?_)
    have hi' : Inv (.list [] base :: .list [] base :: F) none (· < s.fn.freeReg) (s.setFree base) :=
      ((hi.addNil base).addNil base).setFree (by omega)
    refine Via.mono (Via.widen
      (@toRegister_settled F base q base (.inReg r) _ _ [] [] rfl rfl hi' (.inl ⟨hlt, ?_⟩)
      ?_ (fun r hr => Nat.lt_of_lt_of_le hr hle) ?_ fun r hr => .inl hr)) ?_
    · show r < s.fn.maxStack
      omega
    · show q < s.fn.maxStack
      omega
    · omega
    · exact fun _ s' _ ⟨hc, hinv, _⟩ => ⟨hc.freeReg, hinv⟩
  · rw [storeTo_upvalue hv, toAnyRegister_inReg]
    exact Via.next (Via.pure (storeUpvalue_spec hl hi hs hu))
  · rw [storeTo_field hstore]
    unfold emitWithOperand
    refine Via.next (Via.of_eq (show toOperand (.inReg r) s = .ok (.reg r) s from rfl)
      (Keeps.refl s) ?_)
    refine (storeOperand_spec (o := .reg r) hl hi (show r ≤ 255 by omega) (Nat.zero_le _) hs
      hop).mono ?_
    exact fun _ _ _ ⟨hf, hi, _⟩ => ⟨hf, hi⟩

/-! ### Methods -/

theorem toRegister_text {t : Bytes} (h : Inv F none live s) (hr : reg < s.fn.maxStack) :
    Via Coded (toRegister (.str t) reg) s fun _ s' =>
      s'.fn.freeReg = s.fn.freeReg ∧ Inv F none (fun r => live r ∨ r = reg) s' := by
  unfold toRegister
  refine Via.bind (@dischargeTo_spec (.str t) s F live (fun r => live r ∨ r = reg) reg h trivial hr
    fun r hr => hr) ?_
  rintro e' s₁ hc ⟨rfl, h₁⟩
  exact Via.pure ⟨hc.freeReg, h₁.inv⟩

theorem textOperand_spec {t : Bytes} (h : Inv F none live s) :
    Via Keeps (toOperand (.str t)) s fun o s' =>
      (∃ n, o = .konst n ∧ n.index ≤ 255 ∧ s'.fn.freeReg = s.fn.freeReg ∧
        s'.fn.references.Holds Value.isText n.index ∧ s'.fn.pool.Holds n ∧ Inv F none live s') ∨
      (o = .reg s.fn.freeReg ∧ s'.fn.freeReg = s.fn.freeReg + 1 ∧
        Inv F none (fun r => live r ∨ r = s.fn.freeReg) s') := by
  have hnext : ∀ {s : State}, Inv F none live s →
      Via Keeps (toAnyRegister (.str t)) s fun r s' => r = s.fn.freeReg ∧
        s'.fn.freeReg = s.fn.freeReg + 1 ∧ Inv F none (fun r => live r ∨ r = s.fn.freeReg) s' := by
    intro s h
    change Via Keeps (do
      reserve 1
      let r := (← freeReg) - 1
      toRegister (.str t) r
      return r) s _
    refine Via.next (Via.reserve h.maxStack_le fun n hn hbn hn' => ?_)
    refine Via.next (Via.freeReg ?_)
    have hi : Inv F none live ((s.raise n).setFree (s.fn.freeReg + 1)) :=
      (h.raise hn hn').setFree hbn
    refine Via.bind ((toRegister_text hi hbn).weaken fun _ h => h.toKeeps) ?_
    rintro _ s₁ - ⟨hf, h₁⟩
    exact Via.pure ⟨rfl, hf, h₁⟩
  unfold toOperand toConstant?
  refine Via.next (Via.next (Via.map (Via.addConstant h.base (by simp) fun n p logs hp hn => ?_)))
  have h₁ := h.setPool logs hp
  refine Via.pure ?_
  by_cases hle : n ≤ Instruction.maxB
  · rw [if_pos hle]
    exact Via.pure (.inl ⟨_, rfl, hle, rfl, ⟨_, hn.text, rfl⟩, hn, h₁⟩)
  · rw [if_neg hle]
    refine Via.bind (hnext h₁) ?_
    rintro r s₁ - ⟨rfl, hf, h₂⟩
    exact Via.pure (.inr ⟨rfl, hf, h₂⟩)

/-- The method and its receiver go into two registers, which are assigned whatever was there
before. -/
theorem Inv.pushSelf {object : Nat} {o : Operand} (h : Inv F none live s)
    (hn : base + 2 ≤ s.fn.maxStack)
    (hobj : live object ∧ object < s.fn.maxStack) (hlow : ∀ r < base, live r)
    (hnum : o.number ≤ 255)
    (ho : ∀ r, o = .reg r → live r ∧ r < s.fn.maxStack)
    (hk : ∀ n, o = .konst n → s.fn.references.Holds Value.isText n.index ∧ s.fn.pool.Holds n) :
    Inv F none (· < base + 2) (s.emit (.abck .self base object o.number o.flag) o.meant) := by
  have hstack := h.maxStack_le
  have hflag : o.flag ≤ 1 := by cases o <;> simp [Operand.flag]
  refine h.pushABC ⟨by omega, by omega, hnum, hflag⟩ rfl (.inl rfl) ?_ fun w _ _ hc hf => ?_
  case refine_2 =>
    refine ⟨fun hone => ?_, Operand.stand (p := s.fn.pool) (fun n hn => (hk n hn).2) hc hf⟩
    cases o with
    | konst n =>
      rw [hc]
      exact (hk n rfl).1
    | reg r =>
      rw [hf] at hone
      cases hone
  intro w ha hb hc hk
  have hlast : ∀ r ∈ w.lastRegister, live r ∧ r < s.fn.maxStack := fun r hr =>
    ho r (Operand.lastRegister hc hk hr)
  have hwrites : ∀ r, r ∈ w.writesOf .self ↔ r = base ∨ r = base + 1 := by
    intro r
    show r ∈ [w.a, w.a + 1] ↔ _
    simp [ha]
  have hreads : ∀ r ∈ w.readsOf .self, live r ∧ r < s.fn.maxStack := by
    intro r hr
    rcases List.mem_cons.1 hr with rfl | hr
    · exact hb ▸ hobj
    · exact hlast r hr
  refine ⟨?_, fun r hr => (hreads r hr).1, ?_⟩
  · intro r hr
    rcases List.mem_append.1 hr with hr | hr
    · exact (hreads r hr).2
    · have := (hwrites r).1 hr
      omega
  · intro r hr
    by_cases hlt : r < base
    · exact .inl (hlow r hlt)
    · exact .inr ((hwrites r).2 (by omega))

theorem selfOperand_spec {object : Nat} {name : Bytes} (h : Inv F none live s) (hl : s.level ≤ base)
    (hf : s.fn.freeReg = base + 2) (hobj : live object ∧ object < s.fn.maxStack)
    (hlow : ∀ r < base, live r) :
    Via Keeps (emitWithOperand .self base object (.str name)) s fun _ s' =>
      s'.fn.freeReg = base + 2 ∧ Inv F none (· < base + 2) s' := by
  have hroom := h.room
  unfold emitWithOperand
  refine Via.bind (textOperand_spec h) ?_
  rintro o s₁ hk₁ ho
  have hstack := hk₁.stack
  have hobj' : object < s₁.fn.maxStack := Nat.lt_of_lt_of_le hobj.2 hstack
  refine Via.next (Via.discard (Via.emit ?_))
  rcases ho with ⟨k, rfl, hk, hf₁, htext, hholds, h₁⟩ | ⟨rfl, hf₁, h₁⟩
  · have hself := @Inv.pushSelf F base s₁ live object (.konst k) h₁ (by omega) ⟨hobj.1, hobj'⟩ hlow
      hk (by simp)
      (by rintro _ ⟨⟩; exact ⟨htext, hholds⟩)
    exact Via.pure ⟨hf₁.trans hf, hself⟩
  · have hroom₁ := h₁.room
    have hst := h₁.maxStack_le
    have hself := @Inv.pushSelf F base s₁ _ object (.reg s.fn.freeReg) h₁ (by omega)
      ⟨.inl hobj.1, hobj'⟩
      (fun r hr => .inl (hlow r hr)) (show s.fn.freeReg ≤ 255 by omega)
      (by rintro r ⟨⟩; exact ⟨.inr rfl, by omega⟩) (by simp)
    have hlevel : s₁.level = s.level := hk₁.level
    refine Via.freeTop hself.base (show s₁.level ≤ _ by omega) hf₁ ⟨hf, hself.setFree ?_⟩
    show s.fn.freeReg ≤ s₁.fn.maxStack
    omega

theorem emitSelf_spec {name : Bytes} (h : Val F base e s) :
    Via Keeps (emitSelf e name) s fun b s' =>
      b = base ∧ s'.fn.freeReg = base + 2 ∧ Inv F none (· < base + 2) s' := by
  unfold emitSelf
  refine Via.bind (toAnyRegister_spec h) ?_
  rintro object s₁ - h₁
  have hobj := h₁.slot.lt h₁.low
  have hle := h₁.base_le
  have hroom := h₁.room
  refine Via.bind (freeReg_spec h₁) ?_
  rintro _ _ - rfl
  refine Via.next (Via.freeReg ?_)
  refine Via.next (Via.reserve h₁.maxStack_le fun n hn hbn hn' => ?_)
  have hi : Inv F none (· < s₁.fn.freeReg) (((s₁.setFree base).raise n).setFree (base + 2)) :=
    ((h₁.inv_inReg.setFree (Nat.le_trans hle hroom)).raise hn hn').setFree hbn
  refine Via.bind (selfOperand_spec hi h₁.low rfl ⟨hobj, ?_⟩ fun r hr => Nat.lt_of_lt_of_le hr hle)
    ?_
  · exact Nat.lt_of_lt_of_le hobj (Nat.le_trans hroom hn)
  · rintro _ s₂ - ⟨hf, h₂⟩
    exact Via.pure ⟨rfl, hf, h₂⟩

/-! ### Tables -/

theorem State.Names.mono {a : GlobalAccess} (h : s.Names a) (hk : Stays s s') : s'.Names a := by
  refine ⟨fun k hk' => ?_, h.readOnly⟩
  obtain ⟨t, hv, ht⟩ := h.text k hk'
  exact ⟨t, hv, hk.pool _ _ ht⟩

/-- The access to a table in a register `r`, its key coded when `base` was the first free
register. -/
inductive Indexed (F : List Pending) (base r : Nat) : Exp → State → Prop
  | text {n : PoolEntry} {a : GlobalAccess} {s : State} (hn : s.ShortKey n) (ha : s.Names a)
    (hf : s.fn.freeReg = base) (h : Inv F none (· < s.fn.freeReg) s) (hl : s.level ≤ base) :
    Indexed F base r ⟨.indexStr r n a, none, none⟩ s
  | integer {n : Nat} {s : State} (hn : n ≤ 255) (hf : s.fn.freeReg = base)
    (h : Inv F none (· < s.fn.freeReg) s) (hl : s.level ≤ base) :
    Indexed F base r ⟨.indexInt r n, none, none⟩ s
  | register {q : Nat} {a : GlobalAccess} {s : State} (ha : s.Names a)
    (h : Val F base (.inReg q) s) :
    Indexed F base r ⟨.indexed r q a, none, none⟩ s

def State.TableAt (s : State) (base base₂ r : Nat) : Prop :=
  r < s.level ∧ base₂ = base ∨ r = base ∧ base₂ = base + 1

theorem State.TableAt.slots {q : Nat} (h : s.TableAt base base₂ r) (hq : s.Slot base₂ q) :
    s.Slots base r q := by
  rcases h with ⟨hr, rfl⟩ | ⟨rfl, rfl⟩
  · exact .inl ⟨hr, hq⟩
  · rcases hq with ⟨hq, hf⟩ | ⟨rfl, hf⟩
    · exact .inr (.inl ⟨hq, .inr ⟨rfl, hf⟩⟩)
    · exact .inr (.inr ⟨.inl ⟨rfl, rfl⟩, hf⟩)

theorem Indexed.toVal (h : Indexed F base₂ r e s) (hl : s.level ≤ base)
    (ht : s.TableAt base base₂ r) :
    Val F base e s := by
  cases h with
  | text hn ha hf h =>
    refine .ofKind hl h ⟨?_, hn, ha⟩
    exact ht.imp (fun ht => ⟨ht.1, hf.trans ht.2⟩) fun ht => ⟨ht.1, hf.trans ht.2⟩
  | integer hn hf h =>
    refine .ofKind hl h ⟨?_, hn⟩
    exact ht.imp (fun ht => ⟨ht.1, hf.trans ht.2⟩) fun ht => ⟨ht.1, hf.trans ht.2⟩
  | register ha h =>
    exact .ofKind hl h.inv_inReg ⟨ht.slots h.slot, ha⟩

theorem Indexed.isIndexed (h : Indexed F base₂ r e s) : e.isIndexed = true := by
  cases h <;> rfl

theorem Indexed.toTarget (h : Indexed F base₂ r e s) (hr : r < base₂) :
    s.Target s.fn.freeReg e.kind ∧ Inv F none (· < s.fn.freeReg) s ∧ base₂ ≤ s.fn.freeReg := by
  cases h with
  | text hn ha hf h => exact ⟨⟨hf ▸ hr, hn⟩, h, Nat.le_of_eq hf.symm⟩
  | integer hn hf h => exact ⟨⟨hf ▸ hr, hn⟩, h, Nat.le_of_eq hf.symm⟩
  | register ha h =>
    have hle := h.base_le
    exact ⟨⟨Nat.lt_of_lt_of_le hr hle, h.slot.lt h.low⟩, h.inv_inReg, hle⟩

theorem Val.plainInv (h : Val F base e s) (hp : e.IsPlain) :
    Inv (e.kind.ownJump base ++ F) e.kind.opened (· < s.fn.freeReg) s :=
  h.plain hp.noTrue hp.noFalse

theorem Exp.integer?_eq {n : Int64} (h : e.integer? = some n) : e.kind = .int n := by
  unfold Exp.integer? Exp.numeral? at h
  split at h
  · rename_i m hm
    cases h
    split at hm
    · cases hm
    · split at hm <;> cases hm
      assumption
  · cases h

def Exp.Accesses (e : Exp) (a : GlobalAccess) : Prop :=
  (∃ t k, e.kind = .indexed t k a) ∨ (∃ t k, e.kind = .indexUp t k a) ∨
    ∃ t k, e.kind = .indexStr t k a

structure Exp.Writable (e : Exp) : Prop where
  indexed : e.isIndexed = true
  unmarked : ∀ a, e.Accesses a → a.readOnly = false

theorem Exp.Accesses.isIndexed {a : GlobalAccess} (h : e.Accesses a) : e.isIndexed = true := by
  obtain ⟨t, k, h⟩ | ⟨t, k, h⟩ | ⟨t, k, h⟩ := h <;> simp [Exp.isIndexed, h]

theorem Exp.Accesses.writable {a : GlobalAccess} (h : e.Accesses a) (hw : a.readOnly = false) :
    e.Writable := by
  refine ⟨h.isIndexed, fun b hb => ?_⟩
  obtain ⟨t, k, h⟩ | ⟨t, k, h⟩ | ⟨t, k, h⟩ := h <;>
  · obtain ⟨t', k', h'⟩ | ⟨t', k', h'⟩ | ⟨t', k', h'⟩ := hb <;> cases h.symm.trans h'
    exact hw

def Exp.Named (e : Exp) (s : State) (text : Bytes) : Prop :=
  ∃ a n, e.Accesses a ∧ a.name = some n ∧ s.fn.pool.values[n.index]? = some (.str text)

theorem indexTail_spec {short? : Option PoolEntry} {a : GlobalAccess} (h : Val F base k s)
    (ha : s.Names a)
    (hw : a.readOnly = false)
    (hs : ∀ n, short? = some n → k.kind = .konst n ∧ s.ShortKey n) (hp : k.IsPlain) :
    Via Keeps (match short?, k.integer? with
      | some n, _ => return Exp.mk (.indexStr r n a) none none
      | none, some n =>
        if 0 ≤ n && n ≤ 255 then return Exp.mk (.indexInt r n.toInt.toNat) none none
        else return Exp.mk (.indexed r (← toAnyRegister k) a) none none
      | none, none => return Exp.mk (.indexed r (← toAnyRegister k) a) none none) s
      fun e' s' => Indexed F base r e' s' ∧ e'.Writable ∧ (k.integer? = none → e'.Accesses a) := by
  have hi := h.plainInv hp
  have hreg : Via Keeps (do return Exp.mk (.indexed r (← toAnyRegister k) a) none none) s
      fun e' s' => Indexed F base r e' s' ∧ e'.Writable ∧ (k.integer? = none → e'.Accesses a) := by
    refine Via.bind (toAnyRegister_spec h) ?_
    intro q s' hk hv
    have hx : Exp.Accesses ⟨.indexed r q a, none, none⟩ a := .inl ⟨r, q, rfl⟩
    exact Via.pure ⟨.register (ha.mono hk.toStays) hv, hx.writable hw, fun _ => hx⟩
  have hplace := h.place
  cases short? with
  | some n =>
    obtain ⟨hk, hn⟩ := hs n rfl
    rw [hk] at hi hplace
    have hx : Exp.Accesses ⟨.indexStr r n a, none, none⟩ a := .inr (.inr ⟨r, n, rfl⟩)
    exact Via.pure ⟨.text hn ha hplace.1 hi h.low, hx.writable hw, fun _ => hx⟩
  | none =>
    cases hn : k.integer? with
    | some n =>
      have hk := Exp.integer?_eq hn
      rw [hn] at hreg
      refine Via.ite (fun hr => ?_) fun _ => hreg
      rw [hk] at hi hplace
      simp only [Bool.and_eq_true, decide_eq_true_eq, Int64.le_iff_toInt_le] at hr
      have h₀ : Int64.toInt 0 = 0 := rfl
      have h₁ : Int64.toInt 255 = 255 := rfl
      exact Via.pure ⟨.integer (by omega) hplace hi h.low, ⟨rfl, by simp [Exp.Accesses]⟩, by simp⟩
    | none =>
      rw [hn] at hreg
      exact hreg

theorem shortKey?_spec (h : Val F base k s) :
    Via Coded (shortKey? k) s fun short? s' => s' = s ∧
      ∀ n, short? = some n → k.kind = .konst n ∧ s.ShortKey n := by
  unfold shortKey?
  have hp := h.place
  cases hk : k.kind with
  | konst n =>
    rw [hk] at hp
    refine Via.ite (fun _ => Via.pure ⟨rfl, by simp⟩) fun hn => ?_
    refine Via.next (Via.ofFn ?_)
    rw [Array.getElem?_eq_getElem hp.2.lt]
    refine Via.pure ⟨rfl, fun m hm => ?_⟩
    split at hm
    · cases hm
      simp only [Bool.or_eq_true, decide_eq_true_eq, not_or, Nat.not_lt] at hn
      exact ⟨rfl, hn.2, ⟨_, Array.getElem?_eq_getElem hp.2.lt, ‹_›⟩, hp.2⟩
    · cases hm
  | _ => exact Via.pure ⟨rfl, by simp⟩

def State.Pooled (s s' : State) (k k' : Exp) : Prop :=
  k' = k ∧ s' = s ∨ ∃ text n p logs, k.kind = .str text ∧ k' = ⟨.konst ⟨n, .str text⟩, none, none⟩ ∧
    PoolGrown s.fn.pool p ∧
    p.Has n (.str text) ∧ s' = s.setPool p logs

theorem Via.index {t : Exp} {Q : Exp → State → Prop} (h : Val F base k s) (hp : k.IsPlain)
    (hrest : ∀ k' s' a, Val F base k' s' → k'.IsPlain → s'.Names a → Keeps s s' →
      s'.fn.freeReg = s.fn.freeReg →
      a.readOnly = false → (∀ text, k.kind = .str text → k'.integer? = none ∧
        ∃ n, a.name = some n ∧ s'.fn.pool.values[n.index]? = some (.str text)) → s.Pooled s' k k' →
      Via Keeps (do
        match t.kind, ← shortKey? k' with
        | .upvalue u, some key => return Exp.mk (.indexUp u key a) none none
        | kind, short? =>
          let table ← match kind with
            | .upvalue _ =>
              noteLoad k'
              toAnyRegister t
            | .localVar r _ => Pure.pure r
            | .inReg r => Pure.pure r
            | _ => broken .indexInRange
          match short?, k'.integer? with
          | some key, _ => return Exp.mk (.indexStr table key a) none none
          | none, some n =>
            if 0 ≤ n && n ≤ 255 then return Exp.mk (.indexInt table n.toInt.toNat) none none
            else return Exp.mk (.indexed table (← toAnyRegister k') a) none none
          | none, none => return Exp.mk (.indexed table (← toAnyRegister k') a) none none) s' Q) :
    Via Keeps (Compile.index t k) s Q := by
  unfold Compile.index
  have hi := h.plainInv hp
  have hplace := h.place
  obtain ⟨kind, T, E⟩ := k
  obtain ⟨hs, rfl, rfl⟩ := hp
  cases kind with
  | str text =>
    refine Via.next (Via.addConstant h.toBase (by simp) fun n p logs hgrown hn => ?_)
    have hv := h.setPool logs hgrown
    have hval := hv.toKonst rfl rfl rfl hplace
      (show (s.setPool p logs).fn.pool.Holds ⟨n, .str text⟩ from hn)
    have hk : Keeps s (s.setPool p logs) := (Coded.setPool logs hgrown).toKeeps
    have ht := hn.text
    refine Via.next (Via.pure (Via.next (Via.ofFn ?_)))
    simp only [State.setPool, ht]
    refine Via.next (Via.pure ?_)
    refine hrest ⟨.konst ⟨n, .str text⟩, none, none⟩ _ ⟨_, some ⟨n, .str text⟩⟩ hval ⟨rfl, rfl, rfl⟩
      ⟨?_, by simp⟩ hk rfl
      rfl (fun _ _ => ⟨rfl, ⟨n, .str text⟩, rfl, by cases ‹ExpKind.str text = _›; exact ht⟩)
        (.inr ⟨text, n, p, logs, rfl, rfl, hgrown, hn, rfl⟩)
    rintro _ ⟨⟩
    exact ⟨text, rfl, ht⟩
  | konst n =>
    refine Via.next (Via.pure (Via.next (Via.ofFn ?_)))
    have hval := Array.getElem?_eq_getElem hplace.2.lt
    split
    · rename_i text ht
      refine Via.next (Via.pure ?_)
      refine hrest _ _ ⟨_, some n⟩ h ⟨rfl, rfl, rfl⟩ ⟨?_, by simp⟩ (.refl s) rfl rfl (by simp)
        (.inl ⟨rfl, rfl⟩)
      rintro _ ⟨⟩
      obtain ⟨w, hw, hsame⟩ := hplace.2
      cases hw.symm.trans ht
      exact ⟨text, hsame.of_text, ht⟩
    · refine Via.next (Via.pure ?_)
      exact hrest _ _ _ h ⟨rfl, rfl, rfl⟩ ⟨by simp, by simp⟩ (.refl s) rfl rfl (by simp)
        (.inl ⟨rfl, rfl⟩)
    · rename_i hnone
      rw [hval] at hnone
      cases hnone
  | _ =>
    refine Via.next (Via.pure (Via.next (Via.pure ?_)))
    exact hrest _ _ _ h ⟨hs, rfl, rfl⟩ ⟨by simp, by simp⟩ (.refl s) rfl rfl (by simp)
      (.inl ⟨rfl, rfl⟩)

theorem index_inReg_spec (h : Val F base k s) (hp : k.IsPlain) :
    Via Keeps (index (.inReg r) k) s fun e' s' => Indexed F base r e' s' ∧ e'.Writable ∧
      ∀ text, k.kind = .str text → e'.Named s' text := by
  refine Via.index h hp ?_
  intro k' s₁ a h₁ hp₁ ha _ _ hw hname _
  refine Via.bind ((shortKey?_spec h₁).weaken fun _ h => h.toKeeps) ?_
  rintro short? s₁ - ⟨rfl, hs⟩
  have htail := (indexTail_spec (r := r) h₁ ha hw hs hp₁).mono
    (Q := fun e' s' => Indexed F base r e' s' ∧ e'.Writable ∧
      ∀ text, k.kind = .str text → e'.Named s' text) fun e' s' hk' ⟨hx, hw', hacc⟩ =>
        ⟨hx, hw', fun text hk => by
    obtain ⟨hint, n, hn, ht⟩ := hname text hk
    exact ⟨a, n, hacc hint, hn, hk'.pool _ _ ht⟩⟩
  cases short? <;> exact Via.next (Via.pure htail)

/-! ### Tables in upvalues -/

theorem FunctionOk.toLate {late : Bool} {p : Prototype} (h : FunctionOk late p) :
    FunctionOk true p := by
  obtain ⟨n, params, h₁, h₂, h₃, h₄, h₅, hf⟩ := h.code
  refine ⟨h.lines, ⟨n, params, h₁, h₂, h₃, h₄, h₅, ?_⟩, h.upvalues, h.refers, h.adopts⟩
  exact ⟨hf.wellFormed, hf.registers, hf.returns, by simp⟩

def State.late (s : State) : State := { s with lateLoad := true }

theorem Keeps.setLate (s : State) : Keeps s s.late := { Keeps.refl s with late := fun _ => rfl }

theorem Inv.late {o : Option Nat} (h : Inv F o live s) : Inv F o live s.late :=
  ⟨{ h.base with functions := fun p hp q hq => (h.base.functions p hp q hq).toLate },
    h.sound.toLate, h.held⟩

theorem modify_push (code : Code) (w : Instruction) (f : Instruction → Instruction) :
    (code.push w).modify code.size f = code.push (f w) := by
  apply Array.ext_getElem?
  intro p
  rw [Array.getElem?_modify, Array.getElem?_push, Array.getElem?_push]
  by_cases hp : code.size = p
  · subst hp
    simp
  · rw [if_neg hp, if_neg (Ne.symm hp), if_neg (Ne.symm hp)]

/-- The state after an upvalue is loaded into the first free register. -/
def State.loadUpvalue (s : State) (i n : Nat) : State :=
  (((s.emit (.abck .getUpval 0 i 0 0)).raise n).setFree (s.fn.freeReg + 1)).setAt s.fn.code.size
    [(.a, s.fn.freeReg)]

theorem Via.loadUpvalue {i : Nat} {Q : Nat → State → Prop} (hs : s.fn.maxStack ≤ 254)
    (h : ∀ n, s.fn.maxStack ≤ n → s.fn.freeReg + 1 ≤ n → n ≤ 254 →
      Q s.fn.freeReg (s.loadUpvalue i n)) :
    Via Keeps (toAnyRegister ⟨.upvalue i, none, none⟩) s Q := by
  unfold toAnyRegister
  refine Via.next (Via.map (Via.emit ?_))
  unfold toNextRegister
  refine Via.next (Via.pure (Via.next (Via.pure ?_)))
  refine Via.next (Via.reserve hs fun n hn hbn hn' => ?_)
  refine Via.next (Via.freeReg ?_)
  refine Via.next ?_
  unfold toRegister dischargeTo
  refine Via.next (Via.next (Via.pure (Via.next (Via.setAt ?_ (Via.pure ?_)))))
  · show s.fn.code.size < (s.fn.code.push _).size
    simp
  · exact Via.pure (Via.pure (h n hn hbn hn'))

theorem Inv.loadUpvalue {o : Option Nat} {i n : Nat} (h : Inv F o (· < s.fn.freeReg) s)
    (hi : i < s.fn.upvalues.size) (hn : s.fn.maxStack ≤ n) (hf : s.fn.freeReg + 1 ≤ n)
    (hn' : n ≤ 254) :
    Inv F o (· < s.fn.freeReg + 1) (s.loadUpvalue i n) := by
  have hups := h.base.upvalues_le
  have hd : (Draft.abck .getUpval 0 i 0 0).fits = true := Draft.fits_abck.2 (by omega)
  have hfit := fits_setA (show s.fn.freeReg ≤ 255 by omega)
  have hb : Base (s.emit (.abck .getUpval 0 i 0 0)) :=
    h.base.emit hd ⟨⟨Nat.lt_of_le_of_lt (Nat.le_of_eq (Draft.get_abck hd).2.1) hi,
      .nil⟩, by simp [Draft.opcode]⟩
  refine ⟨((hb.raise hn).setFree hf).setAt hfit (.modify fun w hw => ?_), ?_, h.held⟩
  · cases (show (s.fn.code.push _)[s.fn.code.size]? = _ from hw).symm.trans Array.getElem?_push_size
    exact Instruction.becomes_setA (Draft.opcode?_word _) rfl _
  have hop : ((Draft.abck .getUpval 0 i 0 0).word.setAll [(.a, s.fn.freeReg)]).opcode? =
      some .getUpval := by
    rw [Instruction.opcode?_setAll _ _ rfl]
    exact Draft.opcode?_word _
  have ha : ((Draft.abck .getUpval 0 i 0 0).word.setAll [(.a, s.fn.freeReg)]).a = s.fn.freeReg :=
    Sound.a_setA (by omega)
  have hs := @Sound.push _ _ _ _ _ (· < s.fn.freeReg + 1) _ .getUpval (h.sound.raise hn hn') hop rfl
    (.inr (by simp)) ?_ ?_ ?_
  · have hcode : (s.loadUpvalue i n).fn.view
        = CodeView.push { s.fn.view with maxStack := n }
          ((Draft.abck .getUpval 0 i 0 0).word.setAll [(.a, s.fn.freeReg)]) :=
      congrArg (fun code => { s.fn.view with code, maxStack := n })
        (modify_push s.fn.code (Draft.abck .getUpval 0 i 0 0).word (·.setAll [(.a, s.fn.freeReg)]))
    rw [hcode]
    exact hs
  · rw [Instruction.registers_eq hop]
    show ∀ r ∈ [_], _
    rw [ha]
    intro r hr
    rw [List.mem_singleton.1 hr]
    exact hf
  · rw [Instruction.reads_eq hop]
    intro r hr
    cases hr
  · rw [Instruction.writes_eq hop]
    show ∀ r, _ → _ ∨ r ∈ [_]
    rw [ha]
    intro r hr
    simp only [List.mem_singleton]
    omega

theorem State.Compares.push {pc : Nat} {code : Code} (h : s.Compares pc) (hg : Grows s.fn.code code)
    (hc : s'.fn.code = code) : s'.Compares pc := by
  obtain ⟨q, op, hpc, hop, ht⟩ := h
  exact ⟨q, op, hpc, hc ▸ hg.isOp hop, ht⟩

theorem State.loadUpvalue_code (s : State) (i n : Nat) :
    (s.loadUpvalue i n).fn.code
      = s.fn.code.push ((Draft.abck .getUpval 0 i 0 0).word.setAll [(.a, s.fn.freeReg)]) :=
  modify_push s.fn.code (Draft.abck .getUpval 0 i 0 0).word (·.setAll [(.a, s.fn.freeReg)])

/-- A key that waits while the table is loaded into the register before its own. If it is a
comparison, the load is skipped on one of its branches. -/
theorem Val.afterLoad {i n : Nat} (h : Val F base k s) (hp : k.IsPlain)
    (hr : ∀ r, k.kind ≠ .inReg r)
    (hlate : ∀ pc, k.kind = .jump pc → s.lateLoad = true) (hi : i < s.fn.upvalues.size)
    (hn : s.fn.maxStack ≤ n) (hf : s.fn.freeReg + 1 ≤ n) (hn' : n ≤ 254) :
    Val F (base + 1) k (s.loadUpvalue i n) := by
  have hfree := h.settledFree hp.settled hr
  have hload := (h.plainInv hp).loadUpvalue hi hn hf hn'
  have hlow : (s.loadUpvalue i n).level ≤ base + 1 := Nat.le_succ_of_le h.low
  have hfree' : (s.loadUpvalue i n).fn.freeReg = base + 1 := congrArg (· + 1) hfree
  have hplace := h.place
  obtain ⟨kind, T, E⟩ := k
  obtain ⟨hs, rfl, rfl⟩ := hp
  refine .ofKind hlow ?_ ?_
  · have hpend : Inv (kind.ownJump (base + 1) ++ F) kind.opened (· < s.fn.freeReg + 1)
        (s.loadUpvalue i n) := by
      cases kind with
      | jump pc => exact hload.relist (.inl (hlate pc rfl))
      | _ => exact hload
    exact hpend
  · cases kind with
    | inReg r => exact absurd rfl (hr r)
    | konst m => exact ⟨hfree', hplace.2⟩
    | jump pc => exact ⟨hfree', hplace.2.push (grows_push _ _) (State.loadUpvalue_code ..)⟩
    | nil | true_ | false_ | float | int | str | relocatable => exact hfree'
    | _ => cases hs

theorem noteLoad_spec (h : Val F base k s) (hp : k.IsPlain) :
    Via Keeps (noteLoad k) s fun _ s' => Val F base k s' ∧
      ∀ pc, k.kind = .jump pc → s'.lateLoad = true := by
  obtain ⟨kind, T, E⟩ := k
  obtain ⟨hs, rfl, rfl⟩ := hp
  cases kind with
  | jump pc =>
    refine ⟨Keeps.setLate s, ?_, fun _ _ => rfl⟩
    have hi : Inv ((ExpKind.jump pc).ownJump base ++ F) none (· < s.fn.freeReg) s.late :=
      (h.plain rfl rfl).late
    exact .ofKind h.low hi h.place
  | _ => exact Via.pure ⟨h, by simp⟩

theorem index_upvalue_spec {i : Nat} (h : Val F base k s) (hp : k.IsPlain)
    (hi : i < s.fn.upvalues.size) :
    Via Keeps (index ⟨.upvalue i, none, none⟩ k) s fun e' s' => Val F base e' s' ∧
      e'.Writable ∧ ∀ text, k.kind = .str text → e'.Named s' text := by
  refine Via.index h hp ?_
  intro k' s₁ a h₁ hp₁ ha hk₁ _ hw hname _
  have hi₁ := Nat.lt_of_lt_of_le hi hk₁.upvalues
  refine Via.bind ((shortKey?_spec h₁).weaken fun _ h => h.toKeeps) ?_
  rintro short? s₁ - ⟨rfl, hs⟩
  cases short? with
  | some n =>
    obtain ⟨hk, hn⟩ := hs n rfl
    have hinv := h₁.plainInv hp₁
    have hplace := h₁.place
    rw [hk] at hinv hplace
    have hx : Exp.Accesses ⟨.indexUp i n a, none, none⟩ a := .inr (.inl ⟨i, n, rfl⟩)
    refine Via.pure ⟨.ofKind h₁.low hinv ⟨hplace.1, hi₁, hn, ha⟩, hx.writable hw, fun text hk => ?_⟩
    obtain ⟨-, m, hm, ht⟩ := hname text hk
    exact ⟨a, m, hx, hm, ht⟩
  | none =>
    refine Via.bind (noteLoad_spec h₁ hp₁) ?_
    rintro _ s₂ hk₂ ⟨h₂, hlate⟩
    refine Via.next (Via.loadUpvalue h₂.maxStack_le fun n hn hf hn' => ?_)
    have hi₂ : i < s₂.fn.upvalues.size := Nat.lt_of_lt_of_le hi₁ hk₂.upvalues
    have hnames : (s₂.loadUpvalue i n).Names a := ⟨(ha.mono hk₂.toStays).text, ha.readOnly⟩
    by_cases hr : ∃ r, k'.kind = .inReg r
    · -- the key is in a register already, and the table comes after it
      obtain ⟨kind, T, E⟩ := k'
      obtain ⟨-, rfl, rfl⟩ := hp₁
      obtain ⟨r, rfl⟩ := hr
      have hinv : Inv F none (· < s₂.fn.freeReg + 1) (s₂.loadUpvalue i n) :=
        (h₂.plain rfl rfl).loadUpvalue hi₂ hn hf hn'
      have hx : Exp.Accesses ⟨.indexed s₂.fn.freeReg r a, none, none⟩ a := .inl ⟨_, r, rfl⟩
      refine Via.pure ⟨.ofKind h₂.low hinv ⟨?_, hnames⟩, hx.writable hw, fun text hk => ?_⟩
      · rcases h₂.place.1 with ⟨hr, hf⟩ | ⟨rfl, hf⟩
        · exact .inr (.inl ⟨hr, .inr ⟨hf, congrArg (· + 1) hf⟩⟩)
        · exact .inr (.inr ⟨.inr ⟨hf, rfl⟩, congrArg (· + 1) hf⟩)
      · obtain ⟨-, m, hm, ht⟩ := hname text hk
        exact ⟨a, m, hx, hm, hk₂.pool _ _ ht⟩
    · have hr : ∀ r, k'.kind ≠ .inReg r := fun r he => hr ⟨r, he⟩
      have hfree := h₂.settledFree hp₁.settled hr
      have hv := h₂.afterLoad hp₁ hr hlate hi₂ hn hf hn'
      refine Via.mono (indexTail_spec hv hnames hw (by simp) hp₁) ?_
      rintro e' s₃ hk₃ ⟨hx, hw', hacc⟩
      refine ⟨hx.toVal (hk₃.level ▸ h₂.low) (.inr ⟨hfree, rfl⟩), hw', fun text hk => ?_⟩
      obtain ⟨hint, m, hm, ht⟩ := hname text hk
      exact ⟨a, m, hacc hint, hm, hk₃.pool _ _ (hk₂.pool _ _ ht)⟩

end Compile

end LuaChunk
