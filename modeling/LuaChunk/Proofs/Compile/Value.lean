import LuaChunk.Proofs.Compile.Emit

set_option autoImplicit false

namespace LuaChunk

open JumpList (Code IsOp Chain)

namespace Compile

namespace ExpKind

def isSettled : ExpKind → Bool
  | .nil | .true_ | .false_ | .konst _ | .float _ | .int _ | .str _ | .inReg _ | .jump _
  | .relocatable _ => true
  | _ => false

/-- The instruction whose result register is open. -/
def opened : ExpKind → Option Nat
  | .relocatable pc => some pc
  | _ => none

def ownJump (base : Nat) : ExpKind → List Pending
  | .jump pc => [.list [pc] base]
  | _ => []

end ExpKind

namespace State

structure Names (s : State) (a : GlobalAccess) : Prop where
  text : ∀ k, a.name = some k → ∃ t, k.value = .str t ∧ s.fn.pool.values[k.index]? = some (.str t)
  readOnly : a.readOnly = true → a.name ≠ none

/-- The last instruction is of an opcode, and no jump leads past it. -/
def EndsWith (s : State) (pc : Nat) (op : Opcode) (a c : Nat) : Prop :=
  pc + 1 = s.fn.code.size ∧ s.fn.lastTarget ≤ pc ∧
    ∃ i, s.fn.code[pc]? = some i ∧ i.opcode? = some op ∧ i.a = a ∧ i.c = c

/-- The name of a field is in the pool, and can be an operand. -/
structure ShortKey (s : State) (k : PoolEntry) : Prop where
  small : k.index ≤ 255
  short : s.fn.references.Holds Value.isShortString k.index
  holds : s.fn.pool.Holds k

theorem ShortKey.of_fn {s s' : State} {k : PoolEntry} (h : s.ShortKey k) (hf : s'.fn = s.fn) :
    s'.ShortKey k := by
  obtain ⟨hsmall, hshort, hholds⟩ := h
  rw [← hf] at hshort hholds
  exact ⟨hsmall, hshort, hholds⟩

def Compares (s : State) (pc : Nat) : Prop :=
  ∃ q op, pc = q + 1 ∧ IsOp s.fn.code q op ∧ op.isTest = true ∧ op ≠ .testSet

/-- Where a value is. It was coded when `base` was the first free register. -/
def Places (s : State) (base : Nat) : ExpKind → Prop
  | .void => False
  | .nil | .true_ | .false_ | .float _ | .int _ | .str _ | .relocatable _ => s.fn.freeReg = base
  | .konst k => s.fn.freeReg = base ∧ s.fn.pool.Holds k
  | .inReg r => s.Slot base r ∧ (s.level ≤ r → s.ConcatAt r)
  | .localVar r i => s.fn.freeReg = base ∧ r < s.level ∧ i < s.fn.active
  | .upvalue i => s.fn.freeReg = base ∧ i < s.fn.upvalues.size
  | .constVar i => s.fn.freeReg = base ∧ ∃ v, s.vars[i]? = some v ∧ v.name.isSome = true
  | .indexed t k a => s.Slots base t k ∧ s.Names a
  | .indexUp t k a => s.fn.freeReg = base ∧ t < s.fn.upvalues.size ∧ s.ShortKey k ∧ s.Names a
  | .indexInt t k => s.Slot base t ∧ k ≤ 255
  | .indexStr t k a => s.Slot base t ∧ s.ShortKey k ∧ s.Names a
  | .call pc => s.fn.freeReg = base + 1 ∧ s.EndsWith pc .call base 2
  | .vararg pc => s.fn.freeReg = base ∧ s.EndsWith pc .vararg 0 1
  | .jump pc => s.fn.freeReg = base ∧ s.Compares pc

end State

/-- An expression that was coded when `base` was the first free register. `F` is what is pending
besides its jumps. -/
structure Val (F : List Pending) (base : Nat) (e : Exp) (s : State) : Prop where
  low : s.level ≤ base
  jumps : ∃ T E, e.whenTrue = List.head? T ∧ e.whenFalse = List.head? E ∧
    Inv (.list T base :: .list E base :: (e.kind.ownJump base ++ F)) e.kind.opened
      (· < s.fn.freeReg) s
  place : s.Places base e.kind
  bare : e.kind.isSettled = false → e.whenTrue = none ∧ e.whenFalse = none

section

variable {F : List Pending} {base r : Nat} {e : Exp} {s : State} {kind : ExpKind}

theorem State.Slot.lt (h : s.Slot base r) (hl : s.level ≤ base) : r < s.fn.freeReg := by
  rcases h with ⟨h₁, h₂⟩ | ⟨h₁, h₂⟩ <;> omega

theorem State.Slot.le (h : s.Slot base r) : base ≤ s.fn.freeReg := by
  rcases h with ⟨h₁, h₂⟩ | ⟨h₁, h₂⟩ <;> omega

theorem State.Slot.coded {s' : State} (h : s.Slot base r) (hc : Coded s s') : s'.Slot base r := by
  unfold State.Slot
  rw [hc.level, hc.freeReg]
  exact h

theorem State.Slots.lt {r₁ r₂ : Nat} (h : s.Slots base r₁ r₂) (hl : s.level ≤ base) :
    r₁ < s.fn.freeReg ∧ r₂ < s.fn.freeReg := by
  rcases h with ⟨h₁, h₂⟩ | ⟨h₁, h₂⟩ | ⟨h₁, h₂⟩
  · have := h₂.lt hl
    have := h₂.le
    omega
  · have := h₂.lt hl
    have := h₂.le
    omega
  · omega

theorem State.Slots.le {r₁ r₂ : Nat} (h : s.Slots base r₁ r₂) : base ≤ s.fn.freeReg := by
  rcases h with ⟨-, h⟩ | ⟨-, h⟩ | ⟨-, h⟩
  · exact h.le
  · exact h.le
  · omega

theorem State.Places.le (h : s.Places base kind) : base ≤ s.fn.freeReg := by
  cases kind with
  | void => cases h
  | inReg r => exact h.1.le
  | indexed t k a => exact h.1.le
  | indexInt t k => exact h.1.le
  | indexStr t k a => exact h.1.le
  | call pc => exact Nat.le_of_lt (Nat.lt_of_lt_of_eq (Nat.lt_succ_self _) h.1.symm)
  | nil | true_ | false_ | float | int | str | relocatable => exact Nat.le_of_eq (Eq.symm h)
  | konst | localVar | upvalue | constVar | indexUp | vararg | jump => exact Nat.le_of_eq h.1.symm

namespace Val

theorem ofKind (hl : s.level ≤ base)
    (h : Inv (kind.ownJump base ++ F) kind.opened (· < s.fn.freeReg) s)
    (hp : s.Places base kind) : Val F base ⟨kind, none, none⟩ s where
  low := hl
  jumps := ⟨[], [], rfl, rfl, (h.addNil base).addNil base⟩
  place := hp
  bare _ := ⟨rfl, rfl⟩

theorem base_le (h : Val F base e s) : base ≤ s.fn.freeReg := h.place.le

theorem toBase (h : Val F base e s) : Base s := by
  obtain ⟨T, E, -, -, hi⟩ := h.jumps
  exact hi.base

theorem maxStack_le (h : Val F base e s) : s.fn.maxStack ≤ 254 := by
  obtain ⟨T, E, -, -, hi⟩ := h.jumps
  exact hi.maxStack_le

theorem room (h : Val F base e s) : s.fn.freeReg ≤ s.fn.maxStack := h.toBase.room

theorem noJumps (h : Val F base e s) (hj : e.hasJumps = false) :
    e.whenTrue = none ∧ e.whenFalse = none := by
  obtain ⟨T, E, hT, hE, hi⟩ := h.jumps
  have heq : T.head? = E.head? := by
    rw [← hT, ← hE]
    simpa [Exp.hasJumps] using hj
  cases T with
  | nil => exact ⟨hT, by rw [hE, ← heq]; rfl⟩
  | cons m rest =>
    have hm : m ∈ E := List.mem_of_head? heq.symm
    have hn := hi.nodup
    simp only [Pending.ownedBy_cons, Pending.owned] at hn
    have hd := (List.nodup_append.1 hn).2.2 m (by simp) m (by simp [hm])
    exact absurd rfl hd

theorem plain (h : Val F base e s) (hT : e.whenTrue = none) (hE : e.whenFalse = none) :
    Inv (e.kind.ownJump base ++ F) e.kind.opened (· < s.fn.freeReg) s := by
  obtain ⟨T, E, hT', hE', hi⟩ := h.jumps
  obtain rfl : T = [] := List.head?_eq_none_iff.1 (hT'.symm.trans hT)
  obtain rfl : E = [] := List.head?_eq_none_iff.1 (hE'.symm.trans hE)
  exact hi.dropNil.dropNil

theorem bareInv (h : Val F base e s) (hk : e.kind.isSettled = false) :
    Inv F none (· < s.fn.freeReg) s := by
  obtain ⟨hT, hE⟩ := h.bare hk
  have hi := h.plain hT hE
  cases he : e.kind <;> rw [he] at hi hk <;> first | exact hi | cases hk

theorem eta (h : Val F base e s) (hk : e.kind.isSettled = false) : e = ⟨e.kind, none, none⟩ := by
  obtain ⟨hT, hE⟩ := h.bare hk
  cases e
  cases hT
  cases hE
  rfl

theorem inReg (hl : s.level ≤ base) (h : Inv F none (· < s.fn.freeReg) s) (hs : s.Slot base r)
    (hc : s.level ≤ r → s.ConcatAt r) : Val F base (.inReg r) s :=
  .ofKind hl h ⟨hs, hc⟩

theorem inv_inReg (h : Val F base (.inReg r) s) : Inv F none (· < s.fn.freeReg) s :=
  h.plain rfl rfl

theorem slot (h : Val F base (.inReg r) s) : s.Slot base r := h.place.1

end Val

/-- No scope has begun or ended since an instruction was emitted. -/
def State.Quiet (s : State) (pc : Nat) : Prop := ∀ x ∈ s.fn.locals, x.Within pc

theorem State.Quiet.congr {s' : State} {pc : Nat} (h : s.Quiet pc)
    (hl : s'.fn.locals = s.fn.locals) : s'.Quiet pc := by
  rw [State.Quiet, hl]
  exact h

/-- An instruction whose result register is open is the last one, unless it is no negation. -/
def State.Fresh (s : State) (e : Exp) : Prop :=
  ∀ pc, e.kind = .relocatable pc →
    pc + 1 = s.fn.code.size ∧ s.Quiet pc ∨ ∃ op, IsOp s.fn.code pc op ∧ op ≠ .not

theorem State.Fresh.emitted {d : Draft} {T E : Option Nat} (h : s.Quiet s.fn.code.size) :
    (s.emit d).Fresh ⟨.relocatable s.fn.code.size, T, E⟩ := by
  rintro _ ⟨⟩
  exact .inl ⟨(Array.size_push ..).symm, h⟩

theorem State.Fresh.of_op {pc : Nat} {op : Opcode} {T E : Option Nat} (h : IsOp s.fn.code pc op)
    (hn : op ≠ .not) :
    s.Fresh ⟨.relocatable pc, T, E⟩ := by
  rintro _ ⟨⟩
  exact .inr ⟨op, h, hn⟩

theorem Base.quiet (h : Base s) : s.Quiet s.fn.code.size := by
  intro x hx
  have hw := h.tracked.history.within x (Array.mem_toList_iff.2 hx)
  rwa [Array.length_toList, h.tracked.size] at hw

theorem State.Fresh.of_ne {T E : Option Nat} (h : ∀ pc, kind ≠ .relocatable pc) :
    s.Fresh ⟨kind, T, E⟩ :=
  fun pc hk => absurd hk (h pc)

/-- What is true of the state after an expression has been settled. -/
structure Settled (F : List Pending) (base : Nat) (e e' : Exp) (s s' : State) : Prop where
  val : Val F base e' s'
  settled : e'.kind.isSettled = true
  lists : e'.whenTrue = e.whenTrue ∧ e'.whenFalse = e.whenFalse
  free : e.kind.isSettled = true ∨ e.isMulti = true ∨ s'.fn.freeReg = base
  fresh : s.Fresh e → s'.Fresh e'
  same : e.kind.isSettled = true → e' = e ∧ s' = s
  emitted : e.isIndexed = true → ∃ pc, e'.kind = .relocatable pc

theorem Enclosed.upvalues_le {n : Nat} {rest : List Builder} {f : Builder}
    (h : Enclosed n (f :: rest)) : f.upvalues.size ≤ 255 := h.2.2.1

theorem Base.upvalues_le (h : Base s) : s.fn.upvalues.size ≤ 255 := Enclosed.upvalues_le h.enclosed

theorem Val.emitOpen {live : Nat → Prop} {op : Opcode} {b c : Nat} {meant : List Value}
    (hl : s.level ≤ base)
    (h : Inv F none live s) (hlive : ∀ r < base, live r) (hf : s.fn.freeReg = base)
    (hbc : b ≤ 255 ∧ c ≤ 255) (hp : op.isPlain = true) (hr : op.isRelocatable = true)
    (hv : op ≠ .vararg) (hregs : ∀ i : Instruction, i.registersOf op = i.readsOf op ++ [i.a])
    (hw : ∀ w : Instruction, w.b = b → w.c = c → ∀ r ∈ w.readsOf op, live r ∧ r < s.fn.maxStack)
    (hx : ∀ w : Instruction, w.b = b → w.c = c → w.Serves s.fn.references op meant) :
    Val F base (.relocatable s.fn.code.size) (s.emit (.abck op 0 b c 0) meant) := by
  have hstack := h.base.stack
  refine .ofKind hl ?_ hf
  refine (h.pushOpen ⟨by omega, hbc.1, hbc.2, by omega⟩ hp hr hv ?_ hx).weaken ?_
  · rintro w ha hb hc
    refine ⟨?_, fun r hr => (hw w hb hc r hr).1⟩
    rw [hregs]
    intro r hr
    rcases List.mem_append.1 hr with hr | hr
    · exact (hw w hb hc r hr).2
    · rw [List.mem_singleton.1 hr, ha]
      omega
  · intro r hr
    exact hlive r (hf ▸ hr)

theorem Settled.of {s' : State} (h : Val F base e s) (hu : e.kind.isSettled = false)
    (hv : Val F base ⟨kind, none, none⟩ s') (hk : kind.isSettled = true)
    (hf : e.isMulti = true ∨ s'.fn.freeReg = base) (hn : s'.Fresh { e with kind := kind })
    (hx : e.isIndexed = true → ∃ pc, kind = .relocatable pc) :
    Settled F base e { e with kind := kind } s s' := by
  obtain ⟨hT, hE⟩ := h.bare hu
  refine ⟨?_, hk, ⟨rfl, rfl⟩, .inr hf, fun _ => hn, fun hs => ?_, hx⟩
  · rw [hT, hE]
    exact hv
  · rw [hu] at hs
    cases hs

theorem Via.variableAt {R : State → State → Prop} [Steps R] {i : Nat} {Q : Variable → State → Prop}
    (hi : i < s.vars.size) (h : ∀ v, s.vars[i]? = some v → Q v s) :
    Via R (Compile.variableAt i) s Q := by
  unfold Compile.variableAt
  refine Via.next (Via.get ?_)
  have hv := Array.getElem?_eq_getElem hi
  rw [hv]
  exact Via.pure (h _ hv)

theorem Val.ofValue (hl : s.level ≤ base) (h : Inv F none (· < s.fn.freeReg) s)
    (hf : s.fn.freeReg = base) (v : Value) : Val F base ⟨.ofValue v, none, none⟩ s := by
  cases v with
  | bool b => cases b <;> exact .ofKind hl h hf
  | num n => cases n <;> exact .ofKind hl h hf
  | nil | str | unknown => exact .ofKind hl h hf

theorem ofValue_settled (v : Value) : (ExpKind.ofValue v).isSettled = true := by
  cases v with
  | bool b => cases b <;> rfl
  | num n => cases n <;> rfl
  | nil | str | unknown => rfl

theorem ofValue_ne_relocatable (v : Value) (pc : Nat) : ExpKind.ofValue v ≠ .relocatable pc := by
  cases v with
  | bool b => cases b <;> simp [ExpKind.ofValue]
  | num n => cases n <;> simp [ExpKind.ofValue]
  | nil | str | unknown => simp [ExpKind.ofValue]

theorem State.EndsWith.concatAt {pc a c r : Nat} {op : Opcode} (h : s.EndsWith pc op a c)
    (hne : op ≠ .concat) : s.ConcatAt r := by
  obtain ⟨hs, -, i, hi, hop, -⟩ := h
  intro _ j hj hopj
  rw [Array.back?_eq_getElem?, ← hs, Nat.add_sub_cancel, hi] at hj
  cases hj
  rw [hop] at hopj
  exact absurd (Option.some.inj hopj) hne

/-- What is true after the number of values has been fixed to one. -/
structure OneValue (F : List Pending) (base : Nat) (e e' : Exp) (s s' : State) : Prop where
  val : Val F base e' s'
  lists : e'.whenTrue = e.whenTrue ∧ e'.whenFalse = e.whenFalse
  settled : e.isMulti = true → e'.kind.isSettled = true
  fresh : s.Fresh e → s'.Fresh e'
  single : e'.isMulti = false

theorem setOneReturn_spec (h : Val F base e s) :
    Via Coded (setOneReturn e) s fun e' s' => OneValue F base e e' s s' := by
  unfold setOneReturn
  have hp := h.place
  cases hk : e.kind with
  | call pc =>
    have hu : e.kind.isSettled = false := by rw [hk]; rfl
    have hi := h.bareInv hu
    rw [hk] at hp
    obtain ⟨hf, hend⟩ := hp
    obtain ⟨i, hi', -, ha, -⟩ := hend.2.2
    refine Via.next (Via.instructionAt hi' (Via.pure ?_))
    have hv : Val F base (.inReg i.a) s :=
      .inReg h.low hi (.inr ⟨ha, hf⟩) fun _ => hend.concatAt (by simp)
    obtain ⟨hval, hset, hlists, -, hfresh, -⟩ := Settled.of h hu hv rfl
      (.inl (by simp [Exp.isMulti, hk])) (.of_ne (by simp)) fun hx => by
        simp [Exp.isIndexed, hk] at hx
    exact ⟨hval, hlists, fun _ => hset, hfresh, rfl⟩
  | vararg pc =>
    have hu : e.kind.isSettled = false := by rw [hk]; rfl
    have hi := h.bareInv hu
    rw [hk] at hp
    obtain ⟨hf, hs, hL, i, hi', hop, ha, hc⟩ := hp
    have hpc : pc < s.fn.code.size := by omega
    refine Via.next (Via.setAt hpc (Via.pure ?_))
    have hfc : Instruction.Field.c.fits 2 = true := rfl
    have hop' : (i.setAll [(.c, 2)]).opcode? = some .vararg :=
      (Instruction.opcode?_setAll _ _ rfl).trans hop
    have hv : Val F base (.relocatable pc) (s.setAt pc [(.c, 2)]) := by
      refine .ofKind h.low (Inv.setAt hi.base rfl ?_ (.modify_free hi' hop hop' rfl rfl) hi.held) hf
      refine hi.sound.openVararg hs hL hi' hop hc hop' ?_ ?_
      · exact Instruction.get_set_fits i hfc (by decide) (by decide)
      · exact Instruction.get_setAll_apart .a _ i rfl
    have hset : IsOp (s.setAt pc [(.c, 2)]).fn.code pc .vararg := by
      refine ⟨_, ?_, hop'⟩
      rw [State.setAt, Array.getElem?_modify, if_pos rfl, hi']
      rfl
    obtain ⟨hval, hset, hlists, -, hfresh, -⟩ := Settled.of h hu hv rfl
      (.inl (by simp [Exp.isMulti, hk])) (.of_op hset (by simp)) fun _ => ⟨pc, rfl⟩
    exact ⟨hval, hlists, fun _ => hset, hfresh, rfl⟩
  | _ =>
    have hm : e.isMulti = false := by simp [Exp.isMulti, hk]
    exact Via.pure ⟨h, ⟨rfl, rfl⟩, fun h => (by rw [hm] at h; cases h), id, hm⟩

theorem dischargeVars_spec (h : Val F base e s) :
    Via Keeps (dischargeVars e) s fun e' s' => Settled F base e e' s s' := by
  have hbase := h.toBase
  have hroom := h.room
  have hle := h.base_le
  have hstack := h.maxStack_le
  have hups := hbase.upvalues_le
  have hp := h.place
  have hl := h.low
  unfold dischargeVars
  cases hk : e.kind with
  | void =>
    rw [hk] at hp
    cases hp
  | nil | true_ | false_ | konst | float | int | str | inReg | jump | relocatable =>
    exact Via.pure ⟨h, by rw [hk]; rfl, ⟨rfl, rfl⟩, .inl (by rw [hk]; rfl), id, fun _ => ⟨rfl, rfl⟩,
      fun hx => by simp [Exp.isIndexed, hk] at hx⟩
  | constVar i =>
    have hu : e.kind.isSettled = false := by rw [hk]; rfl
    rw [hk] at hp
    obtain ⟨hf, v, hv, -⟩ := hp
    refine Via.next (Via.variableAt (Array.getElem?_eq_some_iff.1 hv).1 fun v _ => Via.pure ?_)
    exact .of h hu (.ofValue hl (h.bareInv hu) hf _) (ofValue_settled _) (.inr hf)
      (.of_ne (ofValue_ne_relocatable _)) fun hx => by simp [Exp.isIndexed, hk] at hx
  | localVar r i =>
    have hu : e.kind.isSettled = false := by rw [hk]; rfl
    rw [hk] at hp
    obtain ⟨hf, hr, -⟩ := hp
    refine Via.pure (.of h hu ?_ rfl (.inr hf) (.of_ne (by simp))
      fun hx => by simp [Exp.isIndexed, hk] at hx)
    exact .inReg hl (h.bareInv hu) (.inl ⟨hr, hf⟩) fun hge => by omega
  | upvalue i =>
    have hu : e.kind.isSettled = false := by rw [hk]; rfl
    rw [hk] at hp
    obtain ⟨hf, hi⟩ := hp
    refine Via.map (Via.emit (.of h hu ?_ rfl (.inr hf) (.emitted hbase.quiet) fun _ => ⟨_, rfl⟩))
    refine Val.emitOpen hl (h.bareInv hu) (fun r hr => by omega) hf ⟨by omega, by omega⟩ rfl rfl
      (by simp) (fun _ => rfl) ?_ ?_
    · intro w _ _ r hr
      cases hr
    · intro w hb _
      exact ⟨Nat.lt_of_le_of_lt (Nat.le_of_eq hb) hi, .nil⟩
  | indexUp t k a =>
    have hu : e.kind.isSettled = false := by rw [hk]; rfl
    rw [hk] at hp
    obtain ⟨hf, ht, ⟨hkey, hname, hholds⟩, -⟩ := hp
    refine Via.map (Via.emit (.of h hu ?_ rfl (.inr hf) (.emitted hbase.quiet) fun _ => ⟨_, rfl⟩))
    refine Val.emitOpen hl (h.bareInv hu) (fun r hr => by omega) hf ⟨by omega, by omega⟩ rfl rfl
      (by simp) (fun _ => rfl) ?_ ?_
    · intro w _ _ r hr
      cases hr
    · intro w hb hc
      rw [← hb] at ht
      rw [← hc] at hname
      exact ⟨⟨ht, hname⟩, hholds.stand hc⟩
  | indexInt t k =>
    have hu : e.kind.isSettled = false := by rw [hk]; rfl
    rw [hk] at hp
    obtain ⟨hs, hkey⟩ := hp
    have ht := hs.lt hl
    refine Via.next (Via.freeSlot hbase hl hs ?_)
    refine Via.map (Via.emit (.of h hu ?_ rfl (.inr rfl) (.emitted hbase.quiet) fun _ => ⟨_, rfl⟩))
    refine Val.emitOpen hl ((h.bareInv hu).setFree (by omega)) (fun r hr => by omega) rfl
      ⟨by omega, by omega⟩ rfl rfl (by simp) (fun _ => rfl) ?_ fun _ _ _ =>
        Instruction.serves_of_free rfl
    rintro w hb - r hr
    rw [List.mem_singleton.1 hr, hb]
    exact ⟨ht, Nat.lt_of_lt_of_le ht hroom⟩
  | indexStr t k a =>
    have hu : e.kind.isSettled = false := by rw [hk]; rfl
    rw [hk] at hp
    obtain ⟨hs, ⟨hkey, hname, hholds⟩, -⟩ := hp
    have ht := hs.lt hl
    refine Via.next (Via.freeSlot hbase hl hs ?_)
    refine Via.map (Via.emit (.of h hu ?_ rfl (.inr rfl) (.emitted hbase.quiet) fun _ => ⟨_, rfl⟩))
    refine Val.emitOpen hl ((h.bareInv hu).setFree (by omega)) (fun r hr => by omega) rfl
      ⟨by omega, by omega⟩ rfl rfl (by simp) (fun _ => rfl) ?_ ?_
    · rintro w hb - r hr
      rw [List.mem_singleton.1 hr, hb]
      exact ⟨ht, Nat.lt_of_lt_of_le ht hroom⟩
    · intro w _ hc
      rw [← hc] at hname
      exact ⟨hname, hholds.stand hc⟩
  | indexed t k a =>
    have hu : e.kind.isSettled = false := by rw [hk]; rfl
    rw [hk] at hp
    obtain ⟨h₁, h₂⟩ := hp.1.lt hl
    refine Via.next (Via.freeSlots hbase hl hp.1 ?_)
    refine Via.map (Via.emit (.of h hu ?_ rfl (.inr rfl) (.emitted hbase.quiet) fun _ => ⟨_, rfl⟩))
    refine Val.emitOpen hl ((h.bareInv hu).setFree (by omega)) (fun r hr => by omega) rfl
      ⟨by omega, by omega⟩ rfl rfl (by simp) (fun _ => rfl) ?_ fun _ _ _ =>
        Instruction.serves_of_free rfl
    rintro w hb hc r hr
    rcases List.mem_cons.1 hr with rfl | hr
    · rw [hb]
      exact ⟨h₁, Nat.lt_of_lt_of_le h₁ hroom⟩
    · rw [List.mem_singleton.1 hr, hc]
      exact ⟨h₂, Nat.lt_of_lt_of_le h₂ hroom⟩
  | call pc | vararg pc =>
    refine Via.mono ((setOneReturn_spec h).weaken fun _ h => h.toKeeps) ?_
    rintro e' s' - hv
    refine ⟨hv.val, hv.settled (by simp [Exp.isMulti, hk]), hv.lists,
      .inr (.inl (by simp [Exp.isMulti, hk])),
      hv.fresh, fun hs => ?_, fun hx => by simp [Exp.isIndexed, hk] at hx⟩
    rw [hk] at hs
    cases hs

variable {P : List Pending} {live live' : Nat → Prop} {reg : Nat}

theorem loadInt_spec {n : Int64} (h : Inv P none live s) (hr : reg < s.fn.maxStack)
    (hl : ∀ r, live' r → live r ∨ r = reg) :
    Via Coded (loadInt reg n) s fun _ s' => Inv P none live' s' ∧ ∀ q, s'.ConcatAt q := by
  have hstack := h.maxStack_le
  unfold loadInt
  refine Via.ite (fun hf => ?_) fun _ => ?_
  · simp only [fitsSBx, Bool.and_eq_true, decide_eq_true_eq, Int64.le_iff_toInt_le] at hf
    have hd : (Draft.asbx .loadI reg n.toInt).fits = true :=
      Draft.fits_asbx.2 ⟨by omega, hf.1, hf.2⟩
    refine Via.discard (Via.emit ⟨?_, State.concatAt_emit (by simp [Draft.opcode])⟩)
    exact h.load hd (.inr (.inr (.inl rfl))) (by simp [Draft.opcode]) (Draft.get_asbx hd) hr hl
      (Instruction.serves_of_free rfl)
  · refine Via.next (Via.addConstant h.base (by simp) fun k p logs hp hk => ?_)
    exact emitK_spec (h.setPool logs hp) hk hr hl

theorem loadFloat_spec {x : Double} (h : Inv P none live s) (hr : reg < s.fn.maxStack)
    (hl : ∀ r, live' r → live r ∨ r = reg) :
    Via Coded (loadFloat reg x) s fun _ s' => Inv P none live' s' ∧ ∀ q, s'.ConcatAt q := by
  have hstack := h.maxStack_le
  unfold loadFloat
  simp only
  split
  · rename_i n hn
    have hf : fitsSBx n = true := by
      split at hn
      · split at hn
        · cases hn
          assumption
        · cases hn
      · cases hn
    simp only [fitsSBx, Bool.and_eq_true, decide_eq_true_eq, Int64.le_iff_toInt_le] at hf
    have hd : (Draft.asbx .loadF reg n.toInt).fits = true :=
      Draft.fits_asbx.2 ⟨by omega, hf.1, hf.2⟩
    refine Via.next (Via.noteFloat
      (Via.discard (Via.emit ⟨?_, State.concatAt_emit (by simp [Draft.opcode])⟩)))
    exact (h.noteFloat x _).load hd (.inr (.inr (.inr (.inl rfl)))) (by simp [Draft.opcode])
      (Draft.get_asbx hd) hr hl
      (Instruction.serves_of_free rfl)
  · refine Via.next (Via.addConstant h.base (by simp) fun k p logs hp hk => ?_)
    exact emitK_spec (h.setPool logs hp) hk hr hl

def State.Loads (s : State) (live : Nat → Prop) : ExpKind → Prop
  | .nil | .true_ | .false_ | .float _ | .int _ | .str _ | .relocatable _ => True
  | .konst k => s.fn.pool.Holds k
  | .inReg r => live r ∧ r < s.fn.maxStack
  | _ => False

theorem Inv.lastOpen {pc : Nat} (h : Inv P (some pc) live s) :
    ∃ op, IsOp s.fn.code (s.fn.code.size - 1) op ∧ op ≠ .concat := by
  have hr := h.sound.shape.reloc pc rfl
  obtain ⟨i, op, hi, hop, hrel, -⟩ := hr.op
  have hlt : pc < s.fn.code.size := (Array.getElem?_eq_some_iff.1 hi).1
  by_cases he : pc = s.fn.code.size - 1
  · refine ⟨op, he ▸ ⟨i, hi, hop⟩, ?_⟩
    rintro rfl
    cases hrel
  · obtain ⟨op', ho, -, hne⟩ := hr.after (s.fn.code.size - 1) (by omega)
      (show s.fn.code.size - 1 < s.fn.code.size by omega)
    exact ⟨op', ho, hne⟩

theorem Inv.openLt {pc : Nat} (h : Inv P (some pc) live s) : pc < s.fn.code.size := by
  obtain ⟨i, op, hi, -⟩ := (h.sound.shape.reloc pc rfl).op
  exact (Array.getElem?_eq_some_iff.1 hi).1

theorem fits_setA {a : Nat} (h : a ≤ 255) :
    ([(Instruction.Field.a, a)].all fun (f, v) => f.fits v) = true := by
  simp only [List.all_cons, List.all_nil, Bool.and_true, Instruction.Field.fits_iff]
  exact h

theorem Inv.rewritten_setOpen {pc a : Nat} (h : Inv P (some pc) live s) :
    Rewritten s.fn.references s.fn.code (s.fn.code.modify pc (·.setAll [(.a, a)])) := by
  obtain ⟨i, op, hi, hop, hrel, -⟩ := (h.sound.shape.reloc pc rfl).op
  exact .modify_at hi (Instruction.becomes_setA hop hrel a)

structure Loaded (P : List Pending) (live : Nat → Prop) (reg : Nat) (kind : ExpKind)
    (s s' : State) : Prop where
  inv : Inv P none live s'
  concatAt : (kind = .inReg reg → s.ConcatAt reg) → s'.ConcatAt reg

theorem dischargeTo_spec (h : Inv P e.kind.opened live s) (hk : s.Loads live e.kind)
    (hr : reg < s.fn.maxStack) (hl : ∀ r, live' r → live r ∨ r = reg) :
    Via Coded (dischargeTo e reg) s fun e' s' =>
      e' = { e with kind := .inReg reg } ∧ Loaded P live' reg e.kind s s' := by
  have hstack := h.maxStack_le
  obtain ⟨kind, T, E⟩ := e
  unfold dischargeTo
  have hload : ∀ {m : M Unit},
      Via Coded m s (fun _ s' => Inv P none live' s' ∧ ∀ q, s'.ConcatAt q) →
      Via Coded (m >>= fun _ => Pure.pure (Exp.mk (.inReg reg) T E)) s fun e' s' =>
        e' = Exp.mk (.inReg reg) T E ∧ Loaded P live' reg kind s s' := by
    intro m hm
    refine Via.bind hm ?_
    rintro _ s' - ⟨hi, hc⟩
    exact Via.pure ⟨rfl, hi, fun _ => hc reg⟩
  cases kind with
  | nil =>
    refine hload (Via.loadNil ⟨?_, State.concatAt_loadNil (by omega)⟩)
    refine h.loadNil (by omega) (by omega) fun r hr' => ?_
    rcases hl r hr' with h | h
    · exact .inl h
    · exact .inr (by omega)
  | false_ =>
    have hd : (Draft.abck .loadFalse reg 0 0 0).fits = true := Draft.fits_abck.2 (by omega)
    refine hload (Via.discard (Via.emit ⟨?_, State.concatAt_emit (by simp [Draft.opcode])⟩))
    exact h.load hd (by simp [Draft.opcode]) (by simp [Draft.opcode]) (Draft.get_abck hd).1 hr hl
      (Instruction.serves_of_free rfl)
  | true_ =>
    have hd : (Draft.abck .loadTrue reg 0 0 0).fits = true := Draft.fits_abck.2 (by omega)
    refine hload (Via.discard (Via.emit ⟨?_, State.concatAt_emit (by simp [Draft.opcode])⟩))
    exact h.load hd (by simp [Draft.opcode]) (by simp [Draft.opcode]) (Draft.get_abck hd).1 hr hl
      (Instruction.serves_of_free rfl)
  | str t =>
    refine Via.next (Via.pure ?_)
    refine Via.next (Via.addConstant h.base (by simp) fun k p logs hp hk => ?_)
    refine Via.bind (emitK_spec (h.setPool logs hp) hk hr hl) ?_
    rintro _ s' - ⟨hi, hc⟩
    exact Via.pure ⟨rfl, hi, fun _ => hc reg⟩
  | konst k => exact hload (emitK_spec h hk hr hl)
  | float x => exact hload (loadFloat_spec h hr hl)
  | int n => exact hload (loadInt_spec h hr hl)
  | relocatable pc =>
    refine Via.next (Via.pure ?_)
    refine Via.next (Via.setAt h.openLt (Via.pure ⟨rfl, ?_, fun _ => ?_⟩))
    · exact Inv.setAt h.base (fits_setA (by omega)) (h.sound.setOpen hr hl) h.rewritten_setOpen
        h.held
    · obtain ⟨op, hop, hne⟩ := h.lastOpen
      exact State.concatAt_setAt rfl hop hne reg
  | inReg r =>
    refine Via.ite (fun hne => ?_) fun he => ?_
    · refine hload (Via.discard (Via.emit ⟨?_, State.concatAt_emit (by simp [Draft.opcode])⟩))
      have hrs := hk.2
      refine h.pushABC (by omega) rfl (.inl rfl) ?_ fun _ _ _ _ _ => Instruction.serves_of_free rfl
      rintro w ha hb - -
      refine ⟨?_, ?_, ?_⟩
      · show ∀ q ∈ [w.b, w.a], q < s.fn.maxStack
        simp [ha, hb, hr, hk.2]
      · show ∀ q ∈ [w.b], live q
        simp [hb, hk.1]
      · show ∀ q, live' q → live q ∨ q ∈ [w.a]
        simpa [ha] using hl
    · obtain rfl : r = reg := Decidable.not_not.1 he
      refine Via.pure ⟨rfl, h.weaken fun q hq => ?_, fun hc => hc rfl⟩
      rcases hl q hq with hq | rfl
      · exact hq
      · exact hk.1
  | _ => cases hk

def Valued (code : Code) (ms : List Nat) : Prop := ∀ m ∈ ms, ∃ q, m = q + 1 ∧ IsOp code q .testSet

variable {T E : List Nat}

theorem Inv.lists_nil {o : Option Nat} (h : Inv (.list T base :: .list E base :: F) o live s)
    (heq : T.head? = E.head?) : T = [] ∧ E = [] := by
  cases T with
  | nil => exact ⟨rfl, List.head?_eq_none_iff.1 heq.symm⟩
  | cons m rest =>
    have hm : m ∈ E := List.mem_of_head? heq.symm
    have hn := h.nodup
    simp only [Pending.ownedBy_cons, Pending.owned] at hn
    have hd := (List.nodup_append.1 hn).2.2 m (by simp) m (by simp [hm])
    exact absurd rfl hd

theorem Inv.bools {l : Nat} (h : Inv P none live s) (hr : reg < s.fn.maxStack)
    (hl : ∀ r < l, live r)
    (hlive : ∀ r, live' r → r < l ∨ r = reg) :
    Inv (.target (s.fn.code.size + 1) l :: .target s.fn.code.size l :: P) none live'
      ((s.mark.emit (.abck .lFalseSkip reg 0 0 0)).mark.emit (.abck .loadTrue reg 0 0 0)) := by
  have hstack := h.maxStack_le
  have h₁ : (Draft.abck .lFalseSkip reg 0 0 0).fits = true := Draft.fits_abck.2 (by omega)
  have h₂ : (Draft.abck .loadTrue reg 0 0 0).fits = true := Draft.fits_abck.2 (by omega)
  have hs := h.sound.pushBools (Draft.opcode?_word (.abck .lFalseSkip reg 0 0 0))
    (Draft.opcode?_word (.abck .loadTrue reg 0 0 0)) (Draft.get_abck h₁).1 (Draft.get_abck h₂).1 hr
      hl
    hlive
  refine ⟨(h.base.mark.emit h₁ (Draft.refers_of_free rfl)).mark.emit h₂ (Draft.refers_of_free rfl),
    ?_, ?_⟩
  · simp only [State.view_emit, State.view_mark, State.lateLoad_emit, State.lateLoad_mark,
      State.waiting_emit,
      State.waiting_mark]
    exact hs
  · simp only [State.openLists_emit, State.openLists_mark, State.waiting_emit, State.waiting_mark]
    exact h.held

/-- What is true after the loads for jumps without a value, if there are such jumps. -/
inductive Bools (P : List Pending) (base m : Nat) (T E : List Nat) (live : Nat → Prop) (s : State) :
    Option Nat × Option Nat → State → Prop
  | unneeded {s' : State} (h : Inv P none live s') (hc : s'.fn.code = s.fn.code)
    (hT : Valued s.fn.code T)
    (hE : Valued s.fn.code E) : Bools P base m T E live s (none, none) s'
  | loaded {s' : State} {f t : Nat}
    (h : Inv (.target t base :: .target f base :: P) none (· < m) s') :
    Bools P base m T E live s (some f, some t) s'

theorem loadBools_rest {ms : List Nat} {m : Nat} {s₀ : State}
    (h : Inv (.list ms m :: P) none (· < base) s)
    (hr : reg < s.fn.maxStack) (hm : ∀ r < m, r < base ∨ r = reg) :
    Via Coded (do
      let ifFalse ← loadBool reg .lFalseSkip
      let ifTrue ← loadBool reg .loadTrue
      patchToHere ms.head?
      return (some ifFalse, some ifTrue)) s fun p s' => Bools P base m T E live s₀ p s' := by
  refine Via.next (Via.next (Via.discard (Via.markTarget (Via.emit ?_))))
  refine Via.next (Via.next (Via.discard (Via.markTarget (Via.emit ?_))))
  have hsize : (s.mark.emit (.abck .lFalseSkip reg 0 0 0)).mark.fn.code.size = s.fn.code.size +
      1 := by
    simp [State.emit, State.mark]
  -- the list of the jump past the loads comes to the front
  have hp : List.Perm (.list ms m :: .target (s.fn.code.size + 1) base ::
      .target s.fn.code.size base :: P)
      (.target (s.fn.code.size + 1) base :: .target s.fn.code.size base :: .list ms m :: P) :=
    (@List.perm_middle _ _ [_, _] P).symm
  have hb := (h.bools hr (fun r hr => hr) hm).perm hp
  refine Via.bind (patchToHere_spec hb fun r hr => hr) ?_
  rintro _ s' - ⟨hi, -, -⟩
  rw [hsize]
  exact Via.pure (.loaded hi)

theorem loadBools_needed {m : Nat} {s₀ : State} (h : Inv P none live s) (hr : reg < s.fn.maxStack)
    (hl : ∀ r < base, live r) (hb : base ≤ 255) (hm : ∀ r < m, r < base ∨ r = reg)
    (hlive : (∀ pc, e.kind ≠ .jump pc) → ∀ r < m, live r) :
    Via Coded (do
      let past ← match e.kind with
        | .jump _ => Pure.pure none
        | _ => some <$> jump
      let ifFalse ← loadBool reg .lFalseSkip
      let ifTrue ← loadBool reg .loadTrue
      patchToHere past
      return (some ifFalse, some ifTrue)) s fun p s' => Bools P base m T E live s₀ p s' := by
  cases hk : e.kind with
  | jump pc =>
    refine Via.next (Via.pure ?_)
    exact loadBools_rest ((h.weaken hl).addNil m) hr hm
  | _ =>
    refine Via.next (Via.map (Via.jump ?_))
    refine @loadBools_rest _ _ _ live _ _ _ [s.fn.code.size] m _ (h.jump (hlive ?_) fun r hr' => ?_)
      hr hm
    · intro pc
      rw [hk]
      simp
    · omega

theorem loadBools_spec {m : Nat} (hT : e.whenTrue = T.head?) (hE : e.whenFalse = E.head?)
    (h : Inv P none live s) (hTP : .list T base ∈ P) (hEP : .list E base ∈ P)
    (hr : reg < s.fn.maxStack) (hl : ∀ r < base, live r) (hb : base ≤ 255)
    (hm : ∀ r < m, r < base ∨ r = reg) (hlive : (∀ pc, e.kind ≠ .jump pc) → ∀ r < m, live r) :
    Via Coded (loadBools e reg) s fun p s' => Bools P base m T E live s p s' := by
  unfold loadBools
  rw [hT, hE]
  refine Via.bind (needsValue_spec h hTP) ?_
  rintro b _ - ⟨rfl, hnT⟩
  cases b with
  | true =>
    refine Via.next (Via.pure ?_)
    exact loadBools_needed (h.use _) hr hl hb hm hlive
  | false =>
    refine Via.bind (needsValue_spec (h.use _) hEP) ?_
    rintro b' _ - ⟨rfl, hnE⟩
    cases b' with
    | true => exact loadBools_needed ((h.use _).use _) hr hl hb hm hlive
    | false => exact Via.pure (.unneeded ((h.use _).use _) rfl (hnT rfl) (hnE rfl))

end

end Compile

end LuaChunk
