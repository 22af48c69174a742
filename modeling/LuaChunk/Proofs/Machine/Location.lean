import LuaChunk.Proofs.Machine.Emission

set_option autoImplicit false

namespace LuaChunk

/-- What can be read, and assigned to unless it is just a value. -/
inductive Loc (V : Type) where
  | reg (r : Nat)
  | up (i : Nat)
  | cell (table key : V)
  | const (v : V)

namespace Loc

variable {V H : Type} (W : World V H) (m : Machine V H)

def read : Loc V → Option V
  | reg r => some (m.reg r)
  | up i => some (m.up i)
  | cell table key => W.get m.heap table key
  | const v => some v

def write (v : V) : Loc V → Option (Machine V H)
  | reg r => some (m.setReg r v)
  | up i => some (m.setUp i v)
  | cell table key => (W.set m.heap table key v).map fun heap => { m with heap }
  | const _ => none

end Loc

namespace Compile

def Variable.constant (v : Variable) : Value :=
  match v.value with
  | .unknown _ => .nil
  | c => c

section

variable {V H : Type} (W : World V H)

open Machine (step)

/-- What an expression stands for, unless the code for it is not complete. -/
def ExpKind.loc? (s : State) : ExpKind → Option (Machine V H → Loc V)
  | .nil => some fun _ => .const (W.const .nil)
  | .true_ => some fun _ => .const (W.const (.bool true))
  | .false_ => some fun _ => .const (W.const (.bool false))
  | .int n => some fun _ => .const (W.const (.num (.int n)))
  | .float x => some fun _ => .const (W.const (.num (.float x)))
  | .str t => some fun _ => .const (W.const (.str t))
  | .konst k => (s.fn.pool.values[k.index]?).map fun v _ => .const (W.const v)
  | .inReg r => some fun m => .const (m.reg r)
  | .localVar r _ => some fun _ => .reg r
  | .upvalue i => some fun _ => .up i
  | .constVar i => (s.vars[i]?).map fun v _ => .const (W.const v.constant)
  | .indexed t k _ => some fun m => .cell (m.reg t) (m.reg k)
  | .indexUp t k _ => (s.fn.pool.values[k.index]?).map fun v m => .cell (m.up t) (W.const v)
  | .indexInt t k => some fun m => .cell (m.reg t) (W.const (.num (.int (Int64.ofNat k))))
  | .indexStr t k _ => (s.fn.pool.values[k.index]?).map fun v m => .cell (m.reg t) (W.const v)
  | _ => none

/-- The code since `s₀` finds what an expression stands for: `L` gives it, with the machine by then.
The result register of an instruction may be open still; it may be any that `P` allows. -/
inductive Denotes (s₀ s : State) (P : Nat → Prop) : ExpKind →
    (Machine V H → Option (Machine V H × Loc V)) → Prop
  | here {kind : ExpKind} {L : Machine V H → Option (Machine V H × Loc V)}
    {g : Machine V H → Option (Machine V H)}
    {loc : Machine V H → Loc V} (hk : kind.loc? W s = some loc) (h : Effect W s₀ s g)
    (hL : ∀ m, L m = (g m).map fun m' => (m', loc m')) : Denotes s₀ s P kind L
  | opened {pc : Nat} {L : Machine V H → Option (Machine V H × Loc V)}
    {f : Machine V H → Option (Machine V H × V)}
    (h : ∀ q ≤ 255, P q → Effect W s₀ (s.setAt pc [(.a, q)]) fun m => (f m).map fun p =>
    p.1.setReg q p.2)
    (hL : ∀ m, L m = (f m).map fun p => (p.1, .const p.2)) : Denotes s₀ s P (.relocatable pc) L

def reading (L : Machine V H → Option (Machine V H × Loc V)) (m : Machine V H) :
    Option (Machine V H × V) :=
  (L m).bind fun p => (p.2.read W p.1).map fun v => (p.1, v)

def settling (L : Machine V H → Option (Machine V H × Loc V)) (m : Machine V H) :
    Option (Machine V H × Loc V) :=
  (reading W L m).map fun p => (p.1, .const p.2)

end

variable {V H : Type} {W : World V H} {F : List Pending} {base : Nat} {kind : ExpKind}
  {s₀ s₁ s s' : State} {P : Nat → Prop}
  {L : Machine V H → Option (Machine V H × Loc V)} {g : Machine V H → Option (Machine V H)}

open Machine (step)

theorem Via.and {R : State → State → Prop} {α : Type} {m : M α} {Q Q' : α → State → Prop}
    (h : Via R m s Q) (h' : Via R m s Q') :
    Via R m s fun a s' => Q a s' ∧ Q' a s' := by
  unfold Via at h h' ⊢
  cases hm : m s with
  | ok a s' =>
    rw [hm] at h h'
    exact ⟨h.1, h.2, h'.2⟩
  | error e s' =>
    rw [hm] at h
    exact h

@[simp] theorem reading_settling (m : Machine V H) :
    reading W (settling W L) m = reading W L m := by
  show (settling W L m).bind _ = _
  unfold settling
  cases reading W L m <;> rfl

theorem ExpKind.loc?_ofValue (v : Variable) :
    (ExpKind.ofValue v.value).loc? W s = some fun _ => .const (W.const v.constant) := by
  unfold Variable.constant
  cases v.value with
  | bool b => cases b <;> rfl
  | num n => cases n <;> rfl
  | nil | str | unknown => rfl

theorem ExpKind.loc?_settled {loc : Machine V H → Loc V} (hk : kind.loc? W s = some loc)
    (hs : kind.isSettled = true)
    (m : Machine V H) : ∃ v, loc m = .const v := by
  cases kind with
  | konst k =>
    obtain ⟨v, -, rfl⟩ := Option.map_eq_some_iff.1 hk
    exact ⟨_, rfl⟩
  | nil | true_ | false_ | int | float | str | inReg =>
    cases hk
    exact ⟨_, rfl⟩
  | jump | relocatable => cases hk
  | _ => cases hs

theorem ExpKind.loc?_mono {loc : Machine V H → Loc V} (hk : kind.loc? W s = some loc)
    (hv : s'.vars = s.vars)
    (hp : ∀ (k : Nat) (v : Value), s.fn.pool.values[k]? = some v → s'.fn.pool.values[k]? = some v) :
    kind.loc? W s' = some loc := by
  cases kind with
  | konst k | indexUp _ k _ | indexStr _ k _ =>
    obtain ⟨v, hk', rfl⟩ := Option.map_eq_some_iff.1 hk
    exact Option.map_eq_some_iff.2 ⟨v, hp _ v hk', rfl⟩
  | constVar i =>
    obtain ⟨v, hi, rfl⟩ := Option.map_eq_some_iff.1 hk
    exact Option.map_eq_some_iff.2 ⟨v, by rw [hv]; exact hi, rfl⟩
  | _ => exact hk

namespace Denotes

theorem congr {L' : Machine V H → Option (Machine V H × Loc V)} (h : Denotes W s₀ s P kind L)
    (hL : ∀ m, L m = L' m) :
    Denotes W s₀ s P kind L' := by
  rw [← funext hL]
  exact h

theorem after (h : Effect W s₀ s₁ g) (hd : Denotes W s₁ s P kind L) : Denotes W s₀ s P kind fun m =>
    (g m).bind L := by
  cases hd with
  | here hk h' hL =>
    refine .here hk (h.trans h') fun m => ?_
    rw [Option.map_bind]
    exact Option.bind_congr fun m' _ => hL m'
  | @opened _ _ f h' hL =>
    refine .opened (f := fun m => (g m).bind f)
      (fun q hq hP => (h.trans (h' q hq hP)).congr fun m => ?_) fun m => ?_
    · rw [Option.map_bind]
      rfl
    · rw [Option.map_bind]
      exact Option.bind_congr fun m' _ => hL m'

theorem settling_eq (h : Denotes W s₀ s P kind L) (hs : kind.isSettled = true) (m : Machine V H) :
    settling W L m = L m := by
  unfold settling reading
  cases h with
  | @here _ _ g loc hk h hL =>
    rw [hL m]
    cases g m with
    | none => rfl
    | some m' =>
      obtain ⟨v, hv⟩ := ExpKind.loc?_settled hk hs m'
      simp [hv, Loc.read]
  | @opened _ _ f h hL =>
    rw [hL m]
    cases f m <;> rfl

theorem settled (h : Denotes W s₀ s P kind L) (hs : kind.isSettled = true) :
    Denotes W s₀ s P kind (settling W L) :=
  h.congr fun m => (h.settling_eq hs m).symm

theorem still (h : Denotes W s₀ s P kind L) (hc : s'.fn.code = s.fn.code)
    (hl : s'.fn.lastTarget = s.fn.lastTarget)
    (hv : s'.vars = s.vars)
    (hp : ∀ (k : Nat) (v : Value), s.fn.pool.values[k]? = some v → s'.fn.pool.values[k]? = some v) :
    Denotes W s₀ s' P kind L := by
  cases h with
  | here hk h hL => exact .here (ExpKind.loc?_mono hk hv hp) (h.andStill hc hl hp) hL
  | opened h hL =>
    exact .opened (fun q hq hP => (h q hq hP).andStill (by simp [State.setAt, hc]) hl hp) hL

theorem emitOpen {op : Opcode} {b c : Nat} {meant : List Value} {loc : Machine V H → Loc V}
    (h : Effect W s₀ s g)
    (hL : ∀ m, L m = (g m).map fun m' => (m', loc m')) (hf : b ≤ 255 ∧ c ≤ 255) (hop : op ≠ .loadKX)
    (hload : ∀ (K : Array Value) (w : Instruction) (m : Machine V H), s.PoolIn K →
    w.opcode? = some op → w.b = b → w.c = c →
      step W K m w none = ((loc m).read W m).map (m.setReg w.a)) :
    Denotes W s₀ (s.emit (.abck op 0 b c 0) meant) P (.relocatable s.fn.code.size)
      (settling W L) := by
  refine .opened (f := reading W L) (fun q hq _ => ?_) fun _ => rfl
  have hstep : Effect W s ((s.emit (.abck op 0 b c 0) meant).setAt s.fn.code.size [(.a, q)])
      fun m => ((loc m).read W m).map (m.setReg q) :=
    Effect.emitOpen hf hq hop fun K w m hK hw ha hb hc => by rw [hload K w m hK hw hb hc, ha]
  refine (h.trans hstep).congr fun m => ?_
  unfold reading
  rw [hL m]
  cases g m with
  | none => rfl
  | some m' => simp [Function.comp_def]

end Denotes

theorem dischargeVars_denotes (h : Val F base ⟨kind, none, none⟩ s) (hd : Denotes W s₀ s P kind L) :
    Via Keeps (dischargeVars ⟨kind, none, none⟩) s fun e' s' =>
      Denotes W s₀ s' P e'.kind (settling W L) := by
  have hroom := h.room
  have hle := h.base_le
  have hstack := h.maxStack_le
  have hups := h.toBase.upvalues_le
  have hp := h.place
  have hl := h.low
  by_cases hs : kind.isSettled = true
  · rw [dischargeVars_settled hs]
    exact Via.pure (hd.settled hs)
  cases hd with
  | opened => exact absurd rfl hs
  | @here _ _ g loc hk hg hL =>
    unfold dischargeVars
    cases kind with
    | constVar i =>
      obtain ⟨v, hi, rfl⟩ := Option.map_eq_some_iff.1 hk
      obtain ⟨-, w, hw, -⟩ := hp
      refine Via.next (Via.variableAt (Array.getElem?_eq_some_iff.1 hi).1 fun w hw => Via.pure ?_)
      cases hi.symm.trans hw
      refine .here (ExpKind.loc?_ofValue v) hg fun m => ?_
      unfold settling reading
      rw [hL m]
      cases g m <;> rfl
    | localVar r i =>
      cases hk
      refine Via.pure (.here rfl hg fun m => ?_)
      unfold settling reading
      rw [hL m]
      cases g m <;> rfl
    | upvalue i =>
      cases hk
      obtain ⟨hf, hi⟩ := hp
      refine Via.map
        (Via.emit (.emitOpen hg hL ⟨by omega, by omega⟩ (by simp) fun K w m _ hw hb _ => ?_))
      simp only [step, hw, hb, Loc.read, Option.map_some]
    | indexUp t k a =>
      obtain ⟨v, hv, rfl⟩ := Option.map_eq_some_iff.1 hk
      obtain ⟨hf, ht, ⟨hkey, -⟩, -⟩ := hp
      refine Via.map
        (Via.emit (.emitOpen hg hL ⟨by omega, by omega⟩ (by simp) fun K w m hK hw hb hc => ?_))
      simp only [step, hw, hb, hc, Loc.read, hK.constant hv, Option.bind_eq_bind, Option.bind_some,
        Option.map_eq_bind]
      rfl
    | indexInt t k =>
      cases hk
      obtain ⟨hs', hkey⟩ := hp
      have ht := hs'.lt hl
      refine Via.next (Via.freeSlot h.toBase hl hs' ?_)
      have hg' : Effect W s₀ (s.setFree base) g := hg.andStill rfl rfl fun _ _ h => h
      refine Via.map
        (Via.emit (.emitOpen hg' hL ⟨by omega, by omega⟩ (by simp) fun K w m _ hw hb hc => ?_))
      simp only [step, hw, hb, hc, Loc.read]
    | indexStr t k a =>
      obtain ⟨v, hv, rfl⟩ := Option.map_eq_some_iff.1 hk
      obtain ⟨hs', ⟨hkey, -⟩, -⟩ := hp
      have ht := hs'.lt hl
      refine Via.next (Via.freeSlot h.toBase hl hs' ?_)
      have hg' : Effect W s₀ (s.setFree base) g := hg.andStill rfl rfl fun _ _ h => h
      refine Via.map
        (Via.emit (.emitOpen hg' hL ⟨by omega, by omega⟩ (by simp) fun K w m hK hw hb hc => ?_))
      have hv' : Machine.constant W K k.index = some (W.const v) :=
        State.PoolIn.constant (s := s) hK hv
      simp only [step, hw, hb, hc, Loc.read, hv', Option.bind_eq_bind, Option.bind_some,
        Option.map_eq_bind]
      rfl
    | indexed t k a =>
      cases hk
      obtain ⟨h₁, h₂⟩ := hp.1.lt hl
      refine Via.next (Via.freeSlots h.toBase hl hp.1 ?_)
      have hg' : Effect W s₀ (s.setFree base) g := hg.andStill rfl rfl fun _ _ h => h
      refine Via.map
        (Via.emit (.emitOpen hg' hL ⟨by omega, by omega⟩ (by simp) fun K w m _ hw hb hc => ?_))
      simp only [step, hw, hb, hc, Loc.read]
    | void | call | vararg => cases hk
    | _ => exact absurd rfl hs

variable {reg : Nat} {live : Nat → Prop}

theorem addConstant_load {key : PoolKey} {c : Value} (hr : reg ≤ 255) (hb : Base s)
    (hc : ∀ tag, c ≠ .unknown tag) :
    Via Coded (do emitK reg (← addConstant key c)) s fun _ s' => Effect W s s' fun m =>
      some (m.setReg reg (W.const c)) := by
  refine Via.next (Via.addConstant hb hc fun k p logs hp hk => ?_)
  obtain ⟨w, hw, hsame⟩ := hk
  refine (emitK_effect (W := W) (s := s.setPool p logs) hr hw hp.size).mono fun _ s' _ he => ?_
  have hpool : Effect W s (s.setPool p logs) some := .still rfl rfl hp.grows
  rw [W.const_of_same hsame] at he
  exact (hpool.trans he).congr fun m => rfl

theorem loadInt_effect {n : Int64} (hr : reg ≤ 255) (hb : Base s) :
    Via Coded (loadInt reg n) s fun _ s' => Effect W s s' fun m =>
      some (m.setReg reg (W.const (.num (.int n)))) := by
  unfold loadInt
  refine Via.ite (fun hf => ?_) fun _ => addConstant_load hr hb (by simp)
  simp only [fitsSBx, Bool.and_eq_true, decide_eq_true_eq, Int64.le_iff_toInt_le] at hf
  have hd : (Draft.asbx .loadI reg n.toInt).fits = true := Draft.fits_asbx.2 ⟨hr, hf.1, hf.2⟩
  have hw : (Draft.asbx .loadI reg n.toInt).word.opcode? = some .loadI := Draft.opcode?_word _
  refine Via.discard (Via.emit (.push rfl (by rw [hw]; simp) rfl fun K m _ => ?_))
  simp only [step, hw, Draft.get_asbx hd, Draft.sbx_asbx hd, Int64.ofInt_toInt]

theorem loadFloat_effect {x : Double} (hr : reg ≤ 255) (hb : Base s) :
    Via Coded (loadFloat reg x) s fun _ s' => Effect W s s' fun m =>
      some (m.setReg reg (W.const (.num (.float x)))) := by
  unfold loadFloat
  dsimp only
  split
  · rename_i n hn
    obtain ⟨hx, hf⟩ : Binary64.toInt64? x = some n ∧ fitsSBx n = true := by
      split at hn
      · split at hn
        · cases hn
          exact ⟨‹_›, ‹_›⟩
        · cases hn
      · cases hn
    simp only [fitsSBx, Bool.and_eq_true, decide_eq_true_eq, Int64.le_iff_toInt_le] at hf
    have hd : (Draft.asbx .loadF reg n.toInt).fits = true := Draft.fits_asbx.2 ⟨hr, hf.1, hf.2⟩
    have hw : (Draft.asbx .loadF reg n.toInt).word.opcode? = some .loadF := Draft.opcode?_word _
    refine Via.next (Via.noteFloat (Via.discard (Via.emit ?_)))
    refine Effect.push rfl (by rw [hw]; simp) rfl fun K m _ => ?_
    simp only [step, hw, Draft.get_asbx hd, Draft.sbx_asbx hd, W.const_ofInt hx]
  · exact addConstant_load hr hb (by simp)

theorem dischargeTo_effect (hi : Inv F kind.opened live s) (hr : reg < s.fn.maxStack)
    (hs : kind.isSettled = true)
    (hsmall : ∀ r, kind = .inReg r → r ≤ 255) (hd : Denotes W s₀ s P kind L) (hP : P reg) :
    Via Coded (dischargeTo ⟨kind, none, none⟩ reg) s fun e' s' => e' = .inReg reg ∧
      Effect W s₀ s' fun m => (reading W L m).map fun p => p.1.setReg reg p.2 := by
  have hb := hi.base
  have hstack := hi.maxStack_le
  have hr' : reg ≤ 255 := by omega
  unfold dischargeTo
  rw [dischargeVars_settled hs, pure_bind]
  cases hd with
  | @opened pc _ f h hL =>
    refine Via.next (Via.setAt hi.openLt (Via.pure ⟨rfl, (h reg hr' hP).congr fun m => ?_⟩))
    unfold reading
    rw [hL m]
    cases f m <;> rfl
  | @here _ _ g loc hk hg hL =>
    have hread : ∀ {v : Machine V H → V}, (∀ m, loc m = .const (v m)) →
        ∀ m, ((g m).bind fun m' => some (m'.setReg reg (v m'))) = (reading W L m).map fun p =>
          p.1.setReg reg p.2 := by
      intro v hv m
      unfold reading
      rw [hL m]
      cases g m with
      | none => rfl
      | some m' => simp [hv, Loc.read]
    -- anything but an instruction with an open result register is loaded by code of its own
    have hload : ∀ {m : M Unit} {v : Machine V H → V}, (∀ m, loc m = .const (v m)) →
        Via Coded m s (fun _ s' => Effect W s s' fun m => some (m.setReg reg (v m))) →
        Via Coded (m >>= fun _ => Pure.pure (Exp.mk (.inReg reg) none none)) s fun e' s' =>
          e' = .inReg reg ∧
          Effect W s₀ s' fun m => (reading W L m).map fun p => p.1.setReg reg p.2 :=
      fun hv hm => Via.bind hm fun _ s' _ he => Via.pure ⟨rfl, (hg.trans he).congr (hread hv)⟩
    cases kind with
    | nil =>
      cases hk
      refine hload (fun _ => rfl) (Via.loadNil ?_)
      have hnil : Inv _ none live (s.loadNil reg 1) :=
        Inv.loadNil hi (by omega) (by omega) fun r hr => .inl hr
      refine (Effect.loadNil hnil.base.fits (by omega) (by omega)).congr fun m => ?_
      rw [Nat.add_sub_cancel, Machine.fill_one]
    | false_ =>
      cases hk
      refine hload (fun _ => rfl)
        (Via.discard (Via.emit (.emitABC (by omega) (by simp) fun K w m _ hw ha _ _ _ => ?_)))
      simp only [step, hw, ha]
    | true_ =>
      cases hk
      refine hload (fun _ => rfl)
        (Via.discard (Via.emit (.emitABC (by omega) (by simp) fun K w m _ hw ha _ _ _ => ?_)))
      simp only [step, hw, ha]
    | int n =>
      cases hk
      exact hload (fun _ => rfl) (loadInt_effect hr' hb)
    | float x =>
      cases hk
      exact hload (fun _ => rfl) (loadFloat_effect hr' hb)
    | str t =>
      cases hk
      have hk := hload (m := do emitK reg (← stringK t)) (fun _ => rfl)
        (addConstant_load hr' hb (by simp))
      rwa [bind_assoc] at hk
    | konst k =>
      obtain ⟨v, hv, rfl⟩ := Option.map_eq_some_iff.1 hk
      exact hload (fun _ => rfl) (emitK_effect hr' hv hb.pool)
    | inReg r =>
      cases hk
      refine Via.ite (fun _ => hload (fun _ => rfl) ?_) fun he => ?_
      · have hle := hsmall r rfl
        refine Via.discard (Via.emit (.emitABC (by omega) (by simp) fun K w m _ hw ha hb _ _ => ?_))
        simp only [step, hw, ha, hb]
      · obtain rfl : r = reg := Decidable.not_not.1 he
        refine Via.pure ⟨rfl, hg.congr fun m => ?_⟩
        rw [← hread (v := fun m => m.reg r) fun _ => rfl]
        simp only [Machine.setReg_self, Option.bind_fun_some]
    | jump | relocatable => cases hk
    | _ => cases hs

theorem toRegister_effect (hi : Inv F kind.opened live s) (hr : reg < s.fn.maxStack)
    (hs : kind.isSettled = true)
    (hsmall : ∀ r, kind = .inReg r → r ≤ 255) (hd : Denotes W s₀ s P kind L) (hP : P reg) :
    Via Coded (toRegister ⟨kind, none, none⟩ reg) s fun _ s' =>
      Effect W s₀ s' fun m => (reading W L m).map fun p => p.1.setReg reg p.2 := by
  unfold toRegister
  refine Via.bind (dischargeTo_effect hi hr hs hsmall hd hP) ?_
  rintro e s' - ⟨rfl, he⟩
  exact Via.next (Via.pure (Via.ite (fun hj => nomatch hj) fun _ => Via.pure he))

theorem Val.inReg_le {e : Exp} (h : Val F base e s) (r : Nat) (hk : e.kind = .inReg r) :
    r ≤ 255 := by
  have hp := h.place
  rw [hk] at hp
  have hlt := hp.1.lt h.low
  have hroom := h.room
  have hstack := h.maxStack_le
  omega

theorem toNextRegister_effect (h : Val F base ⟨kind, none, none⟩ s) (hd : Denotes W s₀ s P kind L)
    (hP : P base) :
    Via Keeps (toNextRegister ⟨kind, none, none⟩) s fun _ s' =>
      Effect W s₀ s' fun m => (reading W L m).map fun p => p.1.setReg base p.2 := by
  unfold toNextRegister
  refine Via.bind ((dischargeVars_spec h).and (dischargeVars_denotes h hd)) ?_
  rintro ⟨kind', T, E⟩ s₁ - ⟨⟨h₁, hs, ⟨rfl, rfl⟩, -⟩, hd₁⟩
  refine Via.bind (freeExp_spec h₁ hs) ?_
  rintro _ _ - rfl
  refine Via.next (Via.reserve h₁.maxStack_le fun n hn hbn hn' => ?_)
  refine Via.next (Via.freeReg ?_)
  have hi : Inv (kind'.ownJump base ++ F) kind'.opened (· < s₁.fn.freeReg)
      ((s₁.raise n).setFree (base + 1)) :=
    ((h₁.plain rfl rfl).raise hn hn').setFree hbn
  have hd₂ : Denotes W s₀ ((s₁.raise n).setFree (base + 1)) P kind' (settling W L) :=
    hd₁.still rfl rfl rfl fun _ _ h => h
  refine Via.bind ((toRegister_effect hi hbn hs h₁.inReg_le hd₂ hP).weaken fun _ h => h.toKeeps) ?_
  rintro _ s₂ - he
  refine Via.pure (he.congr fun m => ?_)
  rw [reading_settling]
  rfl

/-- A value is in a register; registers from `base` on may have changed. -/
def InReg (W : World V H) (s₀ s : State) (base r : Nat)
    (f : Machine V H → Option (Machine V H × V)) : Prop :=
  ∃ g, Effect W s₀ s g ∧ ∀ m, Option.Rel (fun p m' => p.1.Same base m' ∧ m'.reg r = p.2) (f m) (g m)

theorem toAnyRegister_effect (h : Val F base ⟨kind, none, none⟩ s) (hd : Denotes W s₀ s P kind L)
    (hP : P base) :
    Via Keeps (toAnyRegister ⟨kind, none, none⟩) s fun r s' =>
      InReg W s₀ s' base r (reading W L) := by
  have hnext : ∀ {kind : ExpKind} {s : State}, Val F base ⟨kind, none, none⟩ s →
      Denotes W s₀ s P kind (settling W L) →
      Via Keeps (toNextRegister ⟨kind, none, none⟩) s fun r s' =>
        InReg W s₀ s' base r (reading W L) := by
    intro kind s h hd
    refine ((toNextRegister_spec h).and (toNextRegister_effect h hd hP)).mono ?_
    rintro r s' - ⟨⟨rfl, -⟩, he⟩
    refine ⟨_, he, fun m => ?_⟩
    rw [reading_settling]
    exact .self_map fun p => ⟨.setReg (Nat.le_refl _), Machine.setReg_same⟩
  unfold toAnyRegister
  refine Via.bind ((dischargeVars_spec h).and (dischargeVars_denotes h hd)) ?_
  rintro ⟨kind', T, E⟩ s₁ - ⟨⟨h₁, hs, ⟨rfl, rfl⟩, -⟩, hd₁⟩
  cases kind' with
  | inReg r =>
    refine Via.ite (fun _ => Via.pure ?_) fun hj => absurd rfl hj
    cases hd₁ with
    | @here _ _ g loc hk hg hL =>
      cases hk
      refine ⟨g, hg, fun m => ?_⟩
      rw [← reading_settling]
      unfold reading
      rw [hL m]
      cases g m with
      | none => exact .none
      | some m' => exact .some ⟨.refl _ _, rfl⟩
  | _ => exact hnext h₁ hd₁

def InPool (W : World V H) (s₀ s : State) (n : Nat) (f : Machine V H → Option (Machine V H × V)) :
    Prop :=
  ∃ v g, s.fn.pool.values[n]? = some v ∧ Effect W s₀ s g ∧ ∀ m, f m = (g m).map fun m' =>
    (m', W.const v)

theorem Denotes.inPool {n : Nat} {c v : Value} (hd : Denotes W s₀ s P kind L)
    (hk : kind.loc? W s = some fun _ => .const (W.const c)) (hv : s.fn.pool.values[n]? = some v)
    (hc : W.const v = W.const c) :
    InPool W s₀ s n (reading W L) := by
  cases hd with
  | @here _ _ g loc hk' hg hL =>
    cases hk.symm.trans hk'
    refine ⟨v, g, hv, hg, fun m => ?_⟩
    unfold reading
    rw [hL m, hc]
    cases g m <;> rfl
  | opened => cases hk

theorem toConstant?_effect (hb : Base s) (hd : Denotes W s₀ s P kind L) :
    Via Coded (toConstant? ⟨kind, none, none⟩) s fun k? s' => Denotes W s₀ s' P kind L ∧
      ∀ n, k? = some n → InPool W s₀ s' n.index (reading W L) := by
  unfold toConstant?
  refine Via.ite (fun hj => nomatch hj) fun _ => ?_
  -- a constant that is in the pool by now becomes an operand if its index is small
  have hpick : ∀ {n : PoolEntry} {s' : State}, Denotes W s₀ s' P kind L →
      InPool W s₀ s' n.index (reading W L) →
      Via Coded (Pure.pure (if n.index ≤ Instruction.maxB then some n else none)) s' fun k? s' =>
        Denotes W s₀ s' P kind L ∧
        ∀ n, k? = some n → InPool W s₀ s' n.index (reading W L) := by
    intro n s' hd hn
    refine Via.pure ⟨hd, fun k he => ?_⟩
    split at he
    · cases he
      exact hn
    · cases he
  have hadd : ∀ {key : PoolKey} {c : Value}, kind.loc? W s = some (fun _ => .const (W.const c)) →
      (∀ tag, c ≠ .unknown tag) →
      Via Coded (some <$> addConstant key c) s fun n? s' => ∃ n, n? = some n ∧
        Denotes W s₀ s' P kind L ∧
        InPool W s₀ s' n.index (reading W L) := by
    intro key c hk hc
    refine Via.map (Via.addConstant hb hc fun n p logs hp hn => ?_)
    obtain ⟨w, hw, hsame⟩ := hn
    have hd' : Denotes W s₀ (s.setPool p logs) P kind L := hd.still rfl rfl rfl hp.grows
    exact ⟨⟨n, c⟩, rfl, hd', hd'.inPool (ExpKind.loc?_mono hk rfl hp.grows) hw
      (W.const_of_same hsame)⟩
  cases kind with
  | konst k =>
    refine Via.next (Via.pure (hpick hd ?_))
    cases hd with
    | here hk hg hL =>
      obtain ⟨v, hv, rfl⟩ := Option.map_eq_some_iff.1 hk
      exact Denotes.inPool (P := P) (.here hk hg hL) hk hv rfl
  | nil | true_ | false_ | int | float | str =>
    refine Via.bind (hadd rfl (by simp)) ?_
    rintro n? s' - ⟨n, rfl, hd', hn⟩
    exact hpick hd' hn
  | _ => exact Via.pure ⟨hd, by simp⟩

/-- The value of an operand. -/
def Operand.value (W : World V H) (s : State) (m : Machine V H) : Operand → Option V
  | .konst n => (s.fn.pool.values[n.index]?).map W.const
  | .reg r => some (m.reg r)

/-- An operand has the value; registers from `base` on may have changed. -/
def IsOperand (W : World V H) (s₀ s : State) (base : Nat) (o : Operand)
    (f : Machine V H → Option (Machine V H × V)) : Prop :=
  ∃ g, Effect W s₀ s g ∧ ∀ m,
    Option.Rel (fun p m' => p.1.Same base m' ∧ o.value W s m' = some p.2) (f m) (g m)

theorem toOperand_effect (h : Val F base ⟨kind, none, none⟩ s) (hd : Denotes W s₀ s P kind L)
    (hP : P base) :
    Via Keeps (toOperand ⟨kind, none, none⟩) s fun o s' =>
      IsOperand W s₀ s' base o (reading W L) := by
  unfold toOperand
  refine Via.bind (((toConstant?_spec h).and (toConstant?_effect h.toBase hd)).weaken fun _ h =>
    h.toKeeps) ?_
  rintro k? s₁ - ⟨⟨h₁, -⟩, hd₁, hk⟩
  cases k? with
  | some n =>
    obtain ⟨v, g, hv, hg, hf⟩ := hk n rfl
    refine Via.pure ⟨g, hg, fun m => ?_⟩
    rw [hf m]
    cases g m with
    | none => exact .none
    | some m' => exact .some ⟨.refl _ _, by simp [Operand.value, hv]⟩
  | none =>
    refine Via.bind (toAnyRegister_effect h₁ hd₁ hP) ?_
    rintro r s₂ - ⟨g, hg, hf⟩
    exact Via.pure ⟨g, hg, fun m => (hf m).mono fun _ _ ⟨hs, hr⟩ => ⟨hs, congrArg some hr⟩⟩

theorem Loc.write_same {n : Nat} {m m' : Machine V H} (h : m.Same n m') (l : Loc V) (v : V) :
    Option.Rel (Machine.Same n) (l.write W m v) (l.write W m' v) := by
  cases l with
  | reg r => exact .some h.setReg_both
  | up i => exact .some ⟨h.reg, by simp only [Machine.setUp, h.up], h.heap⟩
  | cell table key =>
    simp only [Loc.write, h.heap]
    exact .map (.diag (R := (· = ·)) fun _ => rfl) fun _ _ he => ⟨h.reg, h.up, he.symm⟩
  | const => exact .none

theorem State.Target.loc_same {loc : Machine V H → Loc V} (ht : s.Target base kind)
    (hk : kind.loc? W s = some loc)
    {m m' : Machine V H} (h : m.Same base m') : loc m' = loc m := by
  cases kind with
  | localVar | upvalue =>
    cases hk
    rfl
  | indexUp t k a =>
    obtain ⟨v, -, rfl⟩ := Option.map_eq_some_iff.1 hk
    simp only [h.up]
  | indexInt t k =>
    cases hk
    simp only [h.reg t ht.1]
  | indexStr t k a =>
    obtain ⟨v, -, rfl⟩ := Option.map_eq_some_iff.1 hk
    simp only [h.reg t ht.1]
  | indexed t k a =>
    cases hk
    simp only [h.reg t ht.1, h.reg k ht.2]
  | _ => exact ht.elim

theorem activeRegisters_eq : activeRegisters s = match registersOf s.vars s.fn.firstVar s.fn.active
    with
    | some level => .ok level s
    | none => .error (.broken .indexInRange) s := by
  show registerLevel s.fn.active s = _
  show (match registersOf s.vars s.fn.firstVar s.fn.active with
    | some l => pure l
    | none => broken .indexInRange : M Nat) s = _
  cases registersOf s.vars s.fn.firstVar s.fn.active <;> rfl

theorem freeRegister_ok {r : Nat} (h : freeRegister r s = .ok () s') : ∃ n, s' = s.setFree n := by
  change EStateM.bind activeRegisters _ s = _ at h
  unfold EStateM.bind at h
  rw [activeRegisters_eq] at h
  cases hlevel : registersOf s.vars s.fn.firstVar s.fn.active with
  | none =>
    rw [hlevel] at h
    cases h
  | some level =>
    rw [hlevel] at h
    dsimp only at h
    split at h
    · change (if r + 1 = s.fn.freeReg then setFreeReg r else _ : M Unit) s = _ at h
      split at h
      · cases h
        exact ⟨r, rfl⟩
      · cases h
    · cases h
      exact ⟨s.fn.freeReg, rfl⟩

theorem freeExp_ok {e : Exp} (h : freeExp e s = .ok () s') : ∃ n, s' = s.setFree n := by
  unfold freeExp at h
  cases hr : e.register? with
  | some r =>
    rw [hr] at h
    exact freeRegister_ok h
  | none =>
    rw [hr] at h
    cases h
    exact ⟨s.fn.freeReg, rfl⟩

theorem Via.parts {R : State → State → Prop} {α β : Type} {m : M α} {f : α → M β}
    {A : α → State → Prop} {Q Q' : β → State → Prop}
    (h : Via R (m >>= f) s Q) (hm : Via R m s A)
    (hf : ∀ a s₁, R s s₁ → A a s₁ → ∀ b s', f a s₁ = .ok b s' → Q' b s') :
    Via R (m >>= f) s Q' := by
  unfold Via at h hm ⊢
  cases hr : m s with
  | error e s₁ =>
    have he : (m >>= f) s = .error e s₁ := by
      show EStateM.bind m f s = _
      unfold EStateM.bind
      rw [hr]
    rw [he] at h ⊢
    exact h
  | ok a s₁ =>
    rw [hr] at hm
    rw [bind_eq hr] at h ⊢
    cases hfa : f a s₁ with
    | error e s' =>
      rw [hfa] at h
      exact h
    | ok b s' =>
      rw [hfa] at h
      exact ⟨h.1, hf a s₁ hm.1 hm.2 b s' hfa⟩

variable {loc : Machine V H → Loc V}

theorem ExpKind.store?_step {op : Opcode} {a b : Nat} {meant : List Value}
    (h : kind.store? = some (op, a, b, meant)) (hk : kind.loc? W s = some loc)
    {K : Array Value} {w : Instruction} {m : Machine V H} (hK : s.PoolIn K)
    (hw : w.opcode? = some op) (ha : w.a = a) (hb : w.b = b) :
    step W K m w none = (Machine.operand W K m w).bind fun v => (loc m).write W m v := by
  cases kind with
  | indexInt t k | indexed t k =>
    cases h
    cases hk
    simp only [step, hw, ha, hb, Loc.write, Option.bind_eq_bind, Option.map_eq_bind]
    rfl
  | indexUp t k | indexStr t k =>
    obtain ⟨v, hv, rfl⟩ := Option.map_eq_some_iff.1 hk
    cases h
    simp only [step, hw, ha, hb, Loc.write, hK.constant hv, Option.bind_eq_bind, Option.bind_some,
      Option.map_eq_bind]
    rfl
  | _ => cases h

theorem storeUpvalue_effect {r i : Nat} (hl : s.level ≤ base) (hi : Inv F none (· < s.fn.freeReg) s)
    (hs : s.Slot base r)
    (hu : i < s.fn.upvalues.size) :
    Via Keeps (do
      discard (emitABC .setUpval r i 0)
      freeExp (.inReg r)) s fun _ s' => Effect W s s' fun m => some (m.setUp i (m.reg r)) := by
  have hlt := hs.lt hl
  have hroom := hi.room
  have hstack := hi.maxStack_le
  have hups := hi.base.upvalues_le
  refine Via.parts (A := fun _ s' => s' = s.emit (.abck .setUpval r i 0 0))
    (storeUpvalue_spec hl hi hs hu)
    (Via.discard (Via.emit rfl)) ?_
  rintro _ _ - rfl _ s' he
  obtain ⟨n, rfl⟩ := freeExp_ok he
  have hstore : Effect W s (s.emit (.abck .setUpval r i 0 0)) fun m =>
      some (m.setUp i (m.reg r)) := by
    refine .emitABC (by omega) (by simp) fun K w m _ hw ha hb _ _ => ?_
    simp only [step, hw, ha, hb]
  exact hstore.andStill rfl rfl fun _ _ h => h

theorem storeOperand_effect {o : Operand} {op : Opcode} {a b : Nat} {meant : List Value}
    (hl : s.level ≤ base)
    (hi : Inv F none (· < s.fn.freeReg) s) (hn : o.number ≤ 255) (hf : o.flag ≤ 1)
    (ho : s.Holding base o)
    (hop : StoresBelow op a b base s.fn.references meant)
    (hstore : kind.store? = some (op, a, b, meant))
    (hk : kind.loc? W s = some loc) :
    Via Keeps (do
      discard (emitABCk op a b o.number o.flag (meant ++ o.meant))
      freeExp o.toExp) s fun _ s' => Effect W s s' fun m => (o.value W s m).bind fun v =>
        (loc m).write W m v := by
  refine Via.parts (A := fun _ s' => s' = s.emit (.abck op a b o.number o.flag) (meant ++ o.meant))
    (storeOperand_spec hl hi hn hf ho hop)
    (Via.discard (Via.emit rfl)) ?_
  rintro _ _ - rfl _ s' he
  obtain ⟨n, rfl⟩ := freeExp_ok he
  have hx : op ≠ .loadKX := by
    rintro rfl
    cases kind <;> cases hstore
  have heffect : Effect W s (s.emit (.abck op a b o.number o.flag) (meant ++ o.meant)) fun m =>
      (o.value W s m).bind fun v => (loc m).write W m v := by
    refine .emitABC ⟨hop.small.1, hop.small.2, hn, hf⟩ hx fun K w m hK hw ha hb hc hflag => ?_
    rw [ExpKind.store?_step hstore hk hK hw ha hb]
    congr 1
    unfold Machine.operand
    rw [hc, hflag]
    cases o with
    | konst k =>
      have hv := Array.getElem?_eq_getElem ho.2.lt
      refine (if_pos rfl).trans ((hK.constant hv).trans ?_)
      show _ = (s.fn.pool.values[k.index]?).map W.const
      rw [hv]
      rfl
    | reg r => rfl
  exact heffect.andStill rfl rfl fun _ _ h => h

theorem storeRegister_effect {v : Exp} {r : Nat} (ht : s.Target base v.kind)
    (hk : v.kind.loc? W s = some loc) (hl : s.level ≤ base)
    (hi : Inv F none (· < s.fn.freeReg) s) (hs : s.Slot base r) :
    Via Keeps (storeTo v (.inReg r)) s fun _ s' => Effect W s s' fun m =>
      (loc m).write W m (m.reg r) := by
  have hlt := hs.lt hl
  have hle := hs.le
  have hroom := hi.room
  have hstack := hi.maxStack_le
  obtain ⟨q, i, hv, hq⟩ | ⟨i, hv, hu⟩ | ⟨op, a, b, meant, hstore, hop⟩ :=
    ht.cases (by omega) hi.base.upvalues_le
  · rw [hv] at hk
    cases hk
    rw [storeTo_local hv]
    show Via Keeps (freeRegister r >>= fun _ => toRegister (.inReg r) q) s _
    refine Via.next (Via.freeSlot hi.base hl hs ?_)
    have hd : Denotes W s (s.setFree base) (fun _ => True) (.inReg r) fun m =>
        some (m, .const (m.reg r)) :=
      .here rfl (.still rfl rfl fun _ _ h => h) fun _ => rfl
    have hi' : Inv F (ExpKind.inReg r).opened (· < s.fn.freeReg) (s.setFree base) :=
      hi.setFree (Nat.le_trans hle hroom)
    refine (toRegister_effect hi' (show q < s.fn.maxStack by omega) rfl ?_ hd trivial).weaken
      (fun _ h => h.toKeeps)
      |>.mono fun _ s' _ he => he.congr fun m => rfl
    rintro _ ⟨⟩
    omega
  · rw [hv] at hk
    cases hk
    rw [storeTo_upvalue hv, toAnyRegister_inReg]
    exact Via.next (Via.pure (storeUpvalue_effect hl hi hs hu))
  · rw [storeTo_field hstore]
    unfold emitWithOperand
    refine Via.next (Via.of_eq (show toOperand (.inReg r) s = .ok (.reg r) s from rfl)
      (Keeps.refl s) ?_)
    exact storeOperand_effect (o := .reg r) hl hi (show r ≤ 255 by omega) (Nat.zero_le _) hs hop
      hstore hk

/-- A value is stored where `loc` says; registers from `base` on may have changed. -/
def Stores (W : World V H) (s₀ s : State) (base : Nat) (loc : Machine V H → Loc V)
    (f : Machine V H → Option (Machine V H × V)) : Prop :=
  ∃ g, Effect W s₀ s g ∧ ∀ m,
    Option.Rel (Machine.Same base) ((f m).bind fun p => (loc p.1).write W p.1 p.2) (g m)

theorem storeTo_effect {v : Exp} (ht : s.Target base v.kind) (hk : v.kind.loc? W s = some loc)
    (h : Val F base ⟨kind, none, none⟩ s) (hd : Denotes W s₀ s P kind L) (hP : ∀ q, P q) :
    Via Keeps (storeTo v ⟨kind, none, none⟩) s fun _ s' =>
      Stores W s₀ s' base loc (reading W L) := by
  have hle := h.base_le
  have hlow := h.low
  have hroom := h.room
  have hstack := h.maxStack_le
  have hups := h.toBase.upvalues_le
  obtain ⟨r, i, hv, hr⟩ | ⟨i, hv, hi⟩ | ⟨op, a, b, meant, hstore, hop⟩ := ht.cases (by omega) hups
  · rw [hv] at hk
    cases hk
    rw [storeTo_local hv]
    have hstores : ∀ {s'}, Effect W s₀ s' (fun m => (reading W L m).map fun p => p.1.setReg r p.2) →
        Stores W s₀ s' base (fun _ => .reg r) (reading W L) := by
      refine fun he => ⟨_, he, fun m => ?_⟩
      cases reading W L m with
      | none => exact .none
      | some p => exact .some (.refl _ _)
    by_cases hs : kind.isSettled = true
    · refine Via.bind (freeExp_spec h hs) ?_
      rintro _ _ - rfl
      have hi : Inv (kind.ownJump base ++ F) kind.opened (· < s.fn.freeReg) (s.setFree base) :=
        (h.plain rfl rfl).setFree (Nat.le_trans hle hroom)
      have hd' : Denotes W s₀ (s.setFree base) P kind L := hd.still rfl rfl rfl fun _ _ h => h
      refine (toRegister_effect hi (show r < s.fn.maxStack by omega) hs h.inReg_le hd'
        (hP r)).weaken (fun _ h => h.toKeeps) |>.mono ?_
      exact fun _ s' _ he => hstores he
    · have hn : (Exp.mk kind none none).register? = none := by
        cases kind <;> first | rfl | exact absurd rfl hs
      unfold freeExp
      rw [hn]
      refine Via.next (Via.pure
        (Via.toRegister_of (((dischargeVars_spec h).and (dischargeVars_denotes h hd)).mono ?_)))
      rintro ⟨kind', T, E⟩ s₁ hk₁ ⟨⟨h₁, hs₁, ⟨rfl, rfl⟩, -⟩, hd₁⟩
      have hroom₁ := h₁.room
      have hlevel := hk₁.level
      have hle₁ := h₁.base_le
      refine ⟨hs₁, (toRegister_effect (h₁.plain rfl rfl) (by omega) hs₁ h₁.inReg_le hd₁
        (hP r)).weaken (fun _ h => h.toKeeps) |>.mono ?_⟩
      exact fun _ s' _ he => hstores (he.congr fun m => by rw [reading_settling])
  · rw [hv] at hk
    cases hk
    rw [storeTo_upvalue hv]
    refine Via.bind ((toAnyRegister_spec h).and (toAnyRegister_effect h hd (hP base))) ?_
    rintro r s₁ hk₁ ⟨h₁, g, hg, hf⟩
    refine (storeUpvalue_effect (W := W) h₁.low h₁.inv_inReg h₁.slot
      (Nat.lt_of_lt_of_le hi hk₁.upvalues)).mono ?_
    refine fun _ s' _ he => ⟨_, hg.trans he, fun m => (hf m).bind ?_⟩
    rintro p m' ⟨hsame, hr⟩
    rw [hr]
    exact Loc.write_same hsame (.up i) p.2
  · rw [storeTo_field hstore]
    unfold emitWithOperand
    refine Via.bind ((toOperand_spec h).and (toOperand_effect h hd (hP base))) ?_
    rintro o s₁ hk₁ ⟨⟨h₁, hn, hfl⟩, g, hg, hf⟩
    have hholds : s₁.Holding base o := by
      cases o with
      | konst n => exact h₁.place
      | reg r => exact h₁.slot
    refine (storeOperand_effect h₁.low h₁.operandInv hn hfl hholds (hop.mono hk₁.references) hstore
      (ExpKind.loc?_mono hk hk₁.vars hk₁.pool)).mono ?_
    refine fun _ s' _ he => ⟨_, hg.trans he, fun m => (hf m).bind ?_⟩
    rintro p m' ⟨hsame, hv⟩
    rw [hv, ht.loc_same hk hsame]
    exact Loc.write_same hsame _ _

end Compile

end LuaChunk
