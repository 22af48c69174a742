import LuaChunk.Proofs.Syntax.Growth
import LuaChunk.Proofs.Syntax.Grouping

set_option autoImplicit false

namespace LuaChunk

open Compile

/-- How many names, constants and operators a tree has. -/
def Tree.size : Tree → Nat
  | .unary _ t => t.size + 1
  | .binary _ l r => l.size + r.size + 1
  | _ => 1

/-- Few enough names, constants and operators that no jump is too long and the constants suffice. -/
def Tree.Small (t : Tree) : Prop := t.size < 262144

namespace Compile

variable {small : Prop} {α β : Type} {j k : Nat} {m : M α} {f : α → M β} {s s' c : State}
  {F : List Pending} {base : Nat} {e : Exp} {name : Bytes}

theorem State.Places.freeReg_le {kind : ExpKind} (h : s.Places base kind) :
    s.fn.freeReg ≤ base + 2 := by
  have hslot : ∀ {r}, s.Slot base r → s.fn.freeReg ≤ base + 1 := by
    rintro r (⟨-, h⟩ | ⟨-, h⟩) <;> omega
  cases kind with
  | void => cases h
  | inReg r => exact Nat.le_succ_of_le (hslot h.1)
  | indexed t k a =>
    rcases h.1 with ⟨-, h⟩ | ⟨-, h⟩ | ⟨-, h⟩
    · exact Nat.le_succ_of_le (hslot h)
    · exact Nat.le_succ_of_le (hslot h)
    · exact Nat.le_of_eq h
  | indexInt t k => exact Nat.le_succ_of_le (hslot h.1)
  | indexStr t k a => exact Nat.le_succ_of_le (hslot h.1)
  | call pc => exact Nat.le_succ_of_le (Nat.le_of_eq h.1)
  | nil | true_ | false_ | float | int | str | relocatable =>
    exact Nat.le_trans (Nat.le_of_eq h) (Nat.le_add_right ..)
  | konst | localVar | upvalue | constVar | indexUp | vararg | jump =>
    exact Nat.le_trans (Nat.le_of_eq h.1) (Nat.le_add_right ..)

theorem Prepared.base_le {op : BinaryOp} {F₂ : List Pending} {base₂ : Nat}
    (h : Prepared F base s op e F₂ base₂) :
    base₂ ≤ base + 1 := by
  cases h with
  | and _ | or _ | concat => omega
  | operand _ h _ =>
    cases h with
    | register h => rcases h with ⟨-, h⟩ | ⟨-, h⟩ <;> omega
    | constant _ hb => omega

/-- An action in one state takes at most `k` instructions and constants, and there are registers
enough for it. -/
def HasRoom (small : Prop) (s : State) (k : Nat) (Q : α → State → Prop) (m : M α) : Prop :=
  (small → s.fn.code.size + k ≤ maxCode ∧ s.fn.pool.values.size + k ≤ maxCode) → match m s with
    | .ok a s' =>
      (s'.fn.code.size ≤ s.fn.code.size + k ∧ s'.fn.pool.values.size ≤ s.fn.pool.values.size + k) ∧
        Q a s'
    | .error f _ => ∀ e, f = .error e → e.message = utf8 "C stack overflow" ∨ ¬ small ∧ TooLarge e

namespace HasRoom

variable {P : α → Prop} {Q Q' : α → State → Prop} {T : β → State → Prop}

theorem mono (h : HasRoom small s j Q m) (hjk : j ≤ k) (hQ : ∀ a s', Q a s' → Q' a s') :
    HasRoom small s k Q' m := by
  intro hs
  have := h fun h => ⟨by have := (hs h).1; omega, by have := (hs h).2; omega⟩
  cases hm : m s with
  | ok a s' =>
    rw [hm] at this
    exact ⟨⟨by omega, by omega⟩, hQ a s' this.2⟩
  | error f s' =>
    rw [hm] at this
    exact this

theorem bind (h : HasRoom small s j Q m) (hf : ∀ a s', Q a s' → HasRoom small s' k T (f a)) :
    HasRoom small s (j + k) T (m >>= f) := by
  intro hs
  have hfirst := h fun h => ⟨by have := (hs h).1; omega, by have := (hs h).2; omega⟩
  show match EStateM.bind m f s with
    | .ok a s' => _ ∧ T a s'
    | .error f _ => ∀ e, f = .error e → e.message = utf8 "C stack overflow" ∨ ¬ small ∧ TooLarge e
  unfold EStateM.bind
  cases hm : m s with
  | error f s' =>
    rw [hm] at hfirst
    exact hfirst
  | ok a s' =>
    rw [hm] at hfirst
    obtain ⟨⟨hcode, hpool⟩, ha⟩ := hfirst
    have hsecond := hf a s' ha fun h => ⟨by have := (hs h).1; omega, by have := (hs h).2; omega⟩
    dsimp only
    cases hfa : f a s' with
    | ok b s'' =>
      rw [hfa] at hsecond
      obtain ⟨⟨hcode', hpool'⟩, hb⟩ := hsecond
      exact ⟨⟨by omega, by omega⟩, hb⟩
    | error g s'' =>
      rw [hfa] at hsecond
      exact hsecond

theorem step {a : α} (h : m s = .ok a s) (hf : HasRoom small s k T (f a)) :
    HasRoom small s k T (m >>= f) := by
  unfold HasRoom
  rw [bind_eq h]
  exact hf

theorem pure {a : α} (h : Q a s) : HasRoom small s k Q (Pure.pure a) :=
  fun _ => ⟨⟨Nat.le_add_right .., Nat.le_add_right ..⟩, h⟩

theorem get {g : State → M α} (h : HasRoom small s k Q (g s)) :
    HasRoom small s k Q (MonadState.get >>= g) := h

theorem when {p : Prop} [Decidable p] {m : M Unit} {g : Unit → M α}
    (h : HasRoom small s j (fun _ s' => s'.Untouched) m)
    (hs : s.Untouched) (hg : ∀ s', s'.Untouched → HasRoom small s' k Q (g ())) :
    HasRoom small s (j + k) Q (if p then m >>= g else g ()) := by
  split
  · exact h.bind fun _ s' h' => hg s' h'
  · exact (hg s hs).mono (Nat.le_add_left ..) fun _ _ h => h

theorem of_adds (h : Adds small k P m) (hfree : s.fn.freeReg + k < maxRegisters) :
    HasRoom small s k (fun a _ => P a) m := by
  intro hs
  have hadds := h s hs
  cases hm : m s with
  | ok a s' =>
    rw [hm] at hadds
    exact ⟨⟨hadds.1.code, hadds.1.pool⟩, hadds.2⟩
  | error f s' =>
    rw [hm] at hadds
    exact fun e he => (hadds e he).elim (fun h => absurd hfree (Nat.not_lt.2 h)) .inr

theorem via {R : State → State → Prop} (h : HasRoom small s k Q m) (hv : Via R m s Q') :
    HasRoom small s k (fun a s' => Q a s' ∧ R s s' ∧ Q' a s') m := by
  intro hs
  have hroom := h hs
  unfold Via at hv
  cases hm : m s with
  | ok a s' =>
    rw [hm] at hroom hv
    exact ⟨hroom.1, hroom.2, hv⟩
  | error f s' =>
    rw [hm] at hroom
    exact hroom

theorem untouched [hc : Coding true false m] (h : HasRoom small s k Q m) (hs : s.Untouched) :
    HasRoom small s k (fun a s' => s'.Untouched ∧ Q a s') m := by
  intro hsmall
  have hroom := h hsmall
  cases hm : m s with
  | ok a s' =>
    rw [hm] at hroom
    exact ⟨hroom.1, hc.keeps_untouched hs hm, hroom.2⟩
  | error f s' =>
    rw [hm] at hroom
    exact hroom

theorem deeper {n : Nat} {g : Nat → M α} (h : ∀ i, i + 1 = n → HasRoom small s k Q (g i)) :
    HasRoom small s k Q (deeper n g) := by
  cases n with
  | zero =>
    rintro - e ⟨⟩
    exact .inl rfl
  | succ n => exact h n rfl

end HasRoom

theorem hasRoom_meaning {g : Meaning → M α} {Q : α → State → Prop} (hc : c.Untouched)
    (h : ∀ strayed, HasRoom small { c with strayed } k Q (g (bareMeaning name))) : HasRoom small c k
    Q (do
      let m ← resolve name
      noteMeaning name m
      g m) := by
  intro hs
  rcases resolve_untouched hc name with ⟨strayed, he⟩ | he
  · rw [bind_eq he]
    exact h (strayed || !isLexical c.vars ((c.fn :: c.outer).map Builder.site) name
      (bareMeaning name)) hs
  · have hrun : (do
        let m ← resolve name
        noteMeaning name m
        g m) c = .error (.broken .indexInRange) c := by
      show EStateM.bind (resolve name) _ c = _
      rw [EStateM.bind, he]
    rw [hrun]
    rintro e ⟨⟩

theorem State.Untouched.strayed (hc : c.Untouched) (strayed : Bool) :
    State.Untouched { c with strayed } :=
  ⟨hc.vars, hc.outer, hc.upvalues, hc.gotos⟩

theorem hasRoom_globalAccess (hc : c.Untouched) (hfree : c.fn.freeReg + 23 < maxRegisters) :
    HasRoom small c 23 (fun e s' => s'.Untouched ∧ e.Near small) (globalAccess name) := by
  refine hasRoom_meaning hc fun strayed => ?_
  rw [bareMeaning, if_pos rfl]
  exact .untouched (s := { c with strayed }) (.of_adds (adds_index (Nat.le_refl 23)) hfree)
    (hc.strayed strayed)

theorem hasRoom_variableExp (hc : c.Untouched) (hfree : c.fn.freeReg + 23 < maxRegisters) :
    HasRoom small c 23 (fun e s' => s'.Untouched ∧ e.Near small) (variableExp name) := by
  refine hasRoom_meaning hc fun strayed => ?_
  by_cases hname : name = envName
  · rw [bareMeaning, if_pos hname]
    exact .pure ⟨hc.strayed strayed, .plain rfl⟩
  · rw [bareMeaning, if_neg hname]
    exact .bind (k := 0) (hasRoom_globalAccess (hc.strayed strayed) hfree) fun e s' h => .pure h

structure Stood (small : Prop) (F : List Pending) (s : State) (e : Exp) (s' : State) : Prop where
  untouched : s'.Untouched
  near : e.Near small
  keeps : Keeps s s'
  read : Read F s.fn.freeReg e s'

theorem HasRoom.noting {m : M Exp} (h : HasRoom small s k (Stood small F c) m)
    (target : Option Bytes) :
    HasRoom small s k (Stood small F c) (do
      let e ← m
      noteTarget target
      return e) :=
  .bind (k := 0) h fun _ _ he _ => ⟨⟨Nat.le_refl _, Nat.le_refl _⟩,
    ⟨he.untouched.vars, he.untouched.outer, he.untouched.upvalues, he.untouched.gotos⟩, he.near,
    he.keeps.trans Coded.retarget.toKeeps, he.read.relog⟩

theorem hasRoom_constant {kind : ExpKind} (hc : c.Untouched) (hr : Ready F c)
    (hp : c.Places c.fn.freeReg kind)
    (ho : kind.opened = none) (hj : kind.ownJump c.fn.freeReg = [])
    (hn : ∀ pc, kind ≠ .relocatable pc)
    (hjump : kind.isJump = false) : HasRoom small c 64 (Stood small F c)
    (pure ⟨kind, none, none⟩) := by
  refine fun _ => ⟨⟨Nat.le_add_right .., Nat.le_add_right ..⟩, hc, .plain hjump, .refl c,
    .ofKind hr.low ?_ hp, .of_ne ?_⟩
  · rw [ho, hj]
    exact hr.inv
  · exact fun pc he => hn pc he

/-- A tree takes no more registers than there are levels left, besides those of one operator. -/
theorem hasRoom_emit (t : Tree) : ∀ (n : Nat) (F : List Pending) (c : State), c.Untouched →
    Ready F c →
    c.fn.freeReg + n + 50 < maxRegisters →
      HasRoom small c (64 * t.size) (Stood small F c) (t.emit n) := by
  induction t with
  | name x =>
    intro n F c hc hr hroom
    refine .noting (.mono ((hasRoom_variableExp hc (by omega)).via (variableExp_spec hr.inv hr.low))
      (by show 23 ≤ 64; omega) ?_) _
    exact fun e s' h => ⟨h.1.1, h.1.2, h.2.1, h.2.2.1⟩
  | unary op t ih =>
    intro n F c hc hr hroom
    refine .bind (.deeper fun i hi => ih i F c hc hr (by omega)) fun e s' he => ?_
    have hfree := he.read.place.freeReg_le
    have happly : HasRoom small s' 13 _ (applyUnary op e 1) :=
      .of_adds (adds_applyUnary he.near (Nat.le_refl 13)) (by omega)
    have hread := (happly.untouched he.untouched).via (applyUnary_spec he.read)
    exact .noting (hread.mono (by omega) fun e' s'' h =>
      ⟨h.1.1, h.1.2, he.keeps.trans h.2.1, h.2.2⟩) none
  | binary op l r ihl ihr =>
    intro n F c hc hr hroom
    have htwo : op.op.TakesTwo := binaryOp?_takesTwo op.kind op.op op.reads
    have hsize : (Tree.binary op l r).size = l.size + r.size + 1 := rfl
    have hfinish : ∀ e s₁, Stood small F c e s₁ → HasRoom small s₁ (13 + (64 * r.size + 39))
        (Stood small F c) (do
        let left ← prepareLeft op.op e
        let right ← deeper n r.emit
        binaryExp op.op left right 1) := by
      intro e s₁ he
      have hfree := he.read.place.freeReg_le
      have hprepare : HasRoom small s₁ 13 _ (prepareLeft op.op e) :=
        .of_adds (adds_prepareLeft he.near (Nat.le_refl 13)) (by omega)
      refine ((hprepare.untouched he.untouched).via (prepareLeft_spec op.op he.read)).bind
        fun left s₂ h₂ => ?_
      obtain ⟨⟨hc₂, hnear⟩, hk₂, hlow, F₂, hprep, hi⟩ := h₂
      have hbase := hprep.base_le
      have hr₂ : Ready F₂ s₂ := ⟨hi, Nat.le_trans hlow hprep.le⟩
      refine .bind (.deeper fun i hi => ihr i F₂ s₂ hc₂ hr₂ (by omega)) fun right s₃ he₃ => ?_
      have hfree₃ := he₃.read.place.freeReg_le
      have happly : HasRoom small s₃ 39 _ (applyBinary op.op left right 1) :=
        .of_adds (adds_applyBinary hnear he₃.near (Nat.le_refl 39)) (by omega)
      have hread := (happly.untouched he₃.untouched).via
        (applyBinary_spec htwo (by rw [he₃.keeps.level]; exact hlow) (hprep.mono he₃.keeps)
          he₃.read)
      refine .noting (hread.mono (Nat.le_refl 39) fun e' s'' h => ⟨h.1.1, h.1.2, ?_, h.2.2⟩) none
      exact he.keeps.trans (hk₂.trans (he₃.keeps.trans h.2.1))
    exact (HasRoom.bind (ihl n F c hc hr (by omega)) hfinish).mono (by omega) fun _ _ h => h
  | int | float | string | nil | true_ | false_ =>
    exact fun n F c hc hr _ => hasRoom_constant hc hr rfl rfl rfl (by rintro _ ⟨⟩) rfl

def Idle (m : M α) : Prop :=
  ∀ s, match m s with
    | .ok _ s' => s'.fn.code.size = s.fn.code.size ∧ s'.fn.pool = s.fn.pool
    | .error f _ => ∀ e, f ≠ .error e

namespace Idle

theorem pure (a : α) : Idle (Pure.pure a) := fun _ => ⟨rfl, rfl⟩

theorem broken (a : Assertion) : Idle (Compile.broken a : M α) := by
  rintro s e ⟨⟩

theorem bind (h : Idle m) (hf : ∀ a, Idle (f a)) : Idle (m >>= f) := by
  intro s
  have hfirst := h s
  show match EStateM.bind m f s with
    | .ok _ s' => s'.fn.code.size = s.fn.code.size ∧ s'.fn.pool = s.fn.pool
    | .error f _ => ∀ e, f ≠ .error e
  unfold EStateM.bind
  cases hm : m s with
  | error e s' =>
    rw [hm] at hfirst
    exact hfirst
  | ok a s' =>
    rw [hm] at hfirst
    have hsecond := hf a s'
    dsimp only
    cases hfa : f a s' with
    | error e s'' =>
      rw [hfa] at hsecond
      exact hsecond
    | ok b s'' =>
      rw [hfa] at hsecond
      exact ⟨hsecond.1.trans hfirst.1, hsecond.2.trans hfirst.2⟩

theorem ite {p : Prop} [Decidable p] {m' : M α} (h : Idle m) (h' : Idle m') :
    Idle (if p then m else m') := by
  split
  · exact h
  · exact h'

theorem get {g : State → M α} (h : ∀ s, Idle (g s)) : Idle (MonadState.get >>= g) := fun s => h s s

theorem ofFn {g : Builder → β} {k : β → M α} (h : ∀ b, Idle (k b)) : Idle (Compile.ofFn g >>= k) :=
  fun s => h (g s.fn) s

theorem modify {u : State → State}
    (h : ∀ s, (u s).fn.code = s.fn.code ∧ (u s).fn.pool = s.fn.pool) :
    Idle (modify u : M PUnit) :=
  fun s => ⟨congrArg Array.size (h s).1, (h s).2⟩

/-- Where nothing is declared, nothing is declared by an action that keeps declarations. -/
theorem hasRoom [hc : Coding true false m] (h : Idle m) (hs : s.Untouched) :
    HasRoom small s 0 (fun _ s' => s'.Untouched) m := by
  intro _
  have hm := h s
  cases hr : m s with
  | ok a s' =>
    rw [hr] at hm
    exact ⟨⟨Nat.le_of_eq hm.1, Nat.le_of_eq (congrArg (·.values.size) hm.2)⟩,
      hc.keeps_untouched hs hr⟩
  | error f s' =>
    rw [hr] at hm
    exact fun e he => absurd he (hm e)

end Idle

theorem idle_registerLevel (n : Nat) : Idle (registerLevel n) := by
  refine .get fun s => ?_
  cases registersOf s.vars s.fn.firstVar n with
  | some level => exact .pure level
  | none => exact .broken _

theorem idle_ownVariable (i : Nat) : Idle (ownVariable i) := by
  refine .get fun s => .get fun s' => ?_
  cases s'.vars[s.fn.firstVar + i]? with
  | some v => exact .pure v
  | none => exact .broken _

theorem idle_modifyLocal (i : Nat) (change : Span → Span) : Idle (modifyLocal i change) :=
  .ofFn fun _ => .ite (.modify fun _ => ⟨rfl, rfl⟩) (.broken _)

theorem idle_endScopes (n : Nat) : Idle (endScopes n) := by
  induction n with
  | zero => exact .pure ()
  | succ n ih =>
    refine .bind (.modify fun _ => ⟨rfl, rfl⟩) fun _ => .get fun s =>
      .bind (idle_ownVariable _) fun v => .ite ?_ ih
    exact .ofFn fun pc => .bind (idle_modifyLocal _ _) fun _ => ih

theorem idle_currentBlock : Idle currentBlock := by
  refine .ofFn fun blocks => ?_
  cases blocks with
  | nil => exact .broken _
  | cons b rest => exact .pure b

theorem idle_addLabel (name : Bytes) (line : Nat) (isLast : Bool) :
    Idle (addLabel name line isLast) :=
  .bind (fun _ => ⟨rfl, rfl⟩) fun _ =>
    .ite (.bind idle_currentBlock fun b => .bind (.pure b.level) fun _ => .modify fun _ =>
      ⟨rfl, rfl⟩)
      (.ofFn fun _ => .modify fun _ => ⟨rfl, rfl⟩)

theorem hasRoom_emitABC {op : Opcode} {a b c' : Nat} (hs : s.Untouched) :
    HasRoom small s 1 (fun _ s' => s'.Untouched) (emitABC op a b c') := by
  refine fun _ => ⟨⟨?_, Nat.le_add_right ..⟩, ⟨hs.vars, hs.outer, hs.upvalues, hs.gotos⟩⟩
  show (s.fn.code.push _).size ≤ _
  rw [Array.size_push]

theorem hasRoom_modify {u : State → State} (hfn : (u s).fn = s.fn) (h : (u s).Untouched) :
    HasRoom small s 0 (fun _ s' => s'.Untouched) (modify u : M PUnit) :=
  fun _ =>
    ⟨⟨Nat.le_of_eq (congrArg (·.code.size) hfn), Nat.le_of_eq (congrArg (·.pool.values.size) hfn)⟩,
    h⟩

theorem hasRoom_solveGotos (hs : s.Untouched) (b : Block) :
    HasRoom small s 0 (fun _ s' => s'.Untouched) (solveGotos b) := by
  unfold solveGotos
  refine .bind (j := 0) (k := 0) (Q := fun waiting s' => waiting = [] ∧ s'.Untouched)
    (fun _ => ⟨⟨Nat.le_refl _, Nat.le_refl _⟩, by simp [hs.gotos], hs⟩) ?_
  rintro _ s₁ ⟨rfl, h₁⟩
  refine .bind (j := 0) (k := 0) (hasRoom_modify rfl ⟨h₁.vars, h₁.outer, h₁.upvalues, ?_⟩)
    fun _ s₂ h₂ => ?_
  · simp [h₁.gotos]
  rw [show resolveGotos b [] = pure [] from rfl, pure_bind]
  refine .bind (j := 0) (k := 0) (hasRoom_modify rfl ⟨h₂.vars, h₂.outer, h₂.upvalues, ?_⟩)
    fun _ s₃ h₃ => ?_
  · simp [h₂.gotos]
  have hlabels : Idle (do
      if (← get).labels.size < b.firstLabel then broken .indexInRange
      modify fun s => { s with labels := s.labels.shrink b.firstLabel }) :=
    .get fun _ => .ite (.bind (.broken _) fun _ => .modify fun _ => ⟨rfl, rfl⟩)
      (.modify fun _ => ⟨rfl, rfl⟩)
  have hcoding : Coding true false (do
      if (← MonadState.get).labels.size < b.firstLabel then broken .indexInRange
      modify fun s => { s with labels := s.labels.shrink b.firstLabel }) := by
    have h : Coding true false
        (modify fun s : State => { s with labels := s.labels.shrink b.firstLabel }) :=
      .modify (fun _ _ _ => rfl) fun _ _ => ⟨rfl, rfl, rfl, rfl⟩
    exact .get (fun s => inferInstance) fun _ _ _ _ => rfl
  exact hlabels.hasRoom h₃

theorem hasRoom_removeVariables (hs : s.Untouched) (level : Nat) :
    HasRoom small s 0 (fun _ s' => s'.Untouched) (removeVariables level) := by
  unfold removeVariables
  refine .get (.bind (j := 0) (k := 0) ((idle_endScopes _).hasRoom hs) fun _ s₁ h₁ => .get ?_)
  split
  · rintro - e ⟨⟩
  · exact hasRoom_modify rfl ⟨by simp [h₁.vars], h₁.outer, h₁.upvalues, h₁.gotos⟩

theorem hasRoom_leaveBlock (hs : s.Untouched) : HasRoom small s 1 (fun _ _ => True) leaveBlock := by
  unfold leaveBlock
  refine .get ?_
  cases s.fn.blocks with
  | nil => rintro - e ⟨⟩
  | cons b rest =>
    dsimp only
    refine .bind (j := 0) (k := 1) ((idle_registerLevel _).hasRoom hs) fun level s₁ h₁ => ?_
    have hclose : HasRoom small s₁ 1 (fun _ s' => s'.Untouched)
        (discard (emitABC .close level 0 0)) :=
      .bind (j := 1) (k := 0) (hasRoom_emitABC h₁) fun _ _ h => .pure h
    refine .when (j := 1) (k := 0) hclose h₁ fun s₂ h₂ => ?_
    refine .bind (j := 0) (k := 0)
      (Idle.hasRoom (m := setFreeReg level) (.modify fun _ => ⟨rfl, rfl⟩) h₂) fun _ s₃ h₃ => ?_
    refine .when (j := 0) (k := 0) ((idle_addLabel _ _ _).hasRoom h₃) h₃ fun s₄ h₄ => ?_
    refine .bind (j := 0) (k := 0) (hasRoom_solveGotos h₄ b) fun _ s₅ h₅ => ?_
    refine .bind (j := 0) (k := 0) (hasRoom_removeVariables h₅ b.level) fun _ s₆ h₆ => ?_
    have hleft {s : State} : HasRoom small s 0 (fun _ _ => True) (do
        modifyFn fun f => { f with blocks := rest }
        return b) := fun _ => ⟨⟨Nat.le_refl _, Nat.le_refl _⟩, trivial⟩
    split
    · have hnone : s₆.gotos[b.firstGoto]? = none := by simp [h₆.gotos]
      refine .get ?_
      rw [hnone]
      exact hleft
    · exact hleft

theorem hasRoom_closing (hs : s.Untouched) : HasRoom small s 2 (fun _ _ => True) closing := by
  refine .bind (j := 0) (k := 2) (Q := fun _ s' => s'.Untouched) ?_ fun level s₁ h₁ => ?_
  · exact Idle.hasRoom (.ofFn fun _ => idle_registerLevel _) hs
  refine .bind (j := 1) (k := 1) (Q := fun _ s' => s'.Untouched) ?_ fun _ s₂ h₂ => ?_
  · exact .bind (j := 1) (k := 0) (hasRoom_emitABC h₁) fun _ _ h => .pure h
  refine .bind (j := 1) (k := 0) (Q := fun _ _ => True) ?_ fun _ s₃ _ => ?_
  · exact .bind (j := 1) (k := 0) (hasRoom_leaveBlock h₂) fun _ _ _ => .pure trivial
  exact fun _ => ⟨⟨Nat.le_refl _, Nat.le_refl _⟩, trivial⟩

theorem hasRoom_closeFunction (hs : s.Untouched) (he : Ends [] s)
    (hb : ∃ c, s.fn.blocks.map Block.scope = [c]) :
    HasRoom small s 2 (fun _ _ => True) closeFunction := by
  rw [closeFunction_eq]
  refine .bind (k := 0) ((hasRoom_closing hs).via (closing_spec he hb)) ?_
  rintro marks _ ⟨-, -, t, ht, rfl, rfl⟩
  intro hsmall
  unfold finishCode
  rw [onCode_eq]
  rcases ht.sound.finish_spec ⟨t.fn.needClose, t.fn.isVararg, t.fn.numParams⟩
      with ⟨he, hsize⟩ | ⟨code, he, hsize, -, -⟩
  · have hact : (JumpList.finish ⟨t.fn.needClose, t.fn.isVararg, t.fn.numParams⟩
        t.closed.fn.code).map (·, ()) = .error .tooLong :=
      congrArg (Except.map (·, ())) he
    rw [hact]
    rintro e ⟨⟩
    refine .inr ⟨fun h => ?_, .inl rfl⟩
    have hle : t.fn.code.size + 0 ≤ maxCode := (hsmall h).1
    exact absurd (Int.ofNat_le.2 hle) (Int.not_le.2 hsize)
  · have hact : (JumpList.finish ⟨t.fn.needClose, t.fn.isVararg, t.fn.numParams⟩
        t.closed.fn.code).map (·, ()) = .ok (code, ()) :=
      congrArg (Except.map (·, ())) he
    rw [hact]
    exact ⟨⟨Nat.le_of_eq hsize, Nat.le_refl _⟩, trivial⟩

end Compile

end LuaChunk
