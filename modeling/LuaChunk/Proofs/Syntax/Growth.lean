import LuaChunk.Proofs.Action.Emit
import LuaChunk.Proofs.Code.Chain
import LuaChunk.Proofs.Compile.Operator
import LuaChunk.Proofs.Syntax.Coding

/-!
How much the code generator adds to a function. Each action is given a number that bounds the
instructions, the constants and the registers that it takes. An action fails only for want of
registers, by a broken assertion, or, unless the function is small, because a jump does not reach or
the constants are too many.
-/

set_option autoImplicit false

namespace LuaChunk

namespace Compile

/-- One state has at most `k` instructions, constants and registers more than another. -/
structure Grows (k : Nat) (s s' : State) : Prop where
  code : s'.fn.code.size ≤ s.fn.code.size + k
  pool : s'.fn.pool.values.size ≤ s.fn.pool.values.size + k
  free : s'.fn.freeReg ≤ s.fn.freeReg + k

theorem Grows.trans {j k : Nat} {s t u : State} (h : Grows j s t) (h' : Grows k t u) :
    Grows (j + k) s u where
  code := by have := h.code; have := h'.code; omega
  pool := by have := h.pool; have := h'.pool; omega
  free := by have := h.free; have := h'.free; omega

theorem Grows.mono {j k : Nat} {s t : State} (h : Grows j s t) (hjk : j ≤ k) : Grows k s t where
  code := by have := h.code; omega
  pool := by have := h.pool; omega
  free := by have := h.free; omega

theorem Grows.of_fn {s s' : State} (h : s'.fn = s.fn) : Grows 0 s s' := by
  constructor <;> rw [h] <;> exact Nat.le_refl _

/-- The most instructions of which each one is reached from each other one by a jump. -/
def maxCode : Nat := 16777215

/-- A function is too large: a jump does not reach, or there are too many constants. -/
def TooLarge (e : CompileError) : Prop := e.message = tooLong ∨
  utf8 "too many constants" <+: e.message

theorem TooLarge.of_message {e e' : CompileError} (h : TooLarge e') (he : e'.message = e.message) :
    TooLarge e := by
  unfold TooLarge at h ⊢
  rwa [he] at h

/-- An action in one state takes at most `k` instructions, constants and registers, and the function
is `small` enough for them, or may be too large. -/
def AddsFrom (small : Prop) {α : Type} (s : State) (k : Nat) (Q : α → Prop) (m : M α) : Prop :=
  (small → s.fn.code.size + k ≤ maxCode ∧ s.fn.pool.values.size + k ≤ maxCode) → match m s with
    | .ok a s' => Grows k s s' ∧ Q a
    | .error f _ => ∀ e, f = .error e → maxRegisters ≤ s.fn.freeReg + k ∨ ¬ small ∧ TooLarge e

/-- An action takes at most `k` instructions, constants and registers. -/
def Adds (small : Prop) {α : Type} (k : Nat) (Q : α → Prop) (m : M α) : Prop :=
  ∀ s, AddsFrom small s k Q m

theorem AddsFrom.bind {small : Prop} {α β : Type} {j k : Nat} {P : α → Prop} {Q : β → Prop}
    {m : M α} {f : α → M β} {s : State}
    (h : AddsFrom small s j P m) (hj : j ≤ k)
    (hf : ∀ a s', P a → AddsFrom small s' (k - j) Q (f a)) :
    AddsFrom small s k Q (m >>= f) := by
  intro hs
  have hfirst := h fun h => ⟨by have := (hs h).1; omega, by have := (hs h).2; omega⟩
  show match EStateM.bind m f s with
    | .ok a s' => Grows k s s' ∧ Q a
    | .error f _ => ∀ e, f = .error e → maxRegisters ≤ s.fn.freeReg + k ∨ ¬ small ∧ TooLarge e
  unfold EStateM.bind
  cases hm : m s with
  | error f s' =>
    rw [hm] at hfirst
    exact fun e he => (hfirst e he).imp (fun h => Nat.le_trans h (by omega)) id
  | ok a s' =>
    rw [hm] at hfirst
    obtain ⟨hg, ha⟩ := hfirst
    have hcode := hg.code
    have hpool := hg.pool
    have hfree := hg.free
    have hsecond := hf a s' ha fun h => ⟨by have := (hs h).1; omega, by have := (hs h).2; omega⟩
    dsimp only
    cases hfa : f a s' with
    | ok b s'' =>
      rw [hfa] at hsecond
      exact ⟨(hg.trans hsecond.1).mono (by omega), hsecond.2⟩
    | error g s'' =>
      rw [hfa] at hsecond
      exact fun e he => (hsecond e he).imp (fun h => Nat.le_trans h (by omega)) id

namespace Adds

variable {small : Prop} {α β : Type} {j k : Nat} {P : α → Prop} {Q : β → Prop} {m : M α}

theorem mono (h : Adds small j P m) (hjk : j ≤ k) : Adds small k P m := by
  intro s hs
  have := h s fun h => ⟨by have := (hs h).1; omega, by have := (hs h).2; omega⟩
  cases hm : m s with
  | ok a s' =>
    rw [hm] at this
    exact ⟨this.1.mono hjk, this.2⟩
  | error f s' =>
    rw [hm] at this
    exact fun e he => (this e he).imp (fun h => Nat.le_trans h (by omega)) id

theorem pure {a : α} (h : P a) : Adds small k P (Pure.pure a : M α) :=
  fun _ _ => ⟨(Grows.of_fn rfl).mono (Nat.zero_le k), h⟩

theorem broken (a : Assertion) : Adds small k P (Compile.broken a : M α) := by
  intro s _ e he
  cases he

theorem bind {f : α → M β} (h : Adds small j P m) (hj : j ≤ k)
    (hf : ∀ a, P a → Adds small (k - j) Q (f a)) :
    Adds small k Q (m >>= f) := fun s => (h s).bind hj fun a s' ha => hf a ha s'

theorem seq {f : α → M β} (h : Adds small j (fun _ => True) m) (hj : j ≤ k)
    (hf : ∀ a, Adds small (k - j) Q (f a)) :
    Adds small k Q (m >>= f) := h.bind hj fun a _ => hf a

theorem map {f : α → β} (h : Adds small k P m) (hf : ∀ a, P a → Q (f a)) :
    Adds small k Q (f <$> m) := by
  rw [map_eq_pure_bind]
  exact h.bind (Nat.le_refl k) fun a ha => .pure (hf a ha)

theorem discard (h : Adds small k P m) : Adds small k (fun _ => True) (discard m) :=
  h.map fun _ _ => trivial

theorem ite {p : Prop} [Decidable p] {m' : M α} (h : p → Adds small k P m)
    (h' : ¬ p → Adds small k P m') :
    Adds small k P (if p then m else m') := by
  split
  · exact h ‹_›
  · exact h' ‹_›

theorem get {f : State → M α} (h : ∀ s, Adds small k P (f s)) :
    Adds small k P (MonadState.get >>= f) :=
  fun s hs => h s s hs

theorem ofFn {g : Builder → β} {f : β → M α} (h : ∀ b, Adds small k P (f b)) :
    Adds small k P (Compile.ofFn g >>= f) :=
  fun s hs => h (g s.fn) s hs

theorem modifyFn {f : Builder → Builder} (hcode : ∀ b, (f b).code.size ≤ b.code.size + k)
    (hpool : ∀ b, (f b).pool.values.size ≤ b.pool.values.size + k)
    (hfree : ∀ b, (f b).freeReg ≤ b.freeReg + k) :
    Adds small k (fun _ => True) (Compile.modifyFn f) :=
  fun s _ => ⟨⟨hcode s.fn, hpool s.fn, hfree s.fn⟩, trivial⟩

theorem modifyRest {f : Builder → Builder} (hcode : ∀ b, (f b).code.size = b.code.size)
    (hrest : ∀ b, (f b).pool = b.pool ∧ (f b).freeReg = b.freeReg) : Adds small k (fun _ => True)
    (Compile.modifyFn f) := by
  refine modifyFn (fun b => ?_) (fun b => ?_) fun b => ?_
  · rw [hcode]
    exact Nat.le_add_right ..
  · rw [(hrest b).1]
    exact Nat.le_add_right ..
  · rw [(hrest b).2]
    exact Nat.le_add_right ..

theorem modifyLogs {f : State → State} (h : ∀ s, (f s).fn = s.fn) :
    Adds small k (fun _ => True) (MonadState.modifyGet (m := M) fun s => (PUnit.unit, f s)) :=
  fun s _ => ⟨(Grows.of_fn (h s)).mono (Nat.zero_le k), trivial⟩

end Adds

/-! ### Positions -/

/-- The head of a list of jumps is in code that jumps reach, if the function is small. -/
def Near (small : Prop) (list : Option Nat) : Prop := ∀ pc, list = some pc → small → pc ≤ maxCode

def ExpKind.isJump : ExpKind → Bool
  | .jump _ => true
  | _ => false

/-- The jumps of an expression are in code that jumps reach, if the function is small. -/
structure Exp.Near (small : Prop) (e : Exp) : Prop where
  ifTrue : Compile.Near small e.whenTrue
  ifFalse : Compile.Near small e.whenFalse
  jump : ∀ pc, e.kind = .jump pc → small → pc ≤ maxCode

variable {small : Prop}

theorem near_none : Near small none := by
  rintro pc ⟨⟩

theorem near_some {pc : Nat} (h : small → pc ≤ maxCode) : Near small (some pc) :=
  fun _ he => Option.some.inj he ▸ h

theorem Exp.Near.plain {kind : ExpKind} (h : kind.isJump = false) :
    Exp.Near small ⟨kind, none, none⟩ :=
  ⟨near_none, near_none, fun _ he =>
    absurd (h.symm.trans (congrArg ExpKind.isJump he)) Bool.false_ne_true⟩

theorem Exp.Near.setKind {e : Exp} (h : e.Near small) {kind : ExpKind} (hk : kind.isJump = false) :
    Exp.Near small { e with kind } :=
  ⟨h.ifTrue, h.ifFalse, fun _ he =>
    absurd (hk.symm.trans (congrArg ExpKind.isJump he)) Bool.false_ne_true⟩

theorem ExpKind.isJump_ofValue (v : Value) : (ExpKind.ofValue v).isJump = false := by
  rcases v with _ | (_ | _) | (_ | _) | _ | _ <;> rfl

theorem Exp.near_ofNumber (n : Number) : (Exp.ofNumber n).Near small := by
  cases n <;> exact .plain rfl

theorem Exp.near_inReg (r : Nat) : (Exp.inReg r).Near small := .plain rfl

theorem Operand.near_toExp (o : Operand) : o.toExp.Near small := by
  cases o <;> exact .plain rfl

open JumpList (Code)

theorem next_error {code : Code} {pc : Nat} {f : JumpList.Fault}
    (h : JumpList.next code pc = .error f) :
    f = .outOfRange := by
  unfold JumpList.next at h
  split at h
  · exact (Except.error.inj h).symm
  · split at h
    · cases h
    · dsimp only at h
      split at h
      · exact (Except.error.inj h).symm
      · cases h

theorem lt_of_next {code : Code} {pc : Nat} {rest : Option Nat}
    (h : JumpList.next code pc = .ok rest) :
    pc < code.size := by
  unfold JumpList.next at h
  split at h
  · cases h
  · rename_i hi
    exact (Array.getElem?_eq_some_iff.1 hi).1

theorem last_cases (code : Code) (fuel pc : Nat) :
    JumpList.last code fuel pc = .error .outOfRange ∨ ∃ z, JumpList.last code fuel pc = .ok z ∧
      z < code.size := by
  induction fuel generalizing pc with
  | zero => exact .inl rfl
  | succ fuel ih =>
    unfold JumpList.last
    cases hn : JumpList.next code pc with
    | error f =>
      rw [next_error hn]
      exact .inl rfl
    | ok rest =>
      cases rest with
      | none => exact .inr ⟨pc, rfl, lt_of_next hn⟩
      | some pc' => exact ih pc'

/-- An operation on code keeps its size, and finds no jump too long if the code is small. -/
def Reachable (small : Prop) {α : Type} (Q : α → Prop)
    (act : Code → Except JumpList.Fault (Code × α)) : Prop :=
  ∀ code, (small → code.size ≤ maxCode) → match act code with
    | .ok (code', a) => code'.size = code.size ∧ Q a
    | .error f => f = .tooLong → ¬ small

theorem reachable_append {first second : Option Nat} (hf : Near small first)
    (hs : Near small second) :
    Reachable small (Near small) fun code => JumpList.append code first second := by
  intro code hsize
  unfold JumpList.append
  cases second with
  | none => exact ⟨rfl, hf⟩
  | some b =>
    cases first with
    | none => exact ⟨rfl, hs⟩
    | some a =>
      dsimp only
      rcases last_cases code (code.size + 1) a with he | ⟨z, he, hz⟩
      · rw [he]
        rintro ⟨⟩
      · rw [he]
        dsimp only
        cases hfix : JumpList.fix code z b with
        | error f =>
          rintro rfl h
          exact JumpList.fix_ne_tooLong hz (Int.ofNat_le.2 (hsize h)) (Int.ofNat_le.2 (hs b rfl h))
            hfix
        | ok code' => exact ⟨JumpList.size_fix hfix, hf⟩

theorem reachable_patch {valueTarget fuel : Nat} {reg plain list : Option Nat}
    {aims : List (Nat × Nat)}
    (hv : small → valueTarget ≤ maxCode) (hp : Near small plain) :
    Reachable small (fun _ => True) fun code =>
      JumpList.patch code valueTarget reg plain aims fuel list := by
  intro code hsize
  dsimp only
  induction fuel generalizing code aims list with
  | zero => cases list <;> simp [JumpList.patch]
  | succ fuel ih =>
    cases list with
    | none => simp [JumpList.patch]
    | some pc =>
      unfold JumpList.patch
      cases hn : JumpList.next code pc with
      | error f =>
        rw [next_error hn]
        rintro ⟨⟩
      | ok rest =>
        have hpc : pc < (JumpList.redirect code pc reg).size :=
          JumpList.size_redirect code pc reg ▸ lt_of_next hn
        have htarget : Near small
            (if JumpList.storesValue code pc then some valueTarget else plain) := by
          split
          · exact near_some hv
          · exact hp
        dsimp only
        cases ht : if JumpList.storesValue code pc then some valueTarget else plain with
        | none => rintro ⟨⟩
        | some t =>
          dsimp only
          cases hfix : JumpList.fix (JumpList.redirect code pc reg) pc t with
          | error f =>
            rintro rfl h
            have hsize' := JumpList.size_redirect code pc reg ▸ hsize h
            exact JumpList.fix_ne_tooLong hpc (Int.ofNat_le.2 hsize')
              (Int.ofNat_le.2 (htarget t ht h)) hfix
          | ok code' =>
            have hs := (JumpList.size_fix hfix).trans (JumpList.size_redirect code pc reg)
            rw [← hs]
            exact ih code' (hs ▸ hsize)

theorem reachable_removeValues {fuel : Nat} {list : Option Nat} :
    Reachable small (fun _ => True) fun code =>
      (JumpList.removeValues code fuel list).map (·, ()) := by
  intro code hsize
  dsimp only
  induction fuel generalizing code list with
  | zero => cases list <;> simp [JumpList.removeValues, Except.map]
  | succ fuel ih =>
    cases list with
    | none => simp [JumpList.removeValues, Except.map]
    | some pc =>
      unfold JumpList.removeValues
      dsimp only
      cases hn : JumpList.next (JumpList.redirect code pc none) pc with
      | error f =>
        rw [next_error hn]
        rintro ⟨⟩
      | ok rest =>
        rw [← JumpList.size_redirect code pc none]
        exact ih (JumpList.redirect code pc none) (JumpList.size_redirect code pc none ▸ hsize)

theorem reachable_needsValue {list : Option Nat} :
    Reachable small (fun _ => True) fun code =>
      (JumpList.needsValue code (code.size + 1) list).map (code, ·) := by
  intro code hsize
  dsimp only
  generalize code.size + 1 = fuel
  induction fuel generalizing list with
  | zero => cases list <;> simp [JumpList.needsValue, Except.map]
  | succ fuel ih =>
    cases list with
    | none => simp [JumpList.needsValue, Except.map]
    | some pc =>
      unfold JumpList.needsValue
      by_cases hsize : code.size ≤ pc
      · rw [if_pos hsize]
        rintro ⟨⟩
      · rw [if_neg hsize]
        by_cases hstores : JumpList.storesValue code pc = true
        · rw [if_pos hstores]
          cases hn : JumpList.next code pc with
          | error f =>
            rw [next_error hn]
            rintro ⟨⟩
          | ok rest => exact @ih rest
        · rw [if_neg hstores]
          exact ⟨rfl, trivial⟩

/-! ### Code -/

variable {k : Nat}

theorem onCode_eq {α : Type} (act : Code → Except JumpList.Fault (Code × α)) (s : State) :
    onCode act s =
    match act s.fn.code with
    | .ok (code, a) => .ok a { s with fn := { s.fn with code } }
    | .error .tooLong => syntaxError tooLong { s with fn := { s.fn with code := #[] } }
    | .error .outOfRange => broken .indexInRange { s with fn := { s.fn with code := #[] } } := by
  unfold onCode
  rw [bind_eq (m := modifyGet _) (a := s.fn.code) (t := { s with fn := { s.fn with code := #[] } })
    rfl]
  cases act s.fn.code with
  | ok r => rfl
  | error f => cases f <;> rfl

theorem adds_onCode {α : Type} {Q : α → Prop} {act : Code → Except JumpList.Fault (Code × α)}
    (h : Reachable small Q act) :
    Adds small k Q (onCode act) := by
  intro s hs
  have hact := h s.fn.code fun h => by have := (hs h).1; omega
  rw [onCode_eq]
  cases ha : act s.fn.code with
  | ok r =>
    rw [ha] at hact
    obtain ⟨hsize, ha⟩ := hact
    exact ⟨⟨hsize ▸ Nat.le_add_right .., Nat.le_add_right .., Nat.le_add_right ..⟩, ha⟩
  | error f =>
    rw [ha] at hact
    cases f with
    | outOfRange => rintro e ⟨⟩
    | tooLong =>
      rintro e ⟨⟩
      exact .inr ⟨hact rfl, .inl rfl⟩

theorem adds_emit {d : Draft} {meant : List Value} (hk : 1 ≤ k) :
    Adds small k (fun pc => small → pc ≤ maxCode) (emit d meant) := by
  intro s hs
  refine ⟨⟨?_, Nat.le_add_right .., Nat.le_add_right ..⟩,
    fun h => show s.fn.code.size ≤ maxCode by have := (hs h).1; omega⟩
  show (s.fn.code.push d.word).size ≤ _
  rw [Array.size_push]
  omega

theorem adds_here : Adds small k (fun pc => small → pc ≤ maxCode) here :=
  fun s hs => ⟨(Grows.of_fn rfl).mono (Nat.zero_le k),
    fun h => show s.fn.code.size ≤ maxCode by have := (hs h).1; omega⟩

theorem adds_markTarget : Adds small k (fun pc => small → pc ≤ maxCode) markTarget :=
  .seq (j := 0) (.modifyRest (fun _ => rfl) fun _ => ⟨rfl, rfl⟩) (Nat.zero_le k) fun _ => adds_here

theorem adds_noteFits {fits : Bool} : Adds small k (fun _ => True) (noteFits fits) :=
  .modifyLogs fun _ => rfl

theorem adds_noteLists {used : List (Option Nat)} : Adds small k (fun _ => True) (noteLists used) :=
  .modifyLogs fun _ => rfl

theorem adds_noteFloat {x : Double} {keeper : Keeper} : Adds small k (fun _ => True)
    (noteFloat x keeper) := .modifyLogs fun _ => rfl

theorem adds_fixLine {line : Nat} : Adds small k (fun _ => True) (fixLine line) :=
  .ofFn fun _ => .ite (fun _ => .modifyRest (fun _ => rfl) fun _ => ⟨rfl, rfl⟩) fun _ => .broken _

theorem adds_removeLast : Adds small k (fun _ => True) removeLast := by
  refine .ofFn fun _ => .ite
    (fun _ => .modifyFn (fun b => ?_) (fun b => Nat.le_add_right ..) fun b => Nat.le_add_right ..)
    fun _ => .broken _
  show b.code.pop.size ≤ _
  rw [Array.size_pop]
  omega

theorem adds_instructionAt {pc : Nat} : Adds small k (fun _ => True) (instructionAt pc) := by
  refine .ofFn fun i => ?_
  cases i with
  | some i => exact .pure trivial
  | none => exact .broken _

theorem adds_modifyAt {pc : Nat} {change : Instruction → Instruction} : Adds small k (fun _ => True)
    (modifyAt pc change) := by
  exact .ofFn fun _ => .ite (fun _ => .modifyRest (fun _ => Array.size_modify) fun _ => ⟨rfl, rfl⟩)
    fun _ => .broken _

theorem adds_setAt {pc : Nat} {changes : List (Instruction.Field × Nat)} :
    Adds small k (fun _ => True) (setAt pc changes) :=
  .seq (j := 0) adds_noteFits (Nat.zero_le k) fun _ => adds_modifyAt

theorem adds_setLast {changes : List (Instruction.Field × Nat)} : Adds small k (fun _ => True)
    (setLast changes) :=
  .ofFn fun _ => adds_setAt

theorem adds_emitK {reg : Nat} {entry : PoolEntry} (hk : 2 ≤ k) : Adds small k (fun _ => True)
    (emitK reg entry) := by
  refine .ite (fun _ => (adds_emit (by omega)).discard) fun _ => ?_
  exact .seq (j := 1) (adds_emit (by omega)).discard (by omega) fun _ =>
    (adds_emit (by omega)).discard

theorem adds_loadNil {start n : Nat} (hk : 1 ≤ k) : Adds small k (fun _ => True)
    (loadNil start n) := by
  refine .ofFn fun b => ?_
  split
  · exact adds_setLast
  · exact (adds_emit hk).discard

/-! ### Jumps -/

theorem adds_jump (hk : 1 ≤ k) : Adds small k (fun pc => small → pc ≤ maxCode) jump :=
  .bind (j := 1) (adds_emit (by omega)) hk fun _ hpc =>
    .seq (j := 0) (.modifyRest (fun _ => rfl) fun _ => ⟨rfl, rfl⟩) (by omega) fun _ => .pure hpc

theorem adds_testJump {op : Opcode} {a b c flag : Nat} {meant : List Value} (hk : 2 ≤ k) :
    Adds small k (fun pc => small → pc ≤ maxCode) (testJump op a b c flag meant) :=
  .seq (j := 1) (adds_emit (by omega)).discard (by omega) fun _ => adds_jump (by omega)

theorem adds_appendJumps {first second : Option Nat} (hf : Near small first)
    (hs : Near small second) :
    Adds small k (Near small) (appendJumps first second) := by
  refine .seq (j := 0) adds_noteLists (by omega) fun _ => ?_
  refine .bind (j := 0) (adds_onCode (reachable_append hf hs)) (by omega) fun list hl => ?_
  split
  · exact .seq (j := 0) (.modifyRest (fun _ => rfl) fun _ => ⟨rfl, rfl⟩) (by omega) fun _ =>
      .pure hl
  · exact .pure hl

theorem adds_aimJumps {list reg plain : Option Nat} {target : Nat} (ht : small → target ≤ maxCode)
    (hp : Near small plain) :
    Adds small k (fun _ => True) (aimJumps list target reg plain) := by
  refine .seq (j := 0) adds_noteLists (by omega) fun _ => ?_
  refine .seq (j := 0) (adds_onCode fun code hsize => reachable_patch ht hp code hsize) (by omega)
    fun aims => ?_
  exact .seq (j := 0) (.modifyRest (fun _ => rfl) fun _ => ⟨rfl, rfl⟩) (by omega) fun _ =>
    .modifyRest (fun _ => rfl) fun _ => ⟨rfl, rfl⟩

theorem adds_patchList {list : Option Nat} {target : Nat} (ht : small → target ≤ maxCode) :
    Adds small k (fun _ => True) (patchList list target) := adds_aimJumps ht (near_some ht)

theorem adds_patchToHere {list : Option Nat} : Adds small k (fun _ => True) (patchToHere list) :=
  .bind (j := 0) adds_markTarget (by omega) fun _ ht => adds_patchList ht

theorem adds_patchValues {list plain : Option Nat} {target reg : Nat}
    (ht : small → target ≤ maxCode) (hp : Near small plain) :
    Adds small k (fun _ => True) (patchValues list target reg plain) :=
  .seq (j := 0) adds_noteFits (by omega) fun _ => adds_aimJumps ht hp

theorem adds_needsValue {list : Option Nat} : Adds small k (fun _ => True) (needsValue list) :=
  .seq (j := 0) adds_noteLists (by omega) fun _ => adds_onCode reachable_needsValue

theorem adds_removeValues {list : Option Nat} : Adds small k (fun _ => True) (removeValues list) :=
  .seq (j := 0) adds_noteLists (by omega) fun _ => adds_onCode fun code hsize =>
    reachable_removeValues code hsize

/-! ### Registers and constants -/

theorem adds_activeRegisters : Adds small k (fun _ => True) activeRegisters := by
  refine .ofFn fun _ => .get fun s => ?_
  cases registersOf s.vars s.fn.firstVar _ with
  | some level => exact .pure trivial
  | none => exact .broken _

theorem adds_checkStack {n : Nat} (hk : n ≤ k) : Adds small k (fun _ => True) (checkStack n) := by
  intro s _
  have hread {β γ : Type} (g : Builder → β) (f : β → M γ) (s : State) :
      (ofFn g >>= f) s = f (g s.fn) s := rfl
  have hsame : Grows k s s := (Grows.of_fn rfl).mono (Nat.zero_le k)
  unfold checkStack freeReg
  rw [hread]
  dsimp only
  rw [hread]
  by_cases hgrow : s.fn.maxStack < s.fn.freeReg + n
  · rw [if_pos hgrow]
    by_cases hmax : maxRegisters ≤ s.fn.freeReg + n
    · rw [if_pos hmax]
      exact fun _ _ => .inl (by omega)
    · rw [if_neg hmax]
      exact ⟨⟨hsame.code, hsame.pool, hsame.free⟩, trivial⟩
  · rw [if_neg hgrow]
    exact ⟨hsame, trivial⟩

theorem adds_reserve {n : Nat} (hk : 2 * n ≤ k) : Adds small k (fun _ => True) (reserve n) := by
  refine .seq (j := n) (adds_checkStack (Nat.le_refl n)) (by omega) fun _ => ?_
  exact .modifyFn (fun b => Nat.le_add_right ..) (fun b => Nat.le_add_right ..) fun b => by
    dsimp only; omega

theorem adds_freeRegister {reg : Nat} : Adds small k (fun _ => True) (freeRegister reg) := by
  refine .seq (j := 0) adds_activeRegisters (by omega) fun _ => .ite (fun _ => ?_) fun _ =>
    .pure trivial
  intro s
  show AddsFrom small s (k - 0) (fun _ => True)
    (if reg + 1 = s.fn.freeReg then setFreeReg reg
    else broken (.freedInOrder reg ((s.fn.freeReg : Int) - 1)))
  by_cases htop : reg + 1 = s.fn.freeReg
  · rw [if_pos htop]
    refine fun _ => ⟨⟨Nat.le_add_right .., Nat.le_add_right .., ?_⟩, trivial⟩
    show reg ≤ _
    omega
  · rw [if_neg htop]
    exact Adds.broken _ s

theorem adds_freeRegisters {r₁ r₂ : Nat} : Adds small k (fun _ => True) (freeRegisters r₁ r₂) :=
  .ite (fun _ => .seq (j := 0) adds_freeRegister (by omega) fun _ => adds_freeRegister)
    fun _ => .seq (j := 0) adds_freeRegister (by omega) fun _ => adds_freeRegister

theorem adds_placeConstant {key : PoolKey} {v : Value} (hk : 1 ≤ k) : Adds small k (fun _ => True)
    (placeConstant key v) := by
  intro s hs
  rw [placeConstant_eq]
  cases s.fn.pool.find? key v with
  | some i => exact ⟨(Grows.of_fn rfl).mono (Nat.zero_le k), trivial⟩
  | none =>
    dsimp only
    by_cases hfull : Instruction.maxAx ≤ s.fn.pool.values.size
    · rw [if_pos hfull]
      rintro e ⟨⟩
      refine .inr ⟨fun h => ?_, .inr ?_⟩
      · have hroom := (hs h).2
        have : maxCode < Instruction.maxAx := by decide
        omega
      · have hmessage : utf8 "too many constants" = utf8 "too many " ++ utf8 "constants" := by
          decide
        rw [hmessage]
        exact ⟨_, by simp only [List.append_assoc]; rfl⟩
    · rw [if_neg hfull]
      refine ⟨⟨Nat.le_add_right .., ?_, Nat.le_add_right ..⟩, trivial⟩
      show (s.fn.pool.values.push v).size ≤ _
      rw [Array.size_push]
      omega

theorem adds_addConstant {key : PoolKey} {v : Value} (hk : 1 ≤ k) : Adds small k (fun _ => True)
    (addConstant key v) := by
  refine .seq (j := 1) (adds_placeConstant (by omega)) hk fun i => ?_
  split
  · exact .ofFn fun _ => .seq (j := 0) adds_noteFloat (by omega) fun _ => .pure trivial
  · exact .pure trivial

/-! ### Values -/

variable {e e₁ e₂ : Exp}

theorem adds_variableAt {i : Nat} : Adds small k (fun _ => True) (variableAt i) := by
  refine .get fun s => ?_
  cases s.vars[i]? with
  | some v => exact .pure trivial
  | none => exact .broken _

theorem adds_freeExp : Adds small k (fun _ => True) (freeExp e) := by
  unfold freeExp
  split
  · exact adds_freeRegister
  · exact .pure trivial

theorem adds_freeExps : Adds small k (fun _ => True) (freeExps e₁ e₂) := by
  unfold freeExps
  split
  · exact adds_freeRegisters
  · exact adds_freeRegister
  · exact adds_freeRegister
  · exact .pure trivial

theorem adds_setOneReturn (h : e.Near small) : Adds small k (Exp.Near small) (setOneReturn e) := by
  unfold setOneReturn
  split
  · exact .seq (j := 0) adds_instructionAt (by omega) fun _ => .pure (h.setKind rfl)
  · exact .seq (j := 0) adds_setAt (by omega) fun _ => .pure (h.setKind rfl)
  · exact .pure h

theorem adds_dischargeVars (h : e.Near small) (hk : 1 ≤ k) : Adds small k (Exp.Near small)
    (dischargeVars e) := by
  have hread : ∀ {j : Nat} {d : Draft} {meant : List Value}, 1 ≤ j →
      Adds small j (Exp.Near small)
        ((fun pc => { e with kind := .relocatable pc }) <$> emit d meant) :=
    fun hj => (adds_emit hj).map fun _ _ => h.setKind rfl
  unfold dischargeVars
  split
  · exact .seq (j := 0) adds_variableAt (by omega) fun v =>
      .pure (h.setKind (ExpKind.isJump_ofValue v.value))
  · exact .pure (h.setKind rfl)
  · exact hread hk
  · exact hread hk
  · exact .seq (j := 0) adds_freeRegister (by omega) fun _ => hread hk
  · exact .seq (j := 0) adds_freeRegister (by omega) fun _ => hread hk
  · exact .seq (j := 0) adds_freeRegisters (by omega) fun _ => hread hk
  · exact adds_setOneReturn h
  · exact adds_setOneReturn h
  · exact .pure h

theorem adds_loadInt {reg : Nat} {n : Int64} (hk : 3 ≤ k) : Adds small k (fun _ => True)
    (loadInt reg n) :=
  .ite (fun _ => (adds_emit (by omega)).discard)
    fun _ => .seq (j := 1) (adds_addConstant (by omega)) (by omega) fun _ => adds_emitK (by omega)

theorem adds_loadFloat {reg : Nat} {x : Double} (hk : 3 ≤ k) : Adds small k (fun _ => True)
    (loadFloat reg x) := by
  unfold loadFloat
  dsimp only
  split
  · exact .seq (j := 0) adds_noteFloat (by omega) fun _ => (adds_emit (by omega)).discard
  · exact .seq (j := 1) (adds_addConstant (by omega)) (by omega) fun _ => adds_emitK (by omega)

theorem adds_dischargeTo {reg : Nat} (h : e.Near small) (hk : 4 ≤ k) : Adds small k (Exp.Near small)
    (dischargeTo e reg) := by
  unfold dischargeTo
  refine .bind (j := 1) (adds_dischargeVars h (by omega)) (by omega) fun e h => ?_
  have hdone {m : M Unit} (hm : Adds small (k - 1) (fun _ => True) m) :
      Adds small (k - 1) (Exp.Near small) (do m; return { e with kind := .inReg reg }) :=
    .seq (j := k - 1) hm (by omega) fun _ => .pure (h.setKind rfl)
  dsimp only
  split
  · exact hdone (adds_loadNil (by omega))
  · exact hdone (adds_emit (by omega)).discard
  · exact hdone (adds_emit (by omega)).discard
  · exact .seq (j := 1) (adds_addConstant (by omega)) (by omega) fun _ =>
      .seq (j := 2) (adds_emitK (by omega)) (by omega) fun _ => .pure (h.setKind rfl)
  · exact hdone (adds_emitK (by omega))
  · exact hdone (adds_loadFloat (by omega))
  · exact hdone (adds_loadInt (by omega))
  · exact hdone adds_setAt
  · split
    · exact hdone (adds_emit (by omega)).discard
    · exact .pure (h.setKind rfl)
  · exact .pure h

theorem adds_dischargeToAny (h : e.Near small) (hk : 6 ≤ k) : Adds small k (Exp.Near small)
    (dischargeToAny e) := by
  unfold dischargeToAny
  split
  · exact .pure h
  · exact .seq (j := 2) (adds_reserve (by omega)) (by omega) fun _ => .ofFn fun _ =>
      adds_dischargeTo h (by omega)

theorem adds_loadBool {reg : Nat} {op : Opcode} (hk : 1 ≤ k) :
    Adds small k (fun pc => small → pc ≤ maxCode) (loadBool reg op) :=
  .seq (j := 0) adds_markTarget.discard (by omega) fun _ => adds_emit (by omega)

theorem adds_loadPair {reg : Nat} (hk : 3 ≤ k) (needed : Bool) :
    Adds small k (fun p => Near small p.1 ∧ Near small p.2) (do
    if needed then
      let past ← match e.kind with
        | .jump _ => pure none
        | _ => some <$> jump
      let ifFalse ← loadBool reg .lFalseSkip
      let ifTrue ← loadBool reg .loadTrue
      patchToHere past
      return (some ifFalse, some ifTrue)
    else return (none, none)) := by
  have hloads {past : Option Nat} : Adds small (k - 1)
      (fun p : Option Nat × Option Nat => Near small p.1 ∧ Near small p.2) (do
      let ifFalse ← loadBool reg .lFalseSkip
      let ifTrue ← loadBool reg .loadTrue
      patchToHere past
      return (some ifFalse, some ifTrue)) :=
    .bind (j := 1) (adds_loadBool (by omega)) (by omega) fun _ hf =>
      .bind (j := 1) (adds_loadBool (by omega)) (by omega) fun _ ht =>
        .seq (j := 0) adds_patchToHere (by omega) fun _ => .pure ⟨near_some hf, near_some ht⟩
  refine .ite (fun _ => ?_) fun _ => .pure ⟨near_none, near_none⟩
  dsimp only
  split
  · exact .seq (j := 0) (.pure trivial) (by omega) fun past => (@hloads past).mono (by omega)
  · exact .seq (j := 1) ((adds_jump (by omega)).map fun _ _ => trivial) (by omega) fun past =>
      @hloads past

theorem adds_loadBools {reg : Nat} (hk : 3 ≤ k) :
    Adds small k (fun p => Near small p.1 ∧ Near small p.2) (loadBools e reg) := by
  unfold loadBools
  refine .seq (j := 0) adds_needsValue (by omega) fun first => ?_
  dsimp only
  split
  · exact adds_loadPair (e := e) hk true
  · exact .seq (j := 0) adds_needsValue (by omega) (adds_loadPair (e := e) hk)

theorem adds_finishJumps {reg : Nat} (hk : 3 ≤ k) : Adds small k (fun _ => True) (do
    if e.hasJumps then
      let (ifFalse, ifTrue) ← loadBools e reg
      let final ← markTarget
      patchValues e.whenFalse final reg ifFalse
      patchValues e.whenTrue final reg ifTrue) := by
  refine .ite (fun _ => .bind (j := 3) (adds_loadBools (by omega)) hk fun ends hends => ?_) fun _ =>
    .pure trivial
  refine .bind (j := 0) adds_markTarget (by omega) fun final hfinal => ?_
  exact .seq (j := 0) (adds_patchValues hfinal hends.1) (by omega) fun _ =>
    adds_patchValues hfinal hends.2

theorem adds_toRegister {reg : Nat} (h : e.Near small) (hk : 7 ≤ k) : Adds small k (fun _ => True)
    (toRegister e reg) := by
  unfold toRegister
  refine .bind (j := 4) (adds_dischargeTo h (by omega)) (by omega) fun e h => ?_
  dsimp only
  split
  · rename_i pc hpc
    refine .bind (j := 0) (adds_appendJumps h.ifTrue (near_some (h.jump pc hpc))) (by omega)
      fun _ _ => ?_
    exact adds_finishJumps (by omega)
  · exact adds_finishJumps (by omega)

theorem adds_toNextRegister (h : e.Near small) (hk : 10 ≤ k) : Adds small k (fun _ => True)
    (toNextRegister e) := by
  refine .bind (j := 1) (adds_dischargeVars h (by omega)) (by omega) fun e h => ?_
  refine .seq (j := 0) adds_freeExp (by omega) fun _ =>
    .seq (j := 2) (adds_reserve (by omega)) (by omega) fun _ => .ofFn fun _ => ?_
  exact .seq (j := 7) (adds_toRegister h (by omega)) (by omega) fun _ => .pure trivial

theorem adds_toAnyRegister (h : e.Near small) (hk : 11 ≤ k) : Adds small k (fun _ => True)
    (toAnyRegister e) := by
  refine .bind (j := 1) (adds_dischargeVars h (by omega)) (by omega) fun e h => ?_
  split
  · refine .ite (fun _ => .pure trivial) fun _ =>
      .seq (j := 0) adds_activeRegisters (by omega) fun _ => .ite (fun _ => ?_) fun _ => ?_
    · exact .seq (j := 7) (adds_toRegister h (by omega)) (by omega) fun _ => .pure trivial
    · exact adds_toNextRegister h (by omega)
  · exact adds_toNextRegister h (by omega)

theorem adds_fitting {constant? : Option PoolEntry} : Adds small k (fun _ => True)
    (match constant? with
    | some k => return if k.index ≤ Instruction.maxB then some k else none
    | none => return none : M (Option PoolEntry)) := by
  cases constant? <;> exact .pure trivial

theorem adds_toConstant? (hk : 1 ≤ k) : Adds small k (fun _ => True) (toConstant? e) := by
  unfold toConstant?
  refine .ite (fun _ => .pure trivial) fun _ => ?_
  have hplace : ∀ {key : PoolKey} {v : Value}, Adds small 1 (fun _ => True)
      (some <$> addConstant key v) :=
    (adds_addConstant (Nat.le_refl 1)).map fun _ _ => trivial
  dsimp only
  split
  all_goals first
    | exact .seq (j := 1) hplace hk fun _ => adds_fitting
    | exact .seq (j := 0) (.pure trivial) (by omega) fun _ => adds_fitting

theorem adds_toOperand (h : e.Near small) (hk : 12 ≤ k) : Adds small k (fun _ => True)
    (toOperand e) := by
  refine .seq (j := 1) (adds_toConstant? (by omega)) (by omega) fun k? => ?_
  cases k? with
  | some k => exact .pure trivial
  | none => exact .seq (j := 11) (adds_toAnyRegister h (by omega)) (by omega) fun _ => .pure trivial

/-! ### Accesses and conditions -/

theorem adds_noteLoad : Adds small k (fun _ => True) (noteLoad e) := by
  unfold noteLoad
  split
  · exact .modifyLogs fun _ => rfl
  · exact .pure trivial

theorem adds_shortKey? : Adds small k (fun _ => True) (shortKey? e) := by
  unfold shortKey?
  split
  · refine .ite (fun _ => .pure trivial) fun _ => .ofFn fun v? => ?_
    cases v? with
    | some v => exact .pure trivial
    | none => exact .broken _
  · exact .pure trivial

theorem adds_index {u : Nat} {name : Bytes} (hk : 23 ≤ k) : Adds small k (Exp.Near small)
    (index ⟨.upvalue u, none, none⟩ (.str name)) := by
  have hplain {kind : ExpKind} (h : kind.isJump = false) {j : Nat} : Adds small j (Exp.Near small)
      (pure ⟨kind, none, none⟩ : M Exp) :=
    .pure (.plain h)
  unfold index
  refine .seq (j := 1) (adds_addConstant (Nat.le_refl 1)) (by omega) fun entry => ?_
  refine .bind (j := 0) (P := (· = ⟨.konst entry, none, none⟩)) (.pure rfl) (by omega)
    fun key hkey => ?_
  have hnear : key.Near small := hkey ▸ .plain rfl
  subst hkey
  refine .ofFn fun v? => ?_
  split
  case h_3 => exact .bind (j := 0) (P := fun _ => False) (.broken _) (by omega) fun _ h => h.elim
  all_goals
    refine .seq (j := 0) (.pure trivial) (by omega) fun name? =>
      .seq (j := 0) adds_shortKey? (by omega) fun short? => ?_
    split
    · exact hplain rfl
    · refine .seq (j := 0) adds_noteLoad (by omega) fun _ => ?_
      refine .seq (j := 11) (adds_toAnyRegister (.plain rfl) (by omega)) (by omega) fun table => ?_
      have hreg : Adds small 11 (Exp.Near small) (do
          return ⟨.indexed table (← toAnyRegister ⟨.konst entry, none, none⟩) { name := name? },
            none, none⟩) :=
        .seq (j := 11) (adds_toAnyRegister hnear (by omega)) (by omega) fun _ => hplain rfl
      dsimp only
      split
      · exact hplain rfl
      · exact .ite (fun _ => hplain rfl) fun _ => hreg.mono (by omega)
      · exact hreg.mono (by omega)

theorem adds_negateCondition {pc : Nat} : Adds small k (fun _ => True) (negateCondition pc) :=
  .ofFn fun _ => .seq (j := 0) adds_instructionAt (by omega) fun _ => adds_setAt

theorem adds_testValue {cond : Bool} (h : e.Near small) (hk : 8 ≤ k) :
    Adds small k (fun pc => small → pc ≤ maxCode) (do
    let e ← dischargeToAny e
    freeExp e
    match e.register? with
    | some r => testJump .testSet Instruction.noRegister r 0 cond.toNat
    | none => broken .indexInRange) := by
  refine .bind (j := 6) (adds_dischargeToAny h (by omega)) (by omega) fun e _ =>
    .seq (j := 0) adds_freeExp (by omega) fun _ => ?_
  cases e.register? with
  | some r => exact adds_testJump (by omega)
  | none => exact .broken _

theorem adds_jumpOn {cond : Bool} (h : e.Near small) (hk : 8 ≤ k) :
    Adds small k (fun pc => small → pc ≤ maxCode) (jumpOn e cond) := by
  unfold jumpOn
  dsimp only
  split
  · refine .seq (j := 0) adds_instructionAt (by omega) fun i => .ite (fun _ => ?_) fun _ =>
      adds_testValue h hk
    exact .seq (j := 0) adds_removeLast (by omega) fun _ => adds_testJump (by omega)
  · exact adds_testValue h hk

theorem adds_goIfTrue (h : e.Near small) (hk : 9 ≤ k) : Adds small k (Exp.Near small)
    (goIfTrue e) := by
  have hend {e : Exp} (h : e.Near small) {j : Nat} (pc : Option Nat) (hpc : Near small pc) :
      Adds small j (Exp.Near small) (do
      let whenFalse ← appendJumps e.whenFalse pc
      patchToHere e.whenTrue
      return { e with whenTrue := none, whenFalse }) :=
    .bind (j := 0) (adds_appendJumps h.ifFalse hpc) (by omega) fun _ hlist =>
      .seq (j := 0) adds_patchToHere (by omega) fun _ => .pure ⟨near_none, hlist, h.jump⟩
  unfold goIfTrue
  refine .bind (j := 1) (adds_dischargeVars h (by omega)) (by omega) fun e h => ?_
  dsimp only
  split
  · rename_i pc hpc
    exact .seq (j := 0) adds_negateCondition (by omega) fun _ =>
      .bind (j := 0) (P := Near small) (.pure (near_some (h.jump pc hpc))) (by omega) (hend h)
  all_goals first
    | exact .bind (j := 0) (P := Near small) (.pure near_none) (by omega) (hend h)
    | exact .bind (j := 8) (P := Near small)
        ((adds_jumpOn h (by omega)).map fun _ hpc => near_some hpc) (by omega) (hend h)

theorem adds_goIfFalse (h : e.Near small) (hk : 9 ≤ k) : Adds small k (Exp.Near small)
    (goIfFalse e) := by
  have hend {e : Exp} (h : e.Near small) {j : Nat} (pc : Option Nat) (hpc : Near small pc) :
      Adds small j (Exp.Near small) (do
      let whenTrue ← appendJumps e.whenTrue pc
      patchToHere e.whenFalse
      return { e with whenTrue, whenFalse := none }) :=
    .bind (j := 0) (adds_appendJumps h.ifTrue hpc) (by omega) fun _ hlist =>
      .seq (j := 0) adds_patchToHere (by omega) fun _ => .pure ⟨hlist, near_none, h.jump⟩
  unfold goIfFalse
  refine .bind (j := 1) (adds_dischargeVars h (by omega)) (by omega) fun e h => ?_
  dsimp only
  split
  · rename_i pc hpc
    exact .bind (j := 0) (P := Near small) (.pure (near_some (h.jump pc hpc))) (by omega) (hend h)
  all_goals first
    | exact .bind (j := 0) (P := Near small) (.pure near_none) (by omega) (hend h)
    | exact .bind (j := 8) (P := Near small)
        ((adds_jumpOn h (by omega)).map fun _ hpc => near_some hpc) (by omega) (hend h)

theorem adds_notValue {rest : ExpKind → M Exp} (h : e.Near small) (hk : 7 ≤ k)
    (hrest : ∀ pc, Adds small (k - 7) (Exp.Near small) (rest (.relocatable pc))) : Adds small k
    (Exp.Near small) (do
      let v ← dischargeToAny e
      freeExp v
      match v.register? with
      | some r => rest (← ExpKind.relocatable <$> emitABC .not 0 r 0)
      | none => rest (← broken .notOfValue)) := by
  refine .bind (j := 6) (adds_dischargeToAny h (by omega)) (by omega) fun v _ =>
    .seq (j := 0) adds_freeExp (by omega) fun _ => ?_
  cases v.register? with
  | none => exact .bind (j := 0) (P := fun _ => False) (.broken _) (by omega) fun _ h => h.elim
  | some r =>
    refine .bind (j := 1) (P := fun kind => ∃ pc, kind = .relocatable pc)
      ((adds_emit (Nat.le_refl 1)).map fun pc _ => ⟨pc, rfl⟩)
      (by omega) fun kind hkind => ?_
    obtain ⟨pc, rfl⟩ := hkind
    exact (hrest pc).mono (by omega)

theorem adds_emitNot (h : e.Near small) (hk : 7 ≤ k) : Adds small k (Exp.Near small)
    (emitNot e) := by
  have hend {j : Nat} (kind : ExpKind) (hkind : ∀ pc, kind = .jump pc → small → pc ≤ maxCode) :
      Adds small j (Exp.Near small) (do
      removeValues e.whenTrue
      removeValues e.whenFalse
      return ⟨kind, e.whenFalse, e.whenTrue⟩) :=
    .seq (j := 0) adds_removeValues (by omega) fun _ =>
      .seq (j := 0) adds_removeValues (by omega) fun _ =>
      .pure ⟨h.ifFalse, h.ifTrue, hkind⟩
  unfold emitNot
  dsimp only
  split
  case h_8 pc hpc =>
    refine .seq (j := 0) adds_negateCondition (by omega) fun _ => ?_
    exact .bind (j := 0) (P := fun kind => kind = .jump pc) (.pure rfl) (by omega)
      fun kind hkind => hend kind fun pc' he => h.jump pc' (hpc.trans (hkind.symm.trans he))
  case h_9 | h_10 => exact adds_notValue h hk fun pc => hend _ (by rintro _ ⟨⟩)
  case h_11 => exact .bind (j := 0) (P := fun _ => False) (.broken _) (by omega) fun _ h => h.elim
  all_goals
    exact .bind (j := 0) (P := fun kind => kind.isJump = false) (.pure rfl) (by omega)
      fun kind hkind => hend kind (h.setKind hkind).jump

/-! ### Operators -/

variable {line : Nat}

theorem near_of_fold? {op : ArithOp} (h : fold? op e₁ e₂ = some e) : e.Near small := by
  obtain ⟨-, -, n, rfl⟩ := fold?_eq h
  exact Exp.near_ofNumber n

theorem adds_emitUnary {op : Opcode} (h : e.Near small) (hk : 12 ≤ k) :
    Adds small k (Exp.Near small) (emitUnary op e line) := by
  refine .seq (j := 11) (adds_toAnyRegister h (by omega)) (by omega) fun r =>
    .seq (j := 0) adds_freeExp (by omega) fun _ => ?_
  refine .bind (j := 1) (adds_emit (by omega)) (by omega) fun pc _ =>
    .seq (j := 0) adds_fixLine (by omega) fun _ => ?_
  exact .pure (.plain rfl)

theorem adds_applyUnary {op : UnaryOp} (h : e.Near small) (hk : 13 ≤ k) :
    Adds small k (Exp.Near small) (applyUnary op e line) := by
  unfold applyUnary
  refine .bind (j := 1) (adds_dischargeVars h (by omega)) (by omega) fun e h => ?_
  cases op with
  | minus | bnot =>
    dsimp only
    split
    · exact .pure (near_of_fold? ‹_›)
    · exact adds_emitUnary h (by omega)
  | len => exact adds_emitUnary h (by omega)
  | not => exact adds_emitNot h (by omega)

theorem adds_emitArith {op fallback : Opcode} {operand : Nat} {flip : Bool} {event : Event}
    {meant : List Value} (h : e₁.Near small)
    (hk : 13 ≤ k) : Adds small k (Exp.Near small)
    (emitArith op e₁ e₂ operand flip line fallback event meant) := by
  refine .seq (j := 11) (adds_toAnyRegister h (by omega)) (by omega) fun r =>
    .bind (j := 1) (adds_emit (by omega)) (by omega) fun pc _ => ?_
  refine .seq (j := 0) adds_freeExps (by omega) fun _ =>
    .seq (j := 0) adds_fixLine (by omega) fun _ => ?_
  refine .seq (j := 1) (adds_emit (by omega)).discard (by omega) fun _ =>
    .seq (j := 0) adds_fixLine (by omega) fun _ => ?_
  exact .pure (.plain rfl)

theorem adds_emitArithRegisters {op : ArithOp} (h₁ : e₁.Near small) (h₂ : e₂.Near small)
    (hk : 24 ≤ k) :
    Adds small k (Exp.Near small) (emitArithRegisters op e₁ e₂ line) :=
  .seq (j := 11) (adds_toAnyRegister h₂ (by omega)) (by omega) fun _ => adds_emitArith h₁ (by omega)

theorem adds_emitArithNegated? {op : Opcode} {event : Event} (h : e₁.Near small) (hk : 13 ≤ k) :
    Adds small k (fun e? => ∀ e, e? = some e → e.Near small)
      (emitArithNegated? op e₁ e₂ line event) := by
  unfold emitArithNegated?
  split
  · exact .pure (by rintro _ ⟨⟩)
  · refine .ite (fun _ => ?_) fun _ => .pure (by rintro _ ⟨⟩)
    refine .bind (j := 13) (adds_emitArith h (by omega)) (by omega) fun e he =>
      .seq (j := 0) adds_setLast (by omega) fun _ => ?_
    exact .pure fun e' h' => Option.some.inj h' ▸ he

theorem adds_arithChosen {op : ArithOp} {flip : Bool} {constant? : Option PoolEntry}
    (h₁ : e₁.Near small) (h₂ : e₂.Near small)
    (hk : 24 ≤ k) : Adds small k (Exp.Near small) (match constant?, arithConstantOpcode? op with
      | some k, some opcode =>
        emitArith opcode e₁ (Operand.toExp (.konst k)) k.index flip line .mmBinK (arithEvent op)
          [k.value]
      | _, _ =>
        if flip then emitArithRegisters op e₂ e₁ line else emitArithRegisters op e₁ e₂ line) := by
  split
  · exact adds_emitArith h₁ (by omega)
  · exact .ite (fun _ => adds_emitArithRegisters h₂ h₁ (by omega)) fun _ =>
      adds_emitArithRegisters h₁ h₂ (by omega)

theorem adds_emitArithConstant {op : ArithOp} {useConstant flip : Bool} (h₁ : e₁.Near small)
    (h₂ : e₂.Near small) (hk : 25 ≤ k) :
    Adds small k (Exp.Near small) (emitArithConstant op e₁ e₂ useConstant flip line) := by
  unfold emitArithConstant
  dsimp only
  split
  · exact .seq (j := 1) (adds_toConstant? (by omega)) (by omega) fun _ =>
      adds_arithChosen h₁ h₂ (by omega)
  · exact .seq (j := 0) (.pure trivial) (by omega) fun _ => adds_arithChosen h₁ h₂ (by omega)

theorem adds_commutativeOrdered {op : ArithOp} {flip : Bool} (h₁ : e₁.Near small)
    (h₂ : e₂.Near small) (hk : 25 ≤ k) :
    Adds small k (Exp.Near small) (match op, e₂.smallInteger? with
      | .add, some n => emitArithInteger .addI e₁ e₂ n flip line .add
      | _, _ => emitArithConstant op e₁ e₂ e₂.isNumeral flip line) := by
  split
  · exact adds_emitArith h₁ (by omega)
  · exact adds_emitArithConstant h₁ h₂ hk

theorem adds_emitCommutative {op : ArithOp} (h₁ : e₁.Near small) (h₂ : e₂.Near small)
    (hk : 25 ≤ k) :
    Adds small k (Exp.Near small) (emitCommutative op e₁ e₂ line) := by
  unfold emitCommutative
  cases e₁.isNumeral
  · exact adds_commutativeOrdered h₁ h₂ hk
  · exact adds_commutativeOrdered h₂ h₁ hk

theorem adds_emitBitwise {op : ArithOp} (h₁ : e₁.Near small) (h₂ : e₂.Near small) (hk : 25 ≤ k) :
    Adds small k (Exp.Near small) (emitBitwise op e₁ e₂ line) := by
  unfold emitBitwise
  cases e₁.integer?.isSome
  · exact adds_emitArithConstant h₁ h₂ hk
  · exact adds_emitArithConstant h₂ h₁ hk

theorem adds_emitConcat {r₁ r₂ : Nat} (hk : 1 ≤ k) : Adds small k (Exp.Near small)
    (emitConcat r₁ r₂ line) := by
  have hfresh : Adds small 1 (fun _ => True) (do
      discard (emitABC .concat r₁ 2 0)
      freeExp (.inReg r₂)
      fixLine line) :=
    .seq (j := 1) (adds_emit (by omega)).discard (by omega) fun _ =>
      .seq (j := 0) adds_freeExp (by omega) fun _ => adds_fixLine
  have hend {j : Nat} : Adds small j (Exp.Near small) (pure (.inReg r₁)) :=
    .pure (Exp.near_inReg r₁)
  refine .ofFn fun prev? => ?_
  cases prev? with
  | none => exact .seq (j := 1) hfresh hk fun _ => hend
  | some prev =>
    refine .ite (fun _ => ?_) fun _ => .seq (j := 1) hfresh hk fun _ => hend
    exact .seq (j := 0) adds_freeExp (by omega) fun _ =>
      .seq (j := 0) adds_setLast (by omega) fun _ => hend

theorem adds_comparison {op : Opcode} {v₁ v₂ : Exp} {a b c flag : Nat} {meant : List Value}
    (hk : 2 ≤ k) : Adds small k (Exp.Near small) (do
    freeExps v₁ v₂
    return Exp.mk (.jump (← testJump op a b c flag meant)) none none) :=
  .seq (j := 0) adds_freeExps (by omega) fun _ =>
    .bind (j := 2) (adds_testJump (by omega)) (by omega) fun pc hpc =>
    .pure ⟨near_none, near_none, fun _ he => ExpKind.jump.inj he ▸ hpc⟩

theorem adds_emitOrder {orEqual : Bool} (h₁ : e₁.Near small) (h₂ : e₂.Near small) (hk : 24 ≤ k) :
    Adds small k (Exp.Near small) (emitOrder orEqual e₁ e₂) := by
  unfold emitOrder
  dsimp only
  split
  · exact .seq (j := 11) (adds_toAnyRegister h₁ (by omega)) (by omega) fun _ =>
      adds_comparison (by omega)
  · exact .seq (j := 11) (adds_toAnyRegister h₂ (by omega)) (by omega) fun _ =>
      adds_comparison (by omega)
  · refine .seq (j := 11) (adds_toAnyRegister h₁ (by omega)) (by omega) fun _ => ?_
    exact .seq (j := 11) (adds_toAnyRegister h₂ (by omega)) (by omega) fun _ =>
      adds_comparison (by omega)

theorem adds_equalOrdered {equal : Bool} (h₁ : e₁.Near small) (h₂ : e₂.Near small) (hk : 25 ≤ k) :
    Adds small k (Exp.Near small) (do
    let r ← toAnyRegister e₁
    let comparison :=
      fun (op : Opcode) (v₂ : Exp) (operand : Nat) (isFloat : Bool) (meant : List Value) => do
      freeExps (.inReg r) v₂
      return Exp.mk (.jump (← testJump op r operand isFloat.toNat equal.toNat meant)) none none
    match e₂.smallNumber? with
    | some (n, isFloat) => comparison .eqI e₂ n isFloat []
    | none =>
      match ← toOperand e₂ with
      | .konst k => comparison .eqK (Operand.toExp (.konst k)) k.index false [k.value]
      | .reg r₂ => comparison .eq (.inReg r₂) r₂ false []) := by
  refine .seq (j := 11) (adds_toAnyRegister h₁ (by omega)) (by omega) fun r => ?_
  dsimp only
  split
  · exact adds_comparison (by omega)
  · refine .seq (j := 12) (adds_toOperand h₂ (by omega)) (by omega) fun operand => ?_
    cases operand <;> exact adds_comparison (by omega)

theorem adds_emitEqual {equal : Bool} (h₁ : e₁.Near small) (h₂ : e₂.Near small) (hk : 25 ≤ k) :
    Adds small k (Exp.Near small) (emitEqual equal e₁ e₂) := by
  unfold emitEqual
  cases e₁.register?.isSome
  · exact adds_equalOrdered h₂ h₁ hk
  · exact adds_equalOrdered h₁ h₂ hk

theorem adds_prepareLeft {op : BinaryOp} (h : e.Near small) (hk : 13 ≤ k) :
    Adds small k (Exp.Near small) (prepareLeft op e) := by
  have hreg {e : Exp} (h : e.Near small) : Adds small (k - 1) (Exp.Near small)
      (do return Exp.inReg (← toAnyRegister e)) :=
    .seq (j := 11) (adds_toAnyRegister h (by omega)) (by omega) fun r => .pure (Exp.near_inReg r)
  have hoperand {e : Exp} (h : e.Near small) : Adds small (k - 1) (Exp.Near small)
      (do return (← toOperand e).toExp) :=
    .seq (j := 12) (adds_toOperand h (by omega)) (by omega) fun o => .pure o.near_toExp
  unfold prepareLeft
  refine .bind (j := 1) (adds_dischargeVars h (by omega)) (by omega) fun e h => ?_
  cases op with
  | and => exact adds_goIfTrue h (by omega)
  | or => exact adds_goIfFalse h (by omega)
  | concat =>
    exact .seq (j := 10) (adds_toNextRegister h (by omega)) (by omega) fun r =>
      .pure (Exp.near_inReg r)
  | arith => exact .ite (fun _ => .pure h) fun _ => hreg h
  | eq | ne => exact .ite (fun _ => .pure h) fun _ => hoperand h
  | lt | le | gt | ge => exact .ite (fun _ => .pure h) fun _ => hreg h

theorem adds_emitShiftLeft (h₁ : e₁.Near small) (h₂ : e₂.Near small) (hk : 37 ≤ k) :
    Adds small k (Exp.Near small) (emitShiftLeft e₁ e₂ line) := by
  unfold emitShiftLeft
  split
  · exact adds_emitArith h₂ (by omega)
  · refine .bind (j := 13) (adds_emitArithNegated? h₁ (by omega)) (by omega) fun e? he => ?_
    cases e? with
    | some e => exact .pure (he e rfl)
    | none => exact adds_emitArithRegisters h₁ h₂ (by omega)

theorem adds_emitArithmetic {op : ArithOp} (h₁ : e₁.Near small) (h₂ : e₂.Near small) (hk : 38 ≤ k) :
    Adds small k (Exp.Near small) (emitArithmetic op e₁ e₂ line) := by
  unfold emitArithmetic
  split
  case h_3 =>
    refine .bind (j := 13) (adds_emitArithNegated? h₁ (by omega)) (by omega) fun e? he => ?_
    cases e? with
    | some e => exact .pure (he e rfl)
    | none => exact adds_emitArithConstant h₁ h₂ (by omega)
  case h_1 | h_2 => exact adds_emitCommutative h₁ h₂ (by omega)
  case h_4 | h_5 | h_6 => exact adds_emitBitwise h₁ h₂ (by omega)
  case h_7 => exact adds_emitShiftLeft h₁ h₂ (by omega)
  case h_8 =>
    split
    · exact adds_emitArith h₁ (by omega)
    · exact adds_emitArithRegisters h₁ h₂ (by omega)
  case h_9 => exact adds_emitArithConstant h₁ h₂ (by omega)

theorem adds_applyBinary {op : BinaryOp} (h₁ : e₁.Near small) (h₂ : e₂.Near small) (hk : 39 ≤ k) :
    Adds small k (Exp.Near small) (applyBinary op e₁ e₂ line) := by
  unfold applyBinary
  refine .bind (j := 1) (adds_dischargeVars h₂ (by omega)) (by omega) fun e₂ h₂ => ?_
  cases op with
  | arith op =>
    dsimp only
    split
    · exact .pure (near_of_fold? ‹_›)
    · exact adds_emitArithmetic h₁ h₂ (by omega)
  | and =>
    exact .bind (j := 0) (adds_appendJumps h₂.ifFalse h₁.ifFalse) (by omega) fun _ hlist =>
      .pure ⟨h₂.ifTrue, hlist, h₂.jump⟩
  | or =>
    exact .bind (j := 0) (adds_appendJumps h₂.ifTrue h₁.ifTrue) (by omega) fun _ hlist =>
      .pure ⟨hlist, h₂.ifFalse, h₂.jump⟩
  | concat =>
    refine .seq (j := 10) (adds_toNextRegister h₂ (by omega)) (by omega) fun r₂ => ?_
    split
    · exact adds_emitConcat (by omega)
    · exact .broken _
  | eq => exact adds_emitEqual h₁ h₂ (by omega)
  | ne => exact adds_emitEqual h₁ h₂ (by omega)
  | lt | le => exact adds_emitOrder h₁ h₂ (by omega)
  | gt | ge => exact adds_emitOrder h₂ h₁ (by omega)

end Compile

end LuaChunk
