import LuaChunk.Proofs.Compile.Assignment

set_option autoImplicit false

namespace LuaChunk

open JumpList (Code IsOp Chain)

namespace Compile

variable {F : List Pending} {base n count line : Nat} {e target : Exp} {s s₁ s' : State}
  {r : Nested}

/-! ### The end of a statement -/

/-- The state at the end of a statement, while some registers may still be in use. -/
structure Leaves (F : List Pending) (s : State) : Prop where
  settles : Settles F (s.setFree s.level)
  base : Base s
  low : s.level ≤ s.fn.freeReg

theorem Leaves.of_inv (h : Inv F none (· < s.level) s) (hl : s.level ≤ s.fn.freeReg)
    (hs : s.vars.size = s.fn.firstVar + s.fn.active) : Leaves F s :=
  ⟨.inl ⟨h.setFree (Nat.le_trans hl h.base.room), rfl, hs⟩, h.base, hl⟩

theorem Settles.leaves (h : Settles F s) : Leaves F s := by
  have hf := h.ends.free
  refine ⟨?_, h.ends.toBase, Nat.le_of_eq hf.symm⟩
  rw [State.setFree_self hf]
  exact h

theorem Rests.leaves (h : Rests F s) : Leaves F s := Settles.leaves (.inl h)

theorem Rests.keepLeaves (h : Rests F s) (hk : Keeps s s') (hl : s.level ≤ s'.fn.freeReg)
    (hi : Inv F none (· < s.level) s') : Leaves F s' := by
  rw [← hk.level] at hl hi
  exact .of_inv hi hl (by rw [hk.vars, hk.firstVar, hk.active, h.full])

def Completes (F : List Pending) (m : M Unit) (s : State) : Prop :=
  Via Advances m s fun _ s' => Leaves F s' ∧ s'.lexer.measure < s.lexer.measure

theorem Completes.of_rejoins {m : M Unit}
    (h : Via Stays m s fun _ s' => Rejoins F s s' ∧ s'.lexer.measure < s.lexer.measure) : Completes
    F m s :=
  (h.regain fun _ _ hs hq => hq.1.advances hs).mono fun _ _ _ hq => ⟨hq.1.rests.leaves, hq.2⟩

theorem Via.progress {α : Type} {R : State → State → Prop} {m : M α} {Q : α → State → Prop}
    {k : Nat}
    (hR : ∀ {s s' : State}, R s s' → s'.lexer.measure ≤ s.lexer.measure) (hk : s.lexer.measure < k)
    (h : Via R m s Q) : Via R m s fun a s' => Q a s' ∧ s'.lexer.measure < k :=
  h.mono fun _ _ hr hq => ⟨hq, Nat.lt_of_le_of_lt (hR hr) hk⟩

theorem Completes.of_taken {m : M Unit} {k : Nat} (hk : s.lexer.measure < k)
    (h : Via Advances m s fun _ s' => Leaves F s') :
    Via Advances m s fun _ s' => Leaves F s' ∧ s'.lexer.measure < k :=
  h.progress (fun hr => hr.measure) hk

/-! ### Functions -/

structure FunctionTarget (F : List Pending) (s : State) (e : Exp) (s' : State) : Prop where
  read : Read F s.level e s'
  isVariable : e.isVariable = true
  lawful : s'.Lawful e
  progress : s'.lexer.measure < s.lexer.measure

theorem functionName_spec (h : Rests F s) :
    Via Keeps functionName s fun p s' =>
      FunctionTarget F s p.1 s' := by
  refine Via.bind (takeVariable_spec h.ready) fun first s₁ hk₁ ⟨⟨h₁, hm₁⟩, hv₁, hl₁⟩ => ?_
  rw [h.free] at h₁
  refine Via.bind (Via.repeatTurn (fun e s' => FunctionTarget F s e s')
    (Q := fun e s' => FunctionTarget F s e s')
    ⟨h₁, hv₁, hl₁, hm₁⟩ h₁.toBase.progress ?_) ?_
  · rintro e s₂ h₂
    refine Via.next (Via.currentKind (Via.ite (fun _ => ?_) fun _ => Via.pure h₂))
    exact Via.bind (fieldOf_spec h₂.read) fun e' s₃ _ ⟨h₃, hm₃, hv₃, hl₃⟩ =>
      Via.pure ⟨⟨h₃, hv₃, hl₃, Nat.lt_trans hm₃ h₂.progress⟩, hm₃⟩
  · rintro e s₂ - h₂
    refine Via.next (Via.currentKind (Via.ite (fun _ => ?_) fun _ => Via.pure h₂))
    exact Via.bind (fieldOf_spec h₂.read) fun e' s₃ _ ⟨h₃, hm₃, hv₃, hl₃⟩ =>
      Via.pure ⟨h₃, hv₃, hl₃, Nat.lt_trans hm₃ h₂.progress⟩

theorem storeLast_spec (ht : s.Target base target.kind) (hl : s.level ≤ base)
    (hf : s.fn.freeReg = base + 1)
    (hi : Inv F none (· < base + 1) s) (hpos : 0 < s.fn.code.size) :
    Via Keeps (do
      storeTo target (.inReg base)
      fixLine line) s fun _ s' => s'.fn.freeReg = base ∧ Inv F none (· < base) s' := by
  refine Via.bind (storeRegister_spec (F := F) ht hl (by rw [hf]; exact hi) (.inr ⟨rfl, hf⟩))
    fun _ s₁ hk₁ ⟨hf₁, hi₁⟩ => ?_
  have hpos₁ := hk₁.code hpos
  exact Via.fixLine hi₁.base hpos₁ ⟨hf₁, hi₁.fixLine hpos₁⟩

theorem functionStatement_spec (ok : NestedOk r) (h : Rests F s) :
    Completes F (functionStatement r line) s := by
  refine Via.next (Via.pass h.inv.base fun x hx => ?_)
  have h₀ := h.setLexer hx
  refine Via.bind ((functionName_spec h₀).further fun _ => Keeps.advances) ?_
  rintro ⟨target, isMethod⟩ s₁ - ⟨hk₁, h₁, hv, hlaw, hm⟩
  refine Completes.of_taken (Nat.lt_of_lt_of_le hm hx.measure) ?_
  dsimp only
  rw [checked_eq]
  refine Via.bind ((checkReadOnly_spec h₁.toVal hlaw hv).further fun _ => Keeps.advances) ?_
  rintro _ s₂ - ⟨hk₂, ⟨writes, hs₂⟩, hconst⟩
  have h₂ : Read F (s.setLexer x).level target s₂ := hs₂ ▸ h₁.relog
  have ht := h₂.toVal.target hv hconst
  have hinv : Inv F none (· < s₂.fn.freeReg) s₂ := h₂.bareInv (Exp.unsettled hv)
  have hlow : s₂.level ≤ s₂.fn.freeReg := Nat.le_trans h₂.low h₂.base_le
  refine Via.bind ((functionBody_spec ok hinv (Nat.le_succ_of_le hlow)).further fun _ =>
    Keeps.advances) ?_
  rintro f s₃ - ⟨hk₃, h₃, -⟩
  obtain rfl := h₃.value
  refine ((storeLast_spec (ht.mono hk₃ (Nat.le_refl _)) (by rw [hk₃.level]; exact hlow) h₃.free
    h₃.inv (by rw [h₃.code]; exact Nat.succ_pos _)).further
    fun _ => Keeps.advances).mono ?_
  rintro _ s₄ - ⟨hk₄, hf₄, hi₄⟩
  have hle : s.level ≤ s₂.fn.freeReg := h₂.base_le
  refine h₀.keepLeaves (hk₁.trans (hk₂.trans (hk₃.trans hk₄))) (by rw [hf₄]; exact hle) ?_
  exact hi₄.weaken fun q hq => Nat.lt_of_lt_of_le hq hle

theorem inRegister_of_levelOf_succ {vars : Array Variable} {firstVar active : Nat} {v : Variable}
    (hv : vars[firstVar + active]? = some v)
    (hl : levelOf vars firstVar (active + 1) ≠ levelOf vars firstVar active) : v.kind.inRegister =
    true := by
  cases hr : v.kind.inRegister with
  | true => rfl
  | false =>
    refine absurd ?_ hl
    unfold levelOf
    rw [registersOf_succ hv, hr]
    rfl

/-- The newest variable is shown from the next instruction on, not already at the one that makes its
value. -/
def State.delay (s : State) (v : Variable) : State :=
  { s with fn := { s.fn with
      locals := s.fn.locals.modify v.debug fun x => { x with start := s.fn.code.size }
      scopes := s.fn.scopes.modify (s.fn.code.size - 1) List.dropLast } }

theorem Inv.delay {v : Variable} {live : Nat → Prop} {o : Option Nat} (hi : Inv F o live s)
    (hd : Tracked s.vars (s.delay v).fn.localView) : Inv F o live (s.delay v) := by
  have hscope : (s.delay v).fn.scope = s.fn.scope := by
    show FnScope.mk s.fn.firstVar s.fn.firstLabel s.fn.active (s.fn.locals.modify _ _).size _ = _
    rw [Array.size_modify]
    rfl
  have hwaiting : (s.delay v).waiting = s.waiting :=
    congrArg (waiting s.vars s.labels s.gotos) hscope
  refine ⟨{ hi.base with tracked := hd, scopes := ?_ }, hwaiting ▸ hi.sound, hwaiting ▸ hi.held⟩
  rw [hscope]
  exact hi.base.scopes

theorem localFunction_spec (ok : NestedOk r) (h : Rests F s) :
    Via Advances (localFunction r) s fun _ s' =>
    Leaves F s' ∧ s'.lexer.measure < s.lexer.measure := by
  refine Via.next (Via.ofFn (Via.next (Via.takeDeclared h.inv.base fun name number x hx => ?_)))
  have h₁ := ((Declares.start true h).setLexer hx.toPasses).declare
    (v := { kind := .regular, name := some name, declaredAt := some number }) rfl fun h => nomatch h
  refine Via.next (Via.discard (Via.declare (h.setLexer hx.toPasses).inv.base ?_))
  refine Completes.of_taken hx.progress ?_
  have hd : State.Declared _ 1 := h₁.declared
  have hl₁ := h₁.level
  generalize ht : (s.setLexer x).declare _ = s₁ at h₁ hd hl₁ ⊢
  have hfree : s₁.fn.freeReg = s.level := ht ▸ h.free
  have ha₁ : s₁.fn.active = s.fn.active := ht ▸ rfl
  refine Via.next (Via.activate h₁.ready.inv.base hd fun vars locals stores ha => ?_)
  have hinv : Inv F none (· < s₁.fn.freeReg) (s₁.rescope vars (s₁.fn.active + 1) locals stores) :=
    ha.inv h₁.ready.inv
  refine Via.next (Via.currentLine (Via.next (Via.discard ?_)))
  have hlow : (s₁.rescope vars (s₁.fn.active + 1) locals stores).level ≤ s₁.fn.freeReg + 1 := by
    rw [hfree, ← hl₁]
    exact Nat.le_of_eq ha.level
  refine ((functionBody_spec ok hinv hlow).further fun _ => Keeps.advances).mono ?_
  rintro f s₂ - ⟨hk₂, h₂, -⟩
  have hlevel : s₂.level = s.level + 1 := by
    rw [hk₂.level, ← hl₁]
    exact ha.level
  have hactive : s₂.fn.active = s.fn.active + 1 := hk₂.active.trans (congrArg (· + 1) ha₁)
  have hsize : s₂.vars.size = s₂.fn.firstVar + s₂.fn.active := by
    rw [hk₂.vars, hk₂.firstVar, hk₂.active]
    exact ha.size.trans h₁.size
  -- the new variable has a register, and so a place in the debug information
  refine Via.next (Via.ownVariable (by omega) fun v hv => Via.next (Via.here ?_))
  have hplaced := h₂.inv.base.placed
  have hbelow : levelOf s₂.vars s₂.fn.firstVar s.fn.active = s.level := by
    rw [← ha₁, ← hl₁, hk₂.vars, hk₂.firstVar]
    exact levelOf_congr fun k hk => ha.same _ (.inl (by show s₁.fn.firstVar + k < _; omega))
  have hreg : v.kind.inRegister = true := by
    refine inRegister_of_levelOf_succ hv ?_
    rw [hbelow, ← hactive, show levelOf s₂.vars s₂.fn.firstVar s₂.fn.active = s.level +
      1 from hlevel]
    omega
  have hdebug := (hplaced.reg s.fn.active v (by omega) hv hreg).2.1
  obtain ⟨xs, hxs, hlen, hstart⟩ := ha.begun
  obtain ⟨y, rfl⟩ := List.length_eq_one_iff.1 hlen
  obtain ⟨hy, hopen⟩ := hstart y (List.mem_singleton.2 rfl)
  have htracked : Tracked s₂.vars (s₂.delay v).fn.localView := by
    refine (h₂.inv.base.tracked.delay hactive.symm hv hreg ((congrArg _ hk₂.locals).trans hxs) hopen
      ?_).recode rfl
    rw [hy]
    exact h₂.code.symm
  refine Via.next (Via.modifyLocal hdebug
    ⟨{ Advances.refl _ with }, Leaves.of_inv (s := s₂.delay v) ?_ ?_ hsize⟩)
  · refine Inv.delay (h₂.inv.weaken fun q hq => ?_) htracked
    change q < s₂.level at hq
    rw [hlevel] at hq
    show q < s₁.fn.freeReg + 1
    rw [hfree]
    exact hq
  · show s₂.level ≤ s₂.fn.freeReg
    rw [hlevel, h₂.free]
    exact Nat.le_of_eq (congrArg (· + 1) hfree.symm)

/-! ### Local variables -/

theorem State.Passes.trans {x y : Lexer} (h : s.Passes x) (h' : (s.setLexer x).Passes y) :
    s.Passes y :=
  ⟨h'.failure, Nat.le_trans h'.measure h.measure, h'.tokens.trans h.tokens⟩

theorem optionalAttribute_spec {fallback : VarKind} {Q : VarKind → State → Prop} (hb : Base s)
    (h : ∀ k x, s.Passes x → k = fallback ∨ k = .const ∨ k = .toClose → Q k (s.setLexer x)) :
    Via Advances (optionalAttribute fallback) s Q := by
  have hstay : s.Passes s.lexer := ⟨hb.failure, Nat.le_refl _, rfl⟩
  refine Via.next (Via.testNext hb (by simp) (fun _ x hx => ?_) ?_)
  · refine Via.ite (fun hf => nomatch hf) fun _ =>
      Via.next (Via.takeName (hb.setLexer hx.toPasses) fun name y hy => ?_)
    have hxy := hx.toPasses.trans hy.toPasses
    refine Via.next (Via.checkNext (hb.setLexer hxy) (by simp) fun z hz => ?_)
    have hxyz := hxy.trans hz.toPasses
    refine Via.ite (fun _ => Via.pure (h _ z hxyz (.inr (.inl rfl)))) fun _ => ?_
    exact Via.ite (fun _ => Via.pure (h _ z hxyz (.inr (.inr rfl)))) fun _ => Via.semanticError rfl
  · exact Via.ite (fun _ => Via.pure (h _ _ hstay (.inl rfl))) fun hf => absurd rfl hf

/-- The names of a local declaration so far: how many there are, and the place of the one to be
closed. -/
structure LocalNames (F : List Pending) (n : Nat) (toClose : Option Nat) (s s' : State) : Prop where
  declares : Declares F true n s s'
  free : s'.fn.freeReg = s.fn.freeReg
  closes : ∀ i, toClose = some i → s.fn.active ≤ i ∧ i < s.fn.active + n ∧
    ∃ v, s'.vars[s'.fn.firstVar + i]? = some v ∧ v.kind = .toClose

theorem LocalNames.setLexer {x : Lexer} {toClose : Option Nat} (h : LocalNames F n toClose s s')
    (hx : s'.Passes x) :
    LocalNames F n toClose s (s'.setLexer x) :=
  ⟨h.declares.setLexer hx, h.free, h.closes⟩

theorem LocalNames.declare {toClose toClose' : Option Nat} {v : Variable}
    (h : LocalNames F n toClose s s')
    (hv : v.kind.inRegister = true) (hn : v.control = false)
    (hc : toClose' = toClose ∨ v.kind = .toClose ∧ toClose' = some (s'.fn.active + n)) :
    LocalNames F (n + 1) toClose' s (s'.declare v) where
  declares := h.declares.declare hv fun hv => nomatch hn.symm.trans hv
  free := h.free
  closes := by
    have hsize := h.declares.size
    have hactive := h.declares.active
    intro i hi
    rcases hc with rfl | ⟨hk, rfl⟩
    · obtain ⟨h₁, h₂, w, hw, hk⟩ := h.closes i hi
      exact ⟨h₁, by omega, w,
        (push_same v (Nat.le_refl _) _ (Array.getElem?_eq_some_iff.1 hw).1).trans hw, hk⟩
    · cases hi
      refine ⟨by omega, by omega, v, ?_, hk⟩
      rw [show (s'.declare v).vars = s'.vars.push v from rfl,
        show (s'.declare v).fn.firstVar + (s'.fn.active + n) = s'.vars.size by
          rw [hsize, Nat.add_assoc]; rfl]
      exact Array.getElem?_push_size

theorem afterName_spec {place : Nat} {toClose : Option Nat}
    {Q : Turn (Nat × Option Nat) (Nat × Nat × Option Nat) → State → Prop}
    (h : LocalNames F n toClose s s')
    (hagain : ∀ s'', LocalNames F n toClose s s'' → s''.lexer.measure ≤ s'.lexer.measure →
    Q (.again (n, toClose)) s'')
    (hdone : Q (.done (n, place, toClose)) s') :
    Via Advances (do
      if ← testNext (.char ',') then return .again (n, toClose)
      else return .done (n, place, toClose)) s' Q := by
  refine Via.next (Via.testNext h.declares.ready.inv.base (by simp) (fun _ z hz => ?_) ?_)
  · exact Via.ite (fun _ => Via.pure (hagain _ (h.setLexer hz.toPasses) hz.measure)) fun hf =>
      absurd rfl hf
  · exact Via.ite (fun hf => nomatch hf) fun _ => Via.pure hdone

theorem localNames_spec {fallback : VarKind} (h : Rests F s) (hr : fallback.inRegister = true) :
    Via Advances (localNames fallback) s fun p s' =>
      LocalNames F p.1 p.2.2 s s' ∧ ∃ k, p.1 = k + 1 ∧ p.2.1 = s.fn.active + k := by
  refine Via.repeatTurn (fun (p : Nat × Option Nat) s' => LocalNames F p.1 p.2 s s')
    (Q := fun (p : Nat × Nat × Option Nat) s' => LocalNames F p.1 p.2.2 s s' ∧ ∃ k, p.1 = k + 1 ∧
    p.2.1 = s.fn.active + k)
    ⟨.start _ h, rfl, nofun⟩ h.inv.base.progress ?_
  rintro ⟨n, toClose⟩ s₁ h₁
  refine Via.next (Via.takeDeclared h₁.declares.ready.inv.base fun name number x hx => ?_)
  refine Via.next (optionalAttribute_spec (h₁.setLexer hx.toPasses).declares.ready.inv.base
    fun kind y hy hkind => ?_)
  have hxy := hx.toPasses.trans hy
  have h₂ := h₁.setLexer hxy
  have hreg : kind.inRegister = true := by
    rcases hkind with rfl | rfl | rfl
    · exact hr
    · rfl
    · rfl
  have hm : y.measure < s₁.lexer.measure := Nat.lt_of_le_of_lt hy.measure hx.progress
  refine Via.next (Via.declare h₂.declares.ready.inv.base ?_)
  have hplace : s₁.vars.size - s₁.fn.firstVar = s.fn.active + n := by
    rw [h₁.declares.size, h₁.declares.active]
    omega
  refine Via.ite (fun hc => Via.ite (fun _ => Via.next (Via.semanticError rfl)) fun _ => ?_)
    fun _ => ?_
  · refine Via.next (Via.ofFn (Via.next (Via.pure ?_)))
    exact afterName_spec (h₂.declare hreg rfl (.inr ⟨hc, rfl⟩))
      (fun s₃ h₃ hm₃ => ⟨h₃, Nat.lt_of_le_of_lt hm₃ hm⟩)
      ⟨h₂.declare hreg rfl (.inr ⟨hc, rfl⟩), n, rfl, hplace⟩
  · refine Via.next (Via.pure ?_)
    exact afterName_spec (h₂.declare hreg rfl (.inl rfl))
      (fun s₃ h₃ hm₃ => ⟨h₃, Nat.lt_of_le_of_lt hm₃ hm⟩)
      ⟨h₂.declare hreg rfl (.inl rfl), n, rfl, hplace⟩

theorem knownValue?_spec (h : Val F base e s) :
    Via Keeps (knownValue? e) s fun v s' =>
      s' = s ∧ (v.isSome = true → s.fn.freeReg = base ∧ Inv F none (· < base) s) := by
  unfold knownValue?
  refine Via.ite (fun _ => Via.pure ⟨rfl, nofun⟩) fun hj => ?_
  obtain ⟨hT, hE⟩ := h.noJumps (Bool.eq_false_iff.2 hj)
  have hp := h.place
  have hi := h.plain hT hE
  cases hk : e.kind with
  | nil | false_ | true_ | str =>
    rw [hk] at hp hi
    exact Via.pure ⟨rfl, fun _ => ⟨hp, hp ▸ hi⟩⟩
  | int | float =>
    rw [hk] at hp hi
    exact Via.pure ⟨rfl, fun _ => ⟨hp, hp ▸ hi⟩⟩
  | constVar i =>
    rw [hk] at hp hi
    obtain ⟨hf, v, hv, -⟩ := hp
    exact Via.next (Via.variableAt (Array.getElem?_eq_some_iff.1 hv).1 fun _ _ =>
      Via.pure ⟨rfl, fun _ => ⟨hf, hf ▸ hi⟩⟩)
  | void
    | konst
    | localVar
    | upvalue
    | inReg | indexed | indexUp | indexInt | indexStr | call | vararg | jump | relocatable =>
    refine Via.pure ⟨rfl, fun hn => ?_⟩
    simp [Exp.numeral?, hk] at hn

theorem Inv.tbc {q : Nat} (hi : Inv F none (· < n) s) (hq : q < n) (hn : n ≤ s.fn.maxStack) :
    Inv F none (· < n) (s.emit (.abck .tbc q 0 0 0)) := by
  have hmax := hi.maxStack_le
  refine hi.pushABC (by omega) rfl (.inl rfl) (fun w ha _ _ _ => ⟨?_, ?_, fun r hr => .inl hr⟩)
    fun _ _ _ _ _ => Instruction.serves_of_free rfl
  · intro r hr
    obtain rfl : r = w.a := List.mem_singleton.1 hr
    omega
  · intro r hr
    obtain rfl : r = w.a := List.mem_singleton.1 hr
    omega

theorem checkToClose_spec {place : Option Nat} (h : Inv F none (· < s.level) s)
    (hl : s.level ≤ s.fn.freeReg)
    (hs : s.vars.size = s.fn.firstVar + s.fn.active)
    (hp : ∀ i, place = some i → i < s.fn.active ∧ ∃ v, s.vars[s.fn.firstVar + i]? = some v ∧
    v.kind = .toClose) :
    Via Advances (checkToClose place) s fun _ s' => Leaves F s' := by
  cases place with
  | none => exact Via.pure (.of_inv h hl hs)
  | some i =>
    obtain ⟨hi, v, hv, hk⟩ := hp i rfl
    refine Via.next (Via.markToClose h.base fun blocks hb => ?_)
    have h₁ : Inv F none (· < s.level) (s.remark blocks true) := h.remark hb
    refine Via.next (Via.registerLevel h₁.base (Nat.le_of_lt hi) (Via.discard (Via.emit ?_)))
    have hplaced := h.base.placed
    have hr : v.kind.inRegister = true := by rw [hk]; rfl
    have hq : levelOf s.vars s.fn.firstVar i < s.level := by
      rw [(hplaced.level_succ hi hv hr).1]
      exact hplaced.reg_lt hi hv hr
    exact .of_inv (Inv.tbc (s := s.remark blocks true) h₁ hq (Nat.le_trans hl h.base.room)) hl hs

theorem declareValues_spec {m : Nat} {toClose : Option Nat} (h : LocalNames F n toClose s s₁)
    (hk : Keeps s₁ s')
    (hlist : Listed F s.level m e s') :
    Via Advances (do
      adjustValues n (m, e)
      activate n
      checkToClose toClose) s' fun _ s' => Leaves F s' := by
  refine Via.bind ((adjustValues_spec _ hlist).further fun _ => Keeps.advances) ?_
  rintro _ s₂ - ⟨hk₂, hf₂, hi₂⟩
  have hkeep := hk.trans hk₂
  have hlow : s₂.level ≤ s₂.fn.freeReg := by
    rw [hf₂, hkeep.level, h.declares.level]
    exact Nat.le_add_right ..
  have h₂ := h.declares.keep hkeep ⟨hf₂ ▸ hi₂, hlow⟩
  refine Via.next (Via.activate h₂.ready.inv.base h₂.declared fun vars locals stores ha => ?_)
  have hl := Declares.activate (n := 0) stores h₂ ha hf₂
  refine checkToClose_spec hl.inv (Nat.le_of_eq hl.free.symm) hl.size fun i hi => ?_
  obtain ⟨-, hlt, v, hv, hc⟩ := h.closes i hi
  have hactive := h₂.active
  obtain ⟨w, hw, hkind⟩ := ha.kinds (s₂.fn.firstVar + i) v
    (by rw [hkeep.vars, hkeep.firstVar]; exact hv)
  exact ⟨Nat.lt_of_lt_of_eq hlt (by rw [← hactive]; rfl), w, hw, hkind.trans hc⟩

theorem Inv.modifyVariable {i : Nat} {change : Variable → Variable} {live : Nat → Prop}
    {o : Option Nat}
    (hi : Inv F o live s) (h : s.fn.firstVar + s.fn.active ≤ i)
    (hc : ∀ v, (change v).kind.isReadOnly = true) :
    Inv F o live (s.rescope (s.vars.modify i change) s.fn.active s.fn.locals s.stores) := by
  have hsame : ∀ k < s.fn.firstVar + s.fn.active, (s.vars.modify i change)[k]? = s.vars[k]? := by
    intro k hk
    rw [Array.getElem?_modify, if_neg (by omega)]
  have hp := hi.base.placed
  refine Inv.rescope (s := s) hi
    (hi.base.declarations.congr ?_
    (fun k (hk : k < s.fn.active) => hsame _ (Nat.add_lt_add_left hk _))
    (hi.base.controls.modify fun v _ _ => hc v)) (hi.base.reaches (Nat.le_refl _)) fun k hk _ =>
      hsame k hk
  rw [Array.size_modify]
  exact hp.range

theorem activateKnown_spec {k : Nat} {toClose : Option Nat} (h : Inv F none (· < s.fn.freeReg) s)
    (hf : s.fn.freeReg = s.level + k) (hs : s.vars.size = s.fn.firstVar + s.fn.active + k + 1)
    (hd : s.Declared k)
    (hlast : ∃ v, s.vars[s.fn.firstVar + s.fn.active + k]? = some v ∧ v.kind.inRegister = false)
    (hc : ∀ i, toClose = some i → i < s.fn.active + k ∧ ∃ v, s.vars[s.fn.firstVar + i]? = some v ∧
    v.kind = .toClose) :
    Via Advances (do
      activate k
      activateUnplaced 1
      checkToClose toClose) s fun _ s' => Leaves F s' := by
  refine Via.next (Via.activate h.base hd fun vars locals stores ha =>
    Via.next (Via.activateUnplaced ?_))
  have h₁ : Inv F none (· < s.fn.freeReg) (s.rescope vars (s.fn.active + k) locals stores) :=
    ha.inv h
  have hunplaced : ∀ j < 1, ∃ v, vars[s.fn.firstVar + (s.fn.active + k) + j]? = some v ∧
      v.kind.inRegister = false := by
    intro j hj
    obtain rfl : j = 0 := Nat.lt_one_iff.1 hj
    obtain ⟨v, hv, hr⟩ := hlast
    exact ⟨v, by rw [Nat.add_zero, ← Nat.add_assoc, ha.same _ (.inr (Nat.le_refl _)), hv], hr⟩
  have h₂ := h₁.activateUnplaced hunplaced
  have hlevel : levelOf vars s.fn.firstVar (s.fn.active + k + 1) = s.level + k :=
    (h₁.base.placed.extend hunplaced).2.trans ha.level
  refine checkToClose_spec ?_ (Nat.le_of_eq (hlevel.trans hf.symm)) ?_ fun i hi => ?_
  · refine h₂.weaken fun q hq => ?_
    exact Nat.lt_of_lt_of_eq hq (hlevel.trans hf.symm)
  · refine (ha.size.trans hs).trans ?_
    show _ = s.fn.firstVar + (s.fn.active + k + 1)
    omega
  · obtain ⟨hlt, v, hv, hk⟩ := hc i hi
    obtain ⟨w, hw, hkind⟩ := ha.kinds _ v hv
    exact ⟨Nat.lt_succ_of_lt hlt, w, hw, hkind.trans hk⟩

theorem Via.noteKnown {R : State → State → Prop} [Frame R] {value : Value} {Q : Unit → State → Prop}
    (h : ∀ floats, Q () { s with floats }) : Via R (Compile.noteKnown value) s Q := by
  unfold Compile.noteKnown
  split
  · exact Via.noteFloat (h _)
  · exact Via.pure (h s.floats)

/-- A local declaration whose last variable is a constant that the compiler knows. That one takes
no register. -/
theorem declareKnown_spec {k : Nat} {toClose : Option Nat} {value : Value}
    (h : LocalNames F (k + 1) toClose s s₁)
    (hk : Keeps s₁ s') (hi : Inv F none (· < s'.fn.freeReg) s') (hf : s'.fn.freeReg = s.level + k)
    (hc : ∀ v, s'.vars[s'.fn.firstVar + (s.fn.active + k)]? = some v → v.kind = .const) :
    Via Advances (do
      modifyVariable ((← ofFn (·.firstVar)) + (s.fn.active + k)) fun v =>
        { v with kind := .compileTime, value }
      activate (k + 1 - 1)
      activateUnplaced 1
      checkToClose toClose) s' fun _ s' => Leaves F s' := by
  have hactive : s'.fn.active = s.fn.active := hk.active.trans h.declares.active
  have hsize : s'.vars.size = s'.fn.firstVar + s'.fn.active + (k + 1) := by
    rw [hk.vars, hk.firstVar, hk.active]
    exact h.declares.size
  have hlevel : s'.level = s.level := hk.level.trans h.declares.level
  have hdeclared : ∀ j < k + 1, ∃ v, s'.vars[s'.fn.firstVar + s'.fn.active + j]? = some v ∧
      v.kind.inRegister = true := by
    rw [hk.vars, hk.firstVar, hk.active]
    exact h.declares.declared
  refine Via.next (Via.ofFn (Via.next ?_))
  have hplace : s'.fn.firstVar + (s.fn.active + k) = s'.fn.firstVar + s'.fn.active + k := by omega
  rw [hplace] at hc ⊢
  generalize hvars : (s'.vars.modify (s'.fn.firstVar + s'.fn.active + k) fun v =>
    { v with kind := .compileTime, value }) = vars
  have hsame : ∀ j, j ≠ s'.fn.firstVar + s'.fn.active + k → vars[j]? = s'.vars[j]? := by
    intro j hj
    rw [← hvars, Array.getElem?_modify, if_neg (Ne.symm hj)]
  have hbelow : ∀ j < s'.fn.firstVar + s'.fn.active, vars[j]? = s'.vars[j]? :=
    fun j hj => hsame j (by omega)
  have h₂ : Inv F none (· < s'.fn.freeReg)
      (s'.rescope vars s'.fn.active s'.fn.locals s'.stores) := by
    rw [← hvars]
    exact hi.modifyVariable (Nat.le_add_right _ _) fun _ => rfl
  have hnew : ∃ v, vars[s'.fn.firstVar + s'.fn.active + k]? = some v ∧
      v.kind.inRegister = false := by
    obtain ⟨v, hv, -⟩ := hdeclared k (Nat.lt_succ_self k)
    refine ⟨{ v with kind := .compileTime, value }, ?_, rfl⟩
    rw [← hvars, Array.getElem?_modify, if_pos rfl, hv]
    rfl
  refine Via.modifyVariable (by omega) ?_ ?_
  · rw [hvars]
    exact Advances.rescope (Nat.le_refl _) hbelow
  rw [hvars]
  refine activateKnown_spec (s := s'.rescope vars s'.fn.active s'.fn.locals s'.stores) h₂ ?_ ?_
    (fun j hj => ?_) ?_ fun i hi => ?_
  · rw [show (s'.rescope vars s'.fn.active s'.fn.locals s'.stores).level = s'.level from
      levelOf_congr fun j hj => hbelow _ (Nat.add_lt_add_left hj _), hlevel]
    exact hf
  · show vars.size = _
    rw [← hvars, Array.size_modify]
    exact hsize
  · obtain ⟨v, hv, hr⟩ := hdeclared j (Nat.lt_succ_of_lt hj)
    exact ⟨v, (hsame _ (Nat.ne_of_lt (Nat.add_lt_add_left hj _))).trans hv, hr⟩
  · exact hnew
  · obtain ⟨-, hlt, v, hv, hk'⟩ := h.closes i hi
    rw [← hk.vars, ← hk.firstVar] at hv
    have hne : s'.fn.firstVar + i ≠ s'.fn.firstVar + s'.fn.active + k := by
      intro he
      rw [he] at hv
      exact absurd (hk'.symm.trans (hc v hv)) (by decide)
    exact ⟨by show i < s'.fn.active + k; omega, v, (hsame _ hne).trans hv, hk'⟩

theorem declareRest_spec {k : Nat} {toClose : Option Nat} {p : Nat × Exp}
    (h : LocalNames F (k + 1) toClose s s₁)
    (hk : Keeps s₁ s') (hlist : Listed F s.level p.1 p.2 s') :
    Via Advances (do
      let v ← ownVariable (s.fn.active + k)
      let known ←
        if (k + 1 = p.1 && v.kind = .const) then knownValue? p.2 else pure none
      match known with
      | some value =>
        noteKnown value
        modifyVariable ((← ofFn (·.firstVar)) + (s.fn.active + k)) fun v =>
          { v with kind := .compileTime, value }
        activate (k + 1 - 1)
        activateUnplaced 1
      | none =>
        adjustValues (k + 1) p
        activate (k + 1)
      checkToClose toClose) s' fun _ s' => Leaves F s' := by
  have hlast : s'.fn.firstVar + (s.fn.active + k) < s'.vars.size := by
    have hactive := h.declares.active
    rw [hk.vars, hk.firstVar, h.declares.size]
    omega
  refine Via.next (Via.ownVariable hlast fun v hv => ?_)
  obtain ⟨m, e⟩ := p
  refine Via.ite (fun hc => ?_) fun _ => Via.next (Via.pure (declareValues_spec h hk hlist))
  simp only [Bool.and_eq_true, decide_eq_true_eq] at hc
  obtain ⟨rfl, hconst⟩ := hc
  obtain - | ⟨hl, hval⟩ := hlist
  refine Via.bind ((knownValue?_spec hval).weaken fun _ => Keeps.advances) ?_
  rintro known s₂ - ⟨rfl, hknown⟩
  cases known with
  | none => exact declareValues_spec h hk (.cons hl hval)
  | some value =>
    obtain ⟨hf, hi⟩ := hknown rfl
    refine Via.next (Via.noteKnown fun floats => ?_)
    have hi₂ : Inv F none (· < s₂.fn.freeReg) s₂ := hf ▸ hi
    have hi₃ : Inv F none (· < s₂.fn.freeReg) { s₂ with floats } :=
      ⟨{ hi₂.base with }, hi₂.sound, hi₂.held⟩
    refine declareKnown_spec h { hk with } hi₃ hf fun w hw => ?_
    rw [hv] at hw
    cases hw
    exact hconst

theorem localStatement_spec (ok : NestedOk r) (h : Rests F s) :
    Via Advances (localStatement r) s fun _ s' => Leaves F s' := by
  refine Via.next (optionalAttribute_spec h.inv.base fun fallback x hx hfallback => ?_)
  have h₀ := h.setLexer hx
  have hreg : fallback.inRegister = true := by
    rcases hfallback with rfl | rfl | rfl <;> rfl
  refine Via.bind (localNames_spec h₀ hreg) ?_
  rintro ⟨n, last, toClose⟩ s₁ - ⟨h₁, k, hn, hlast⟩
  obtain rfl : n = k + 1 := hn
  obtain rfl : last = s.fn.active + k := hlast
  have hfree : s₁.fn.freeReg = s.level := h₁.free.trans h.free
  refine Via.next (Via.testNext h₁.declares.ready.inv.base (by simp) (fun _ y hy => ?_) ?_)
  · have h₂ := h₁.setLexer hy.toPasses
    refine Via.ite (fun _ => ?_) fun hf => absurd rfl hf
    refine Via.bind ((expressionList_spec ok h₂.declares.ready).further fun _ => Keeps.advances) ?_
    rintro p s₃ - ⟨hk₃, hp, -⟩
    rw [show (s₁.setLexer y).fn.freeReg = s.level from hfree] at hp
    exact declareRest_spec (s := s.setLexer x) h₂ hk₃ hp.listed
  · refine Via.ite (fun hf => nomatch hf) fun _ => Via.next (Via.pure ?_)
    have hempty : Listed F s.level 0 .void s₁ :=
      .empty (Nat.le_of_eq h₁.declares.level) hfree h₁.declares.ready.inv
    exact declareRest_spec (s := s.setLexer x) h₁ (Keeps.refl s₁) hempty

/-! ### Globals -/

theorem globalAttribute_spec {fallback : VarKind} {Q : VarKind → State → Prop} (hb : Base s)
    (hf : fallback.inRegister = false)
    (h : ∀ k x, s.Passes x → k.inRegister = false → Q k (s.setLexer x)) :
    Via Advances (globalAttribute fallback) s Q := by
  refine Via.next (optionalAttribute_spec hb fun k x hx hk => ?_)
  rcases hk with rfl | rfl | rfl
  · cases k with
    | regular | const | toClose => exact nomatch hf
    | compileTime | global | constGlobal => exact Via.pure (h _ x hx rfl)
  · exact Via.pure (h _ x hx rfl)
  · exact Via.semanticError rfl

theorem Declares.rests (h : Declares F false n s s') (hf : s'.fn.freeReg = s.level) :
    Rests F (s'.rescope s'.vars (s'.fn.active + n) s'.fn.locals s'.stores) := by
  have hlevel : (s'.rescope s'.vars (s'.fn.active + n) s'.fn.locals s'.stores).level = s'.level :=
    (h.ready.inv.base.placed.extend h.declared).2
  have hfree : s'.fn.freeReg = s'.level := hf.trans h.level.symm
  refine ⟨?_, hfree.trans hlevel.symm, h.size.trans (Nat.add_assoc ..)⟩
  rw [hlevel, ← hfree]
  exact h.ready.inv.activateUnplaced h.declared

theorem Declares.activateUnplaced (h : Declares F false n s s') :
    Via Advances (Compile.activateUnplaced n) s' fun _ s'' => Leaves F s'' := by
  refine Via.activateUnplaced ?_
  have hlevel : (s'.rescope s'.vars (s'.fn.active + n) s'.fn.locals s'.stores).level = s'.level :=
    (h.ready.inv.base.placed.extend h.declared).2
  refine .of_inv ?_ (hlevel ▸ h.ready.low) (h.size.trans (Nat.add_assoc ..))
  rw [hlevel]
  exact (h.ready.inv.activateUnplaced h.declared).weaken fun q hq =>
    Nat.lt_of_lt_of_le hq h.ready.low

theorem globalNames_spec {fallback : VarKind} (ok : NestedOk r) (h : Rests F s)
    (hr : fallback.inRegister = false) :
    Via Advances (globalNames r fallback) s fun _ s' => Leaves F s' := by
  refine Via.bind (Via.repeatTurn
    (fun (names : List Bytes) s' => Declares F false names.length s s')
    (Q := fun names s' => Declares F false names.length s s') (.start _ h) h.inv.base.progress ?_)
      ?_
  · intro names s₁ h₁
    refine Via.next (Via.takeName h₁.ready.inv.base fun name x hx => ?_)
    refine Via.next (globalAttribute_spec (h₁.setLexer hx.toPasses).ready.inv.base hr
      fun kind y hy hkind => ?_)
    have h₂ := h₁.setLexer (hx.toPasses.trans hy)
    refine Via.next (Via.discard (Via.declare h₂.ready.inv.base ?_))
    have h₃ := h₂.declare (v := { kind, name := some name }) hkind fun h => nomatch h
    have hm : y.measure < s₁.lexer.measure := Nat.lt_of_le_of_lt hy.measure hx.progress
    refine Via.next (Via.testNext h₃.ready.inv.base (by simp) (fun _ z hz => ?_) ?_)
    · exact Via.ite (fun _ => Via.pure ⟨h₃.setLexer hz.toPasses, Nat.lt_trans hz.progress hm⟩)
        fun hf => absurd rfl hf
    · refine Via.ite (fun hf => nomatch hf) fun _ => Via.pure ?_
      show Declares F false (name :: names).reverse.length s _
      rw [List.length_reverse]
      exact h₃
  · intro names s₁ _ h₁
    refine Via.next (Via.testNext h₁.ready.inv.base (by simp) (fun _ x hx => ?_) ?_)
    · refine Via.ite (fun _ => Via.next (Via.currentLine ?_)) fun hf => absurd rfl hf
      have h₂ := h₁.setLexer hx.toPasses
      refine Via.bind ((initGlobals_spec ok h₂.ready (Nat.le_refl _)).further fun _ =>
        Keeps.advances) ?_
      rintro _ s₃ - ⟨hk₃, base, hbase, hf₃, hi₃⟩
      rw [Nat.sub_self, Nat.add_zero] at hf₃ hi₃
      refine (h₂.keep hk₃ ⟨hf₃ ▸ hi₃, ?_⟩).activateUnplaced
      rw [hk₃.level, hf₃]
      exact Nat.le_trans h₂.ready.low hbase
    · exact Via.ite (fun hf => nomatch hf) fun _ => h₁.activateUnplaced

theorem globalStatement_spec (ok : NestedOk r) (h : Rests F s) :
    Via Advances (globalStatement r) s fun _ s' => Leaves F s' := by
  refine Via.next (globalAttribute_spec h.inv.base rfl fun fallback x hx hfallback => ?_)
  have h₁ := h.setLexer hx
  refine Via.next (Via.testNext h₁.inv.base (by simp) (fun _ y hy => ?_) ?_)
  · refine Via.ite (fun _ => ?_) fun hf => absurd rfl hf
    have h₂ := Declares.start false (h₁.setLexer hy.toPasses)
    refine Via.next (Via.discard (Via.declare h₂.ready.inv.base ?_))
    exact (h₂.declare (v := { kind := fallback, name := none }) hfallback fun h =>
      nomatch h).activateUnplaced
  · exact Via.ite (fun hf => nomatch hf) fun _ => globalNames_spec ok h₁ hfallback

theorem globalFunction_spec (ok : NestedOk r) (h : Rests F s) :
    Completes F (globalFunction r line) s := by
  refine Via.next (Via.takeName h.inv.base fun name x hx => ?_)
  refine Completes.of_taken hx.progress ?_
  have h₁ := ((Declares.start false h).setLexer hx.toPasses).declare
    (v := { kind := .global, name := some name }) rfl fun h => nomatch h
  refine Via.next (Via.discard (Via.declare (h.setLexer hx.toPasses).inv.base ?_))
  have hrests := h₁.rests h.free
  generalize (s.setLexer x).declare { kind := .global, name := some name } = s₁ at h₁ hrests ⊢
  refine Via.next (Via.activateUnplaced ?_)
  generalize s₁.rescope s₁.vars (s₁.fn.active + 1) s₁.fn.locals s₁.stores = t at hrests ⊢
  refine Via.bind ((globalAccess_spec hrests.ready.inv hrests.ready.low).further fun _ =>
    Keeps.advances) ?_
  rintro target s₂ - ⟨hk₂, htarget, -, hnamed⟩
  have ht := htarget.toVal.target hnamed.isVariable hnamed.ne_constVar
  have hr₂ := htarget.ready hnamed
  refine Via.next (Via.currentLine ?_)
  refine Via.bind ((functionBody_spec ok hr₂.inv (Nat.le_succ_of_le hr₂.low)).further fun _ =>
    Keeps.advances) ?_
  rintro f s₃ - ⟨hk₃, h₃, -⟩
  obtain rfl := h₃.value
  have hlow₃ : s₃.level ≤ s₂.fn.freeReg := Nat.le_trans (Nat.le_of_eq hk₃.level) hr₂.low
  refine Via.bind ((checkUndefined_spec ⟨h₃.free
    ▸ h₃.inv, Nat.le_trans hlow₃ (h₃.free ▸ Nat.le_succ _)⟩).further
    fun _ => Keeps.advances) ?_
  rintro _ s₄ - ⟨hk₄, hf₄, hi₄⟩
  rw [h₃.free] at hf₄ hi₄
  have ht₄ := (ht.mono hk₃ (Nat.le_refl _)).mono hk₄ (Nat.le_refl _)
  refine ((storeLast_spec ht₄ (Nat.le_trans (Nat.le_of_eq hk₄.level) hlow₃) hf₄ hi₄
    (hk₄.code (by rw [h₃.code]; exact Nat.succ_pos _))).further fun _ => Keeps.advances).mono ?_
  rintro _ s₅ - ⟨hk₅, hf₅, hi₅⟩
  have hle : t.level ≤ s₂.fn.freeReg := hk₂.level ▸ hr₂.low
  refine hrests.keepLeaves (((hk₂.trans hk₃).trans hk₄).trans hk₅) (hf₅ ▸ hle) ?_
  exact hi₅.weaken fun q hq => Nat.lt_of_lt_of_le hq hle

/-! ### Labels and jumps -/

theorem Standing.rests (h : Standing s s') (hf : s.fn.freeReg = s.level)
    (hs : s.vars.size = s.fn.firstVar + s.fn.active)
    (hi : Inv F none (· < s.level) s') : Rests F s' where
  inv := by rw [h.level]; exact hi
  free := h.freeReg.trans (hf.trans h.level.symm)
  full := by rw [h.vars, h.firstVar, h.active, hs]

theorem Standing.ends {b : Block} {rest : List Block} (h : Standing s s')
    (hf : s.fn.freeReg = s.level)
    (hs : s.vars.size = s.fn.firstVar + s.fn.active) (hb : s'.fn.blocks = b :: rest)
    (hi : Inv F none (· < levelOf s.vars s.fn.firstVar b.level) s') : Ends F s' where
  inv := ⟨b, rest, hb, by rw [h.vars, h.firstVar]; exact hi⟩
  free := h.freeReg.trans (hf.trans h.level.symm)
  full := by rw [h.vars, h.firstVar, h.active, hs]

/-- A label at the end of a block is one for the place where the block's variables are gone. -/
theorem newLabel_spec {name : Bytes} (h : Settles F s) :
    Via Advances (do addLabel name line (← blockEnds false)) s fun _ s' => Leaves F s' := by
  refine Via.next (Via.blockEnds ?_)
  have hends := h.ends
  cases hlast : s.lexer.token.kind.closes false with
  | true =>
    obtain ⟨b, rest, hb, hi⟩ := hends.inv
    refine (addLabel_spec name line true hi hb fun q hq => hq).mono ?_
    rintro _ s' - ⟨hi', hst, hblocks, -, -, hlex⟩
    exact Settles.leaves (.inr
      ⟨by rw [hlex]; exact hlast, hst.ends hends.free hends.full (hblocks.trans hb) hi'⟩)
  | false =>
    have hrests := h.rests hlast
    obtain ⟨b, rest, hb⟩ := hrests.inv.base.blocks_eq
    refine (addLabel_spec name line false hrests.inv hb fun q hq => hq).mono ?_
    rintro _ s' - ⟨hi', hst, -⟩
    exact (hst.rests hrests.free hrests.full hi').leaves

theorem labelStatement_spec {name : Bytes} (ok : NestedOk r) (h : Rests F s) :
    Via Advances (labelStatement r name line) s fun _ s' => Leaves F s' := by
  refine Via.next (Via.checkNext h.inv.base (by simp) fun x hx => ?_)
  have h₁ := h.setLexer hx.toPasses
  refine Via.bind (Via.repeatTurn (fun (_ : Unit) s' => Settles F s')
    (Q := fun _ s' => Settles F s') (.inl h₁)
    h₁.inv.base.progress fun _ s₂ h₂ => ?_) fun _ s₃ _ h₃ => ?_
  · refine Via.next (Via.currentKind (Via.ite (fun hk => ?_) fun _ => Via.pure h₂))
    have hr : Rests F s₂ := h₂.rests (by
      simp only [Bool.or_eq_true, decide_eq_true_eq] at hk
      rcases hk with hk | hk <;> rw [hk] <;> rfl)
    exact Via.bind (ok.statement hr) fun _ s₃ _ ⟨h₃, hm₃⟩ => Via.pure ⟨h₃, hm₃⟩
  · refine Via.next (Via.get ?_)
    split
    · exact Via.semanticError rfl
    · exact newLabel_spec h₃

theorem gotoRest_spec {name : Bytes} (h : Rests F s) :
    Via Advances (addGoto name line) s fun _ s' => Leaves F s' := by
  have hlevel := h.level_le
  refine (addGoto_spec (· < s.level) h.inv (fun q hq => hq) fun q hq =>
    Nat.lt_of_lt_of_le hq hlevel).mono ?_
  rintro _ s' - ⟨hi, hst⟩
  exact (hst.rests h.free h.full hi).leaves

theorem breakStatement_spec (h : Rests F s) (hk : s.lexer.token.kind ≠ .eos) :
    Completes F (breakStatement line) s := by
  refine Via.next (Via.markBroken (fun blocks hb => ?_) ?_)
  · refine Via.ite (fun hf => nomatch hf) fun _ => ?_
    have h₁ : Rests F (s.remark blocks s.fn.needClose) := ⟨h.inv.remark hb, h.free, h.full⟩
    refine Via.next (Via.take h₁.inv.base hk fun x hx => ?_)
    exact Completes.of_taken hx.progress (gotoRest_spec (h₁.setLexer hx.toPasses))
  · exact Via.ite (fun _ => Via.next Via.syntaxError) fun hf => absurd rfl hf

/-! ### Returns -/

theorem returnRest_spec {first : Nat} {count : Option Nat} {live : Nat → Prop} (h : Rests F s)
    (hk : Keeps s s')
    (hl : s.level ≤ s'.fn.freeReg) (hi : Inv F none live s')
    (hf : match count with
      | none => first < s'.fn.maxStack
      | some n => first + n ≤ s'.fn.maxStack ∧ ∀ r, first ≤ r → r < first + n → live r) :
    Via Advances (do
      emitReturn first count
      discard (testNext (.char ';'))) s' fun _ s' => Leaves F s' := by
  have hlevel := h.level_le
  refine Via.bind
    ((emitReturn_spec (· < s.level) hi (fun q hq => Nat.lt_of_lt_of_le hq hlevel) hf).further
    fun _ hc => hc.toKeeps.advances) ?_
  rintro _ s₂ - ⟨hk₂, hi₂, -⟩
  have hkeep := hk.trans hk₂.toKeeps
  have hleaves : ∀ s₃, Coded s₂ s₃ → Inv F none (· < s.level) s₃ → Leaves F s₃ := fun s₃ hk₃ hi₃ =>
    h.keepLeaves (hkeep.trans hk₃.toKeeps) (by rw [hk₃.freeReg, hk₂.freeReg]; exact hl) hi₃
  refine Via.discard (Via.testNext hi₂.base (by simp) (fun _ x hx => ?_)
    (hleaves s₂ (Coded.refl s₂) hi₂))
  exact hleaves _ (Coded.setLexer hx.toPasses) (hi₂.setLexer hx.toPasses)

theorem Inv.tailCall {live : Nat → Prop} {pc : Nat} (h : Inv F none live s)
    (hend : s.EndsWith pc .call base 0)
    (hlive : ∀ q, live q → q < 255) : Inv F none live
    (s.setAt pc [(.opcode, Opcode.tailCall.number)]) := by
  obtain ⟨hpc, hL, i, hi, hop, -, -⟩ := hend
  have hfits : Instruction.Field.opcode.fits Opcode.tailCall.number = true := by decide
  have hop' : (i.setAll [(.opcode, Opcode.tailCall.number)]).opcode? = some .tailCall := by
    have : (i.setAll [(.opcode, Opcode.tailCall.number)]).opcode = Opcode.tailCall.number :=
      Instruction.get_set_fits i hfits (by decide) (by decide)
    rw [Instruction.opcode?, this, Opcode.ofNumber?_number]
  refine Inv.setAt h.base (by simp [hfits]) (h.sound.editTail hpc hi hop hop' ?_ ?_ hlive hL)
    (.modify_free hi hop hop' rfl rfl) h.held
  · exact Instruction.get_setAll_apart .a _ i rfl
  · exact Instruction.get_setAll_apart .b _ i rfl

theorem returnStatement_spec (ok : NestedOk r) (h : Rests F s) :
    Via Advances (returnStatement r) s fun _ s' => Leaves F s' := by
  refine Via.next (Via.activeRegisters h.inv.base
    (Via.next (Via.blockEnds (Via.next (Via.currentKind ?_)))))
  have hroom := h.inv.base.room
  rw [h.free] at hroom
  refine Via.ite (fun _ => ?_) fun _ => ?_
  · exact returnRest_spec h (Keeps.refl s) (Nat.le_of_eq h.free.symm) h.inv
      ⟨hroom, fun q hq hq' => by omega⟩
  refine Via.bind ((expressionList_spec ok h.ready).further fun _ => Keeps.advances) ?_
  rintro ⟨n, e⟩ s₁ - ⟨hk₁, ⟨k, hn, hread, hbase⟩, -⟩
  obtain rfl : n = k + 1 := hn
  rw [h.free] at hread hbase
  refine Via.ite (fun hmulti => ?_) fun _ => Via.ite (fun hone => ?_) fun _ => ?_
  · refine Via.bind ((setOpenReturns_spec hread.toVal hmulti).further fun _ => Keeps.advances) ?_
    rintro _ s₂ - ⟨hk₂, hi₂, hf₂, hend⟩
    have hroom₂ := hi₂.base.room
    have hstack := hi₂.maxStack_le
    have hrest : ∀ s₃, Coded s₂ s₃ → Inv F none (· < s.level + k) s₃ → Via Advances (do
        emitReturn s.level none
        discard (testNext (.char ';'))) s₃ fun _ s' => Leaves F s' := by
      intro s₃ hk₃ hi₃
      have hf₃ : s₃.fn.freeReg = s.level + k + 1 := hk₃.freeReg.trans hf₂
      have hroom₃ := hi₃.base.room
      exact returnRest_spec h ((hk₁.trans hk₂).trans hk₃.toKeeps) (by omega) hi₃
        (by show _ < _; omega)
    cases hkind : e.kind with
    | call pc =>
      obtain ⟨b, rest, hb⟩ := hi₂.base.blocks_eq
      have hcall := hend pc hkind
      refine Via.next (Via.currentBlock hb
        (Via.ite (fun _ => ?_) fun _ => hrest _ (Coded.refl s₂) hi₂))
      refine Via.next (Via.setAt (Nat.lt_of_succ_le (Nat.le_of_eq hcall.1)) ?_)
      exact hrest _ (Coded.setAt ..) (hi₂.tailCall hcall fun q hq => by omega)
    | _ => exact hrest _ (Coded.refl s₂) hi₂
  · obtain rfl : k = 0 := Nat.succ.inj hone
    refine Via.bind ((toAnyRegister_spec hread.toVal).further fun _ => Keeps.advances) ?_
    rintro q s₂ - ⟨hk₂, hval⟩
    have hlow := hval.base_le
    have hlt := hval.slot.lt hval.low
    have hroom₂ := hval.room
    refine returnRest_spec h (hk₁.trans hk₂) (by omega) hval.inv_inReg
      ⟨by omega, fun q' hq hq' => ?_⟩
    omega
  · refine Via.next (Via.discard
      (((toNextRegister_spec hread.toVal).further fun _ => Keeps.advances).mono ?_))
    rintro q s₂ - ⟨hk₂, -, hf₂, hval⟩
    have hi₂ := hval.inv_inReg
    have hroom₂ := hval.room
    exact returnRest_spec h (hk₁.trans hk₂) (by omega) hi₂ ⟨by omega, fun q' _ hq' => by omega⟩

/-! ### Assignments and calls -/

theorem expressionStatement_spec (ok : NestedOk r) (h : Rests F s) :
    Completes F (expressionStatement r) s := by
  refine Via.bind ((suffixed_spec ok h.ready).further fun _ => Keeps.advances) ?_
  rintro e s₁ - ⟨hk₁, ⟨hread, hm₁⟩, hlaw⟩
  refine Completes.of_taken hm₁ (Via.next (Via.currentKind (Via.ite (fun _ => ?_) fun _ => ?_)))
  · have hassign : Via Keeps (assignRest r e []) s₁ _ := assignRest_spec ok hread hlaw nofun
    refine Via.discard ((hassign.further fun _ => Keeps.advances).mono ?_)
    rintro rest s₂ - ⟨hk₂, hlen, base, hassigns⟩
    obtain ⟨hf₂, hi₂⟩ := hassigns.holds
    rw [hlen] at hf₂ hi₂
    have hkeep := hk₁.trans hk₂
    have hlow : s.level ≤ base := hkeep.level ▸ hassigns.low
    exact h.keepLeaves hkeep (hf₂ ▸ hlow) (hi₂.weaken fun q hq => Nat.lt_of_lt_of_le hq hlow)
  · cases hkind : e.kind with
    | call pc =>
      have hp := hread.toVal.place
      rw [hkind] at hp
      obtain ⟨hf, hend⟩ := hp
      have hi := hread.toVal.bareInv (by rw [hkind]; rfl)
      rw [hf] at hi
      have hroom := hi.base.room
      have hcall : Inv F none (· < s.fn.freeReg) (s₁.setAt pc [(.c, 1)]) ∧ _ :=
        hi.setCall hend (by decide) (by omega) fun q hq => hq
      refine Via.setAt (Nat.lt_of_succ_le (Nat.le_of_eq hend.1)) ?_
      refine h.keepLeaves (hk₁.trans (Coded.setAt ..).toKeeps) ?_ (h.free ▸ hcall.1)
      have hfree := h.free
      show s.level ≤ s₁.fn.freeReg
      omega
    | _ => exact Via.syntaxError

/-! ### Statements -/

theorem statementBody_spec (ok : NestedOk r) (h : Rests F s) :
    Completes F (statementBody r line) s := by
  have hb := h.inv.base
  -- a statement without a block, after its first word
  have hword : ∀ {m : M Unit}, s.lexer.token.kind ≠ .eos →
      (∀ x, s.Takes x → Via Advances m (s.setLexer x) fun _ s' => Leaves F s') →
        Completes F (do next; m) s :=
    fun hk hm => Via.next (Via.take hb hk fun x hx => Completes.of_taken hx.progress (hm x hx))
  refine Via.next (Via.currentKind ?_)
  split
  · exact Completes.of_rejoins (ifStatement_spec ok h)
  · exact Completes.of_rejoins (whileStatement_spec ok h)
  · rename_i hk
    refine Via.next (Via.take hb (by rw [hk]; simp) fun x hx => Completes.of_taken hx.progress ?_)
    have h₁ := h.setLexer hx.toPasses
    refine Via.bind (((block_spec ok h₁).further fun _ => id).regain fun _ _ _ hq =>
      hq.2.advances hq.1) ?_
    rintro _ s₂ - ⟨-, h₂⟩
    refine Via.checkMatch h₂.rests.inv.base (by simp) fun _ y hy => ?_
    exact (h₂.rests.setLexer hy.toPasses).leaves
  · exact Completes.of_rejoins (forStatement_spec ok h)
  · exact Completes.of_rejoins (repeatStatement_spec ok h)
  · exact functionStatement_spec ok h
  · rename_i hk
    refine hword (by rw [hk]; simp) fun x hx => ?_
    have h₁ := h.setLexer hx.toPasses
    refine Via.next (Via.testNext h₁.inv.base (by simp) (fun _ y hy => ?_) ?_)
    · refine Via.ite (fun _ => ?_) fun hf => absurd rfl hf
      exact (localFunction_spec ok (h₁.setLexer hy.toPasses)).mono fun _ _ _ hq => hq.1
    · exact Via.ite (fun hf => absurd hf Bool.false_ne_true) fun _ => localStatement_spec ok h₁
  · rename_i hk
    refine hword (by rw [hk]; simp) fun x hx => ?_
    have h₁ := h.setLexer hx.toPasses
    refine Via.next (Via.testNext h₁.inv.base (by simp) (fun _ y hy => ?_) ?_)
    · refine Via.ite (fun _ => ?_) fun hf => absurd rfl hf
      exact (globalFunction_spec ok (h₁.setLexer hy.toPasses)).mono fun _ _ _ hq => hq.1
    · exact Via.ite (fun hf => absurd hf Bool.false_ne_true) fun _ => globalStatement_spec ok h₁
  · rename_i hk
    refine hword (by rw [hk]; simp) fun x hx => ?_
    refine Via.next (Via.takeName (h.setLexer hx.toPasses).inv.base fun name y hy => ?_)
    exact labelStatement_spec ok ((h.setLexer hx.toPasses).setLexer hy.toPasses)
  · rename_i hk
    exact hword (by rw [hk]; simp) fun x hx => returnStatement_spec ok (h.setLexer hx.toPasses)
  · rename_i hk
    exact breakStatement_spec h (by rw [hk]; simp)
  · rename_i hk
    refine hword (by rw [hk]; simp) fun x hx => ?_
    refine Via.next (Via.takeName (h.setLexer hx.toPasses).inv.base fun name y hy => ?_)
    exact gotoRest_spec ((h.setLexer hx.toPasses).setLexer hy.toPasses)
  · refine Via.ite (fun hk => ?_) fun _ => expressionStatement_spec ok h
    refine Via.take hb (by rw [hk]; simp) fun x hx => ⟨(h.setLexer hx.toPasses).leaves, hx.progress⟩

theorem statement_spec (ok : NestedOk r) (h : Rests F s) :
    Via Advances (statement r) s fun _ s' => Settles F s' ∧ s'.lexer.measure < s.lexer.measure := by
  refine Via.next (Via.currentLine (Via.bind (statementBody_spec ok h) ?_))
  rintro _ s₁ - ⟨h₁, hm₁⟩
  refine Via.next
    (Via.get (Via.next (Via.activeRegisters h₁.base (Via.ite (fun hc => ?_) fun _ => ?_))))
  · have hlow := h₁.low
    have hroom := h₁.base.room
    simp only [Bool.or_eq_true, decide_eq_true_eq] at hc
    omega
  · exact Via.setFreeReg ⟨h₁.settles, hm₁⟩

end Compile

end LuaChunk
