import LuaChunk.Proofs.Compile.Block

set_option autoImplicit false

namespace LuaChunk

open JumpList (Code IsOp Chain)

namespace Compile

variable {F F' : List Pending} {s s' t : State} {live live' : Nat → Prop} {o : Option Nat}
  {b : Block}
  {rest blocks : List Block} {R : State → State → Prop}

/-! ### What the code of a function leaves to the functions around it -/

/-- What the actions on a function keep of the functions around it. -/
structure Nests (s s' : State) : Prop extends Logs s s' where
  measure : s'.lexer.measure ≤ s.lexer.measure
  bound : s'.bound = s.bound
  items : s'.maxItems = s.maxItems
  outer : CapturedAll s.outer s'.outer
  late : s.lateLoad = true → s'.lateLoad = true
  firstVar : s'.fn.firstVar = s.fn.firstVar
  firstLabel : s'.fn.firstLabel = s.fn.firstLabel
  blocks : s'.fn.blocks.map Block.scope = s.fn.blocks.map Block.scope
  vars : ∀ k < s.fn.firstVar, s'.vars[k]? = s.vars[k]?
  labels : s.fn.firstLabel ≤ s.labels.size →
    s.fn.firstLabel ≤ s'.labels.size ∧ ∀ k < s.fn.firstLabel, s'.labels[k]? = s.labels[k]?
  gotos : s.fn.scope.firstGoto ≤ s.gotos.size →
    s.fn.scope.firstGoto ≤ s'.gotos.size ∧ ∀ k < s.fn.scope.firstGoto, s'.gotos[k]? = s.gotos[k]?

namespace Nests

theorem refl (s : State) : Nests s s where
  toLogs := .refl s
  measure := Nat.le_refl _
  bound := rfl
  items := rfl
  outer := CapturedAll.refl _
  late h := h
  firstVar := rfl
  firstLabel := rfl
  blocks := rfl
  vars _ _ := rfl
  labels h := ⟨h, fun _ _ => rfl⟩
  gotos h := ⟨h, fun _ _ => rfl⟩

theorem firstGoto (h : s'.fn.blocks.map Block.scope = s.fn.blocks.map Block.scope) :
    s'.fn.scope.firstGoto = s.fn.scope.firstGoto := by
  show ((s'.fn.blocks.map Block.scope).getLast?.map (·.firstGoto)).getD 0 = _
  rw [h]
  rfl

theorem trans (h : Nests s t) (h' : Nests t s') : Nests s s' where
  toLogs := h.toLogs.trans h'.toLogs
  measure := Nat.le_trans h'.measure h.measure
  bound := h'.bound.trans h.bound
  items := h'.items.trans h.items
  outer := h.outer.trans h'.outer
  late hl := h'.late (h.late hl)
  firstVar := h'.firstVar.trans h.firstVar
  firstLabel := h'.firstLabel.trans h.firstLabel
  blocks := h'.blocks.trans h.blocks
  vars k hk := (h'.vars k (by rw [h.firstVar]; exact hk)).trans (h.vars k hk)
  labels hs := by
    obtain ⟨h₁, h₂⟩ := h.labels hs
    obtain ⟨h₃, h₄⟩ := h'.labels (by rw [h.firstLabel]; exact h₁)
    rw [h.firstLabel] at h₃ h₄
    exact ⟨h₃, fun k hk => (h₄ k hk).trans (h₂ k hk)⟩
  gotos hs := by
    obtain ⟨h₁, h₂⟩ := h.gotos hs
    obtain ⟨h₃, h₄⟩ := h'.gotos (by rw [firstGoto h.blocks]; exact h₁)
    rw [firstGoto h.blocks] at h₃ h₄
    exact ⟨h₃, fun k hk => (h₄ k hk).trans (h₂ k hk)⟩

end Nests

theorem Advances.nests (h : Advances s s') : Nests s s' where
  toLogs := h.toLogs
  measure := h.measure
  bound := h.bound
  items := h.items
  outer := h.outer
  late := h.late
  firstVar := h.firstVar
  firstLabel := h.firstLabel
  blocks := h.blocks
  vars k hk := h.vars k (by omega)
  labels hs := ⟨Nat.le_trans hs h.labels.1, fun k hk => h.labels.2 k (by omega)⟩
  gotos hs := ⟨Nat.le_trans hs h.gotos.1, fun k hk => h.gotos.2 k (by omega)⟩

instance : Steps Nests := ⟨Nests.refl, Nests.trans, fun h => h.toLogs⟩

instance : Frame Nests := ⟨fun h => h.toKeeps.advances.nests⟩

instance : Wide Nests := ⟨fun h => h.advances.nests⟩

instance : Declaring Nests := ⟨Advances.nests⟩

/-! ### The start of a function -/

theorem sound_start {n params : Nat} (late : Bool) (hn : n ≤ 254) (hp : params ≤ maxLocals) :
    Sound ⟨#[], [], 0, n, params⟩ late [] none (· < params) where
  shape := {
    first := fun ⟨i, hi, _⟩ => nomatch hi
    next := fun p i hi => nomatch hi
    jumps := fun p i hi => nomatch hi
    numeric := fun p ⟨i, hi, _⟩ => nomatch hi
    generic := fun p ⟨i, hi, _⟩ => nomatch hi
    holds := fun x hx => nomatch hx
    nodup := List.nodup_nil
    last := Nat.le_refl _
    reloc := fun pc hpc => nomatch hpc }
  bounds := {
    registers := fun p i hi => nomatch hi
    loops := fun _ _ _ _ hx => nomatch hx
    returns := fun p i hi => nomatch hi }
  stack := hn
  cert _ := by
    have hno : ∀ {p q ws}, ¬ Step #[] [] p q ws := fun ⟨i, hi, _⟩ => nomatch hi
    refine ⟨fun p r => p = 0 ∧ r < params, ?_⟩
    exact {
      entry := fun r h => h.2
      small := fun p r h => Nat.lt_of_lt_of_le h.2 (Nat.le_trans hp (by decide))
      reads := fun p i hi => nomatch hi
      step := fun p q ws h => absurd h hno
      bounded := fun p q ws h => absurd h hno
      enters := fun p q ws h => absurd h hno
      assigned := fun x hx => nomatch hx
      tests := fun q i hq hi => nomatch hi
      rooms := fun pc l hx => nomatch hx
      straight := fun pc hpc => nomatch hpc
      live := fun r h => ⟨rfl, h⟩ }

def State.startFn (s : State) (line : Nat) : State :=
  { s with
    nextId := s.nextId + 1
    stores := (s.stores.push (.nested s.fn.id s.nextId)).push (.source s.nextId s.lexer.source)
    fn := { Builder.start s.nextId line s.vars.size s.labels.size with
      blocks := [⟨s.labels.size, s.gotos.size, 0, .none, false, false⟩] }
    outer := s.fn :: s.outer }

theorem startNested_eq {line : Nat} (h : s.fn.nested.size < Instruction.maxBx) :
    startNested line s = .ok () (s.startFn line) := by
  unfold startNested
  refine (bind_eq (m := ofFn _) (a := s.fn.nested.size) (t := s) rfl).trans ?_
  rw [if_neg (Nat.not_le_of_lt h)]
  rfl

theorem State.startFn_waiting (line : Nat) : (s.startFn line).waiting = [] := by
  show (s.gotos.toList.drop s.gotos.size).map _ ++ (s.labels.toList.drop s.labels.size).map _ = []
  rw [List.drop_eq_nil_of_le (by simp), List.drop_eq_nil_of_le (by simp)]
  rfl

theorem Base.startFn {line : Nat} (hb : Base s) : Base (s.startFn line) where
  failure := hb.failure
  progress := hb.progress
  scopes := {
    placed := ⟨Nat.le_refl _, fun k v hk => absurd hk (Nat.not_lt_zero k)⟩
    outermost := ⟨_, rfl, rfl, rfl, rfl⟩
    sorted := List.pairwise_singleton ..
    inside := by
      intro b hm
      cases List.mem_singleton.1 hm
      exact ⟨Nat.le_refl _, Nat.le_refl _, Nat.le_refl _⟩
    within := by
      intro k g hg b hm hk
      cases List.mem_singleton.1 hm
      exact Nat.zero_le _
    labels := by
      intro k l hk hl
      have := (Array.getElem?_eq_some_iff.1 hl).1
      exact absurd this (Nat.not_lt_of_le hk)
    gotos := by
      intro k g hk hg
      have := (Array.getElem?_eq_some_iff.1 hg).1
      exact absurd this (Nat.not_lt_of_le hk) }
  enclosed :=
    ⟨Nat.le_refl _, ⟨_, List.mem_singleton.2 rfl, rfl⟩, Nat.zero_le _, (fun he => nomatch he),
      hb.enclosed⟩
  linked := by
    refine ⟨⟨fun i u hu => (nomatch hu), fun i j u w hu _ => (nomatch hu)⟩, fun g hg => ?_,
      hb.linked⟩
    cases hg
    exact ⟨_, hb.placed⟩
  tracked := .empty _
  controls := hb.controls
  lexical := hb.lexical
  stack := Nat.le_refl _
  room := Nat.zero_le _
  lines := ⟨rfl, rfl⟩
  pool := Nat.zero_le _
  known k tag := nofun
  params := Nat.zero_le _
  nested := Nat.zero_le _
  functions p hp := absurd hp (Array.not_mem_empty p)
  refers := .nil _
  meaning := .nil _
  adopts p hp := absurd hp List.not_mem_nil
  fits := hb.fits
  items := hb.items
  closings := hb.closings
  recorded p hp := absurd hp (Array.not_mem_empty p)

theorem Inv.startFn {line : Nat} (hi : Inv F o live s) : Inv [] none (· < 0) (s.startFn line) := by
  refine ⟨hi.base.startFn, ?_, ?_⟩
  · rw [State.startFn_waiting]
    exact sound_start _ (show 2 ≤ 254 by decide) (Nat.zero_le _)
  · rw [State.startFn_waiting]
    exact Holding.nothing

/-! ### Parameters -/

/-- A function without code, with `n` declarations that are not active yet. -/
structure Blank (s : State) (n : Nat) : Prop where
  inv : Inv [] none (· < 0) s
  code : s.fn.view = ⟨#[], [], 0, s.fn.maxStack, s.fn.numParams⟩
  waiting : s.waiting = []
  free : s.fn.freeReg = 0
  level : s.level = s.fn.active
  size : s.vars.size = s.fn.firstVar + s.fn.active + n
  declared : s.Declared n

namespace Blank

variable {n : Nat}

theorem start (line : Nat) (hi : Inv F o live s) : Blank (s.startFn line) 0 where
  inv := hi.startFn
  code := rfl
  waiting := State.startFn_waiting line
  free := rfl
  level := rfl
  size := rfl
  declared k hk := absurd hk (Nat.not_lt_zero k)

theorem setLexer {l : Lexer} (h : Blank s n) (hl : s.Passes l) : Blank (s.setLexer l) n :=
  { h with inv := h.inv.setLexer hl }

theorem declare (h : Blank s n) {v : Variable} (hv : v.kind.inRegister = true)
    (hc : v.control = false) :
    Blank (s.declare v) (n + 1) where
  inv := h.inv.declare v fun hv => nomatch hc.symm.trans hv
  code := h.code
  waiting := by
    have hp := h.inv.base.placed.range
    have hw := @State.rescope_waiting s (s.vars.push v) s.fn.active s.fn.locals s.stores h.inv.base
      (h.inv.base.reaches (Nat.le_refl _)) fun k hk _ => push_same v hp k hk
    exact hw.trans h.waiting
  free := h.free
  level := by
    refine Eq.trans ?_ h.level
    have hp := h.inv.base.placed.range
    exact levelOf_congr fun k (hk : k < s.fn.active) =>
      push_same v hp _ (by show s.fn.firstVar + k < _; omega)
  size := by
    have := h.size
    show (s.vars.push v).size = _
    rw [Array.size_push, this]
    rfl
  declared := by
    intro k hk
    show ∃ w, (s.vars.push v)[s.fn.firstVar + s.fn.active + k]? = some w ∧ _
    rw [Array.getElem?_push, h.size]
    by_cases hkn : k = n
    · subst hkn
      exact ⟨v, if_pos rfl, hv⟩
    · rw [if_neg (by omega)]
      exact h.declared k (by omega)

theorem activate {vars : Array Variable} {locals : Array Span} (stores : Array Store)
    (h : Blank s n)
    (ha : Activated s n vars locals) : Blank (s.rescope vars (s.fn.active + n) locals stores) 0
    where
  inv := ha.inv h.inv
  code := h.code
  waiting := by
    rw [State.rescope_waiting h.inv.base (h.inv.base.reaches (Nat.le_add_right _ _)) fun k hk _ =>
      ha.same k (.inl hk)]
    exact h.waiting
  free := h.free
  level := ha.level.trans (by rw [h.level]; rfl)
  size := ha.size.trans (by rw [h.size, Nat.add_assoc]; rfl)
  declared k hk := absurd hk (Nat.not_lt_zero k)

end Blank

def State.setParams (s : State) (n : Nat) : State := { s with fn := { s.fn with numParams := n } }

theorem Blank.setParams (h : Blank s 0) : Inv [] none (· < s.level) (s.setParams s.fn.active) := by
  have hle : s.fn.active ≤ maxLocals := by
    rw [← h.level]
    exact h.inv.base.placed.level_le (Nat.le_refl _)
  refine ⟨{ h.inv.base with params := hle }, ?_, h.inv.held⟩
  have hview : (s.setParams s.fn.active).fn.view = ⟨#[], [], 0, s.fn.maxStack, s.fn.active⟩ := by
    have hc := h.code
    unfold Builder.view at hc ⊢
    simp only [CodeView.mk.injEq] at hc
    simp only [State.setParams, hc]
  rw [hview, show (s.setParams s.fn.active).waiting = [] from h.waiting, h.level]
  exact sound_start _ h.inv.maxStack_le hle

def State.setVararg (s : State) : State := { s with fn := { s.fn with isVararg := true } }

theorem Inv.setVararg (hi : Inv F o live s) : Inv F o live s.setVararg :=
  ⟨{ hi.base with }, hi.sound, hi.held⟩

theorem Nests.setParams (n : Nat) : Nests s (s.setParams n) := { Nests.refl s with }

theorem Nests.setVararg : Nests s s.setVararg := { Nests.refl s with }

theorem Inv.pushVarargPrep {n : Nat} (hi : Inv F none live s) (hn : n ≤ maxLocals) :
    Inv F none live (s.setVararg.emit (.abck .varargPrep n 0 0 0)) := by
  have : maxLocals = 200 := rfl
  refine hi.setVararg.pushABC (by omega) rfl (.inl rfl)
    (fun w ha _ _ _ => ⟨?_, ?_, fun r hr => .inl hr⟩)
    fun _ _ _ _ _ => Instruction.serves_of_free rfl
  · intro r hr
    exact nomatch hr
  · intro r hr
    exact nomatch hr

theorem Via.setVararg {n : Nat} {Q : Unit → State → Prop} (hi : Inv F none live s)
    (hn : n ≤ maxLocals)
    (h : Inv F none live (s.setVararg.emit (.abck .varargPrep n 0 0 0)) →
      Q () (s.setVararg.emit (.abck .varargPrep n 0 0 0))) :
    Via Nests (Compile.setVararg n) s Q :=
  Via.next ⟨Nests.setVararg, Via.discard (Via.emit (h (hi.pushVarargPrep hn)))⟩

theorem parameters_turn {n : Nat} (h : Blank s n) {Q : Turn Nat (Nat × Bool) → State → Prop}
    (hagain : ∀ s', Blank s' (n + 1) → s'.lexer.measure < s.lexer.measure → Q (.again (n + 1)) s')
    (hdone : ∀ s' m isVararg, Blank s' m → Q (.done (m, isVararg)) s') :
    Via Nests (show M (Turn Nat (Nat × Bool)) from do
      match ← currentToken with
      | .name _ =>
        let (name, number) ← takeDeclared
        discard (declare (some name) .regular (some number))
        return if ← testNext (.char ',') then .again (n + 1) else .done (n + 1, false)
      | .symbol .dots =>
        next
        return .done (n, true)
      | _ => syntaxError (utf8 "<name> or '...' expected")) s Q := by
  have hb := h.inv.base
  refine Via.next (Via.currentToken ?_)
  split
  · refine Via.next (Via.takeDeclared hb fun text number l hl => ?_)
    have h₁ := h.setLexer hl.toPasses
    refine Via.next (Via.discard (Via.declare h₁.inv.base ?_))
    have h₂ := h₁.declare (v := { kind := .regular, name := some text, declaredAt := some number })
      rfl rfl
    refine Via.next (Via.testNext h₂.inv.base (by simp) (fun _ l' hl' => Via.pure ?_) (Via.pure ?_))
    · exact hagain _ (h₂.setLexer hl'.toPasses) (Nat.lt_trans hl'.progress hl.progress)
    · exact hdone _ _ _ h₂
  · exact Via.next (Via.pass hb fun l hl => Via.pure (hdone _ _ _ (h.setLexer hl)))
  · exact Via.syntaxError

theorem reserveAll_spec (hi : Inv F none (· < s.level) s) (hf : s.fn.freeReg = 0)
    (hl : s.level = s.fn.active)
    (hs : s.vars.size = s.fn.firstVar + s.fn.active) {n : Nat} (hn : n = s.fn.active) :
    Via Nests (reserve n) s fun _ s' => Rests F s' := by
  refine Via.reserve hi.maxStack_le fun m hm hfree hm' => ?_
  refine ⟨(hi.raise hm hm').setFree hfree, ?_, hs⟩
  show s.fn.freeReg + n = s.level
  rw [hf, hl, hn, Nat.zero_add]

theorem enterParameters_spec {n : Nat} {isVararg : Bool} (h : Blank s n) :
    Via Nests (do
      activate n
      let active ← ofFn (·.active)
      modifyFn fun f => { f with numParams := active }
      if isVararg then setVararg active
      reserve active) s fun _ s' => Rests [] s' := by
  refine Via.next (Via.activate h.inv.base h.declared fun vars locals stores ha => ?_)
  have h₁ := h.activate stores ha
  generalize s.rescope vars (s.fn.active + n) locals stores = t at h₁
  have hi := h₁.setParams
  refine Via.next (Via.ofFn (Via.next ⟨Nests.setParams _, Via.ite (fun _ => ?_) fun _ => ?_⟩))
  · refine Via.next (Via.setVararg hi hi.base.params fun hi' => ?_)
    exact reserveAll_spec (s := (t.setParams t.fn.active).setVararg.emit _) hi' h₁.free h₁.level
      h₁.size rfl
  · exact reserveAll_spec (s := t.setParams t.fn.active) hi h₁.free h₁.level h₁.size rfl

theorem parameters_spec (h : Blank s 0) : Via Nests parameters s fun _ s' => Rests [] s' := by
  unfold parameters
  refine Via.next (Via.currentKind ?_)
  refine Via.ite (fun _ => Via.next (Via.pure (enterParameters_spec h))) fun _ => Via.next ?_
  refine Via.repeatTurn (fun n s => Blank s n) h h.inv.base.progress fun n t ht => ?_
  exact parameters_turn ht (fun s' hs' hm => ⟨hs', hm⟩) fun s' m isVararg hs' =>
    enterParameters_spec hs'

/-! ### Returns -/

theorem Inv.pushReturn {op : Opcode} {first n : Nat} (hi : Inv F none live s)
    (hop : op.isReturn = true)
    (hf : first ≤ 255 ∧ n ≤ 255) (hlive : ∀ r, live' r → r < 255)
    (hw : ∀ w : Instruction, w.a = first → w.b = n →
      (∀ r ∈ w.registersOf op, r < s.fn.maxStack) ∧ (∀ r ∈ w.readsOf op, live r) ∧
        (w.opcode? = some op → w.ReturnForm)) :
    Inv F none live' (s.emit (.abck op first n 0 0)) ∧ (s.emit (.abck op first n 0 0)).Returns := by
  have hd : (Draft.abck op first n 0 0).fits = true := Draft.fits_abck.2 (by omega)
  obtain ⟨ha, hb, -, -⟩ := Draft.get_abck hd
  have hword := Draft.opcode?_word (.abck op first n 0 0)
  obtain ⟨h₁, h₂, h₃⟩ := hw _ ha hb
  have hsize : (s.emit (.abck op first n 0 0)).fn.code.size = s.fn.code.size + 1 :=
    Array.size_push ..
  have hfree : op.refers = false := by cases op <;> first | rfl | cases hop
  refine ⟨⟨hi.base.emit hd (Draft.refers_of_free hfree),
    hi.sound.pushReturn hword hop ?_ (h₃ hword) ?_ hlive, hi.held⟩, ?_, ?_⟩
  · rwa [Instruction.registers_eq hword]
  · rwa [Instruction.reads_eq hword]
  · rw [hsize]
    exact Nat.lt_succ_of_le hi.sound.shape.last
  · exact ⟨s.fn.code.size, _, op, hsize.symm, Array.getElem?_push_size, hword, hop⟩

theorem emitReturn_spec {first : Nat} {count : Option Nat} (live' : Nat → Prop)
    (hi : Inv F none live s)
    (hlive : ∀ r, live' r → r < 255)
    (hf : match count with
      | none => first < s.fn.maxStack
      | some n => first + n ≤ s.fn.maxStack ∧ ∀ r, first ≤ r → r < first + n → live r) :
    Via Coded (emitReturn first count) s fun _ s' => Inv F none live' s' ∧ s'.Returns := by
  have hstack := hi.maxStack_le
  unfold emitReturn
  split at hf
  · refine Via.discard (Via.emit
      (hi.pushReturn rfl (by omega) hlive fun w ha hb => ⟨?_, ?_, fun hw => ?_⟩))
    · intro r hr
      change r ∈ (if w.b = 0 then [w.a] else List.range' w.a (w.b - 1)) at hr
      rw [if_pos hb, List.mem_singleton] at hr
      omega
    · intro r hr
      have := List.mem_range'_1.1 (show r ∈ List.range' w.a (w.b - 1) from hr)
      omega
    · constructor <;> intro h <;> cases hw.symm.trans h
  · rename_i n
    obtain ⟨hle, hreads⟩ := hf
    rcases n with _ | _ | n
    · -- no value
      refine Via.discard (Via.emit
        (hi.pushReturn rfl (by omega) hlive fun w ha hb => ⟨?_, ?_, fun hw => ?_⟩))
      · exact List.forall_mem_nil _
      · exact List.forall_mem_nil _
      · exact ⟨fun _ => hb, fun h => by cases hw.symm.trans h⟩
    · -- one value
      refine Via.discard (Via.emit
        (hi.pushReturn rfl (by omega) hlive fun w ha hb => ⟨?_, ?_, fun hw => ?_⟩))
      · intro r hr
        cases List.mem_singleton.1 (show r ∈ [w.a] from hr)
        omega
      · intro r hr
        cases List.mem_singleton.1 (show r ∈ [w.a] from hr)
        exact hreads _ (by omega) (by omega)
      · exact ⟨fun h => (by cases hw.symm.trans h), fun _ => hb⟩
    · -- more values
      refine Via.discard (Via.emit
        (hi.pushReturn rfl (by omega) hlive fun w ha hb => ⟨?_, ?_, fun hw => ?_⟩))
      · intro r hr
        change r ∈ (if w.b = 0 then [w.a] else List.range' w.a (w.b - 1)) at hr
        rw [if_neg (by omega)] at hr
        have := List.mem_range'_1.1 hr
        omega
      · intro r hr
        have := List.mem_range'_1.1 (show r ∈ List.range' w.a (w.b - 1) from hr)
        exact hreads r (by omega) (by omega)
      · constructor <;> intro h <;> cases hw.symm.trans h

/-! ### The end of a function -/

def Builder.closing (f : Builder) : Closing := ⟨f.code, f.aims, f.locals, f.scopes, f.meant⟩

/-- The state after the final pass over a function. -/
def State.finish (s : State) (code : Code) : State :=
  { s with
    fn := { s.fn with blocks := [], code }
    closings := s.closings.push s.fn.closing }

theorem Inv.functionOk {code : Code} (hi : Inv F o live s) (hsize : code.size = s.fn.code.size)
    (hf : Finished s.lateLoad code s.fn.maxStack s.fn.numParams)
    (hr : Referring s.fn.references code) (source : Bytes) :
    ∀ q ∈ ((s.finish code).fn.prototype source).walk, FunctionOk s.lateLoad q := by
  intro q hq
  rcases Prototype.mem_walk.1 hq with rfl | ⟨p, hp, hq⟩
  · exact {
      lines := hi.base.lines.size.trans hsize.symm
      code :=
        ⟨s.fn.maxStack, s.fn.numParams, rfl, rfl, hi.base.stack, hi.maxStack_le, hi.base.params, hf⟩
      upvalues := hi.base.enclosed.2.2.1
      refers := hr
      adopts := hi.base.adopts }
  · exact hi.base.functions p (Array.mem_toList_iff.1 hp) q hq

theorem Base.recorded_finish {code : Code} (hb : Base s)
    (hf : ∃ marks, JumpList.finish marks s.fn.code = .ok code)
    (hm : Faithful s.fn.pool.values code s.fn.meant) (source : Bytes) :
    ∀ q ∈ ((s.finish code).fn.prototype source).walk, ∃ c ∈ (s.finish code).closings,
      c.Describes q := by
  intro q hq
  rcases Prototype.mem_walk.1 hq with rfl | ⟨p, hp, hq⟩
  · exact ⟨s.fn.closing, Array.mem_push_self, hf, rfl, hm⟩
  · obtain ⟨c, hc, hd⟩ := hb.recorded p (Array.mem_toList_iff.1 hp) q hq
    exact ⟨c, Array.mem_push_of_mem _ hc, hd⟩

theorem Base.settled (hb : Base s) (ha : s.fn.active = 0) : s.fn.closing.Settled where
  history := hb.tracked.history
  size := hb.tracked.size
  ended := by
    have := hb.tracked.opened
    rw [show s.fn.localView.active = 0 from ha] at this
    exact this

theorem BlockLeft.waiting {t : State} (h : BlockLeft F b s t) (hb : s.fn.blocks = [b])
    (hg : t.gotos.size = b.firstGoto) : t.waiting = [] := by
  obtain ⟨z, hz, -, hl, -⟩ := h.inv.base.scopes.outermost
  have hblocks : t.fn.scope.blocks = [b.scope] := by
    show t.fn.blocks.map Block.scope = _
    rw [h.blocks, hb]
    rfl
  rw [hblocks] at hz
  cases hz
  have hlabel : t.fn.scope.firstLabel = b.firstLabel := hl.symm
  have hgoto : t.fn.scope.firstGoto = b.firstGoto := by
    unfold FnScope.firstGoto
    rw [hblocks]
    rfl
  unfold State.waiting Compile.waiting
  rw [hlabel, hgoto, List.drop_eq_nil_of_le (by simp [hg]),
    List.drop_eq_nil_of_le (by simp [h.labels.1])]
  rfl

theorem Builder.aimed {f : Builder} {late : Bool} (h : Sound f.view late [] none live) :
    f.closing.Aimed := by
  intro p i hi hop
  rcases h.shape.jumps p i hi hop with hown | ⟨t, ht, hsj, -⟩
  · cases hown
  · exact ⟨t, ht, hsj⟩

/-- Ends the outermost block of the function under construction, before the final pass. -/
def closing : M ReturnMarks := do
  emitReturn (← Compile.activeRegisters) (some 0)
  discard leaveBlock
  modify fun s => { s with
    closings := s.closings.push ⟨s.fn.code, s.fn.aims, s.fn.locals, s.fn.scopes, s.fn.meant⟩ }
  let marks ← ofFn fun f => ReturnMarks.mk f.needClose f.isVararg f.numParams
  noteFits (Instruction.Field.c.fits (marks.numParams + 1))
  return marks

def finishCode (marks : ReturnMarks) : M Unit :=
  onCode fun code => (JumpList.finish marks code).map (·, ())

theorem closeFunction_eq : closeFunction = closing >>= finishCode := by
  simp only [closeFunction, closing, finishCode, bind_assoc, pure_bind]

/-- The state after the outermost block of a function, which is `t` as it ended. -/
def State.closed (t : State) : State :=
  { t.relabel t.labels t.gotos [] with closings := t.closings.push t.fn.closing }

/-- What is true of a function `t` whose outermost block has ended, and of the rest of the state; it
ended in `s`. -/
structure Concludes (s t : State) : Prop where
  inv : Inv [] none (· < 0) t
  firstVar : t.fn.firstVar = s.fn.firstVar
  vars : t.vars.size = s.fn.firstVar ∧ ∀ k < s.fn.firstVar, t.vars[k]? = s.vars[k]?
  labels : t.labels.size = s.fn.firstLabel ∧ ∀ k < s.fn.firstLabel, t.labels[k]? = s.labels[k]?
  gotos : t.gotos.size = s.fn.scope.firstGoto ∧ ∀ k < s.fn.scope.firstGoto,
    t.gotos[k]? = s.gotos[k]?
  waiting : t.waiting = []
  returns : t.Returns
  settled : t.fn.closing.Settled

theorem closing_spec (he : Ends [] s) (hb : ∃ c, s.fn.blocks.map Block.scope = [c]) :
    Via Stays closing s fun marks u => ∃ t, Concludes s t ∧ u = t.closed ∧
      marks = ⟨t.fn.needClose, t.fn.isVararg, t.fn.numParams⟩ := by
  obtain ⟨⟨b, rest, hbs, hi⟩, hfree, hfull⟩ := he
  obtain ⟨c, hc⟩ := hb
  have hroom := hi.room
  unfold closing
  refine Via.next (Via.activeRegisters hi.base (Via.next ?_))
  have hret : Via Coded (emitReturn s.level (some 0)) s _ :=
    emitReturn_spec (· < 0) hi (fun r hr => absurd hr (Nat.not_lt_zero r))
      ⟨by omega, fun r h₁ h₂ => by omega⟩
  refine (hret.further fun _ hk => hk.toKeeps.toStays).mono fun _ s₁ _ ⟨hk, hi₁, hr₁⟩ => ?_
  obtain ⟨b₁, rest₁, hb₁⟩ := hi₁.base.blocks_eq
  have hblocks : b₁.scope :: rest₁.map Block.scope = [c] := by
    rw [← List.map_cons, ← hb₁, ← hc]
    exact congrArg FnScope.blocks hk.scope
  obtain ⟨rfl, hrest⟩ := List.cons.inj hblocks
  obtain rfl : rest₁ = [] := List.map_eq_nil_iff.1 hrest
  obtain ⟨z, hz, hz₀, hzl, hloop⟩ := hi.base.scopes.outermost
  rw [show s.fn.scope.blocks = [b₁.scope] from hc] at hz
  obtain rfl : b₁.scope = z := Option.some.inj hz
  have hlevel : levelOf s₁.vars s₁.fn.firstVar b₁.level = 0 := by
    rw [show b₁.level = 0 from hz₀]
    rfl
  have hgoto : s.fn.scope.firstGoto = b₁.firstGoto := by
    unfold FnScope.firstGoto
    rw [show s.fn.scope.blocks = [b₁.scope] from hc]
    rfl
  refine Via.next (Via.discard
    (Via.leaveBlock hi₁ hb₁ (by rw [hlevel]; exact fun r hr => hr) ?_ ?_ fun t hleft hone => ?_))
  · exact Nat.le_of_eq (by rw [hk.level, hk.freeReg, hfree])
  · rw [hk.vars, hk.firstVar, hk.active]
    exact hfull
  · have hnone : b₁.loop = .none := by simpa [Block.scope] using hloop
    have hclosed : Stays (t.relabel t.labels t.gotos []) t.closed :=
      { Stays.refl _ with closings := fun c hc => Array.mem_push_of_mem _ hc }
    have hmarks : Instruction.Field.c.fits (t.fn.numParams + 1) = true := by
      have h₁ := hleft.inv.base.params
      have h₂ : maxLocals = 200 := rfl
      exact (Instruction.Field.fits_iff _ _).2 (show t.fn.numParams + 1 ≤ 255 by omega)
    refine Via.next ⟨hclosed, Via.next (Via.ofFn (Via.next (Via.noteFits (Via.pure ?_))))⟩
    refine ⟨t, ⟨?_, hleft.firstVar.trans hk.firstVar, ?_, ?_, ?_, hleft.waiting hb₁ (hone rfl),
      hleft.returns hb₁ hnone hr₁,
      hleft.inv.base.settled (hleft.active.trans hz₀)⟩, ?_, rfl⟩
    · have := hleft.inv
      rwa [hlevel] at this
    · have h₁ := hleft.size
      have h₂ := hleft.vars
      rw [show b₁.level = 0 from hz₀, hk.firstVar, Nat.add_zero] at h₁ h₂
      rw [hk.vars] at h₂
      exact ⟨h₁, h₂⟩
    · have h₁ := hleft.labels
      rw [show b₁.firstLabel = s.fn.firstLabel from hzl, hk.labels] at h₁
      exact h₁
    · rw [hgoto, ← hk.gotos]
      exact ⟨hone rfl, hleft.gotos.2⟩
    · have hnote : ∀ u : State, u.note true = u := fun u => by simp [State.note]
      rw [show (t.relabel t.labels t.gotos []).fn.numParams = t.fn.numParams from rfl, hmarks,
        hnote]
      rfl

theorem Concludes.sound {t : State} (h : Concludes s t) :
    Finished t.lateLoad t.fn.code t.fn.maxStack t.fn.numParams := by
  have hs : Sound t.fn.view t.lateLoad [] none (· < 0) := by
    have := h.inv.sound
    rwa [h.waiting] at this
  refine hs.finished h.returns.1 ?_
  obtain ⟨-, p, i, op, hp, hpi, hop, hret⟩ := h.returns
  refine ⟨i, op, ?_, hop, hret⟩
  show t.fn.code.back? = some i
  rw [Array.back?_eq_getElem?, ← hp]
  exact hpi

/-- What is true of a function after the final pass, where `code` is its code then. -/
structure Finishes (s t : State) (code : Code) : Prop extends Concludes s t where
  size : code.size = t.fn.code.size
  finished : Finished t.lateLoad code t.fn.maxStack t.fn.numParams
  refers : Referring t.fn.references code
  meaning : Faithful t.fn.pool.values code t.fn.meant
  aimed : t.fn.closing.Aimed
  passed : ∃ marks, JumpList.finish marks t.fn.code = .ok code

theorem closeFunction_spec {Q : Unit → State → Prop} (he : Ends [] s)
    (hb : ∃ c, s.fn.blocks.map Block.scope = [c])
    (h : ∀ t code, Finishes s t code → Q () (t.finish code)) : Via Stays closeFunction s Q := by
  rw [closeFunction_eq]
  refine Via.bind (closing_spec he hb) ?_
  rintro marks _ - ⟨t, ht, rfl, rfl⟩
  have hs : Sound t.fn.view t.lateLoad [] none (· < 0) := by
    have := ht.inv.sound
    rwa [ht.waiting] at this
  refine Via.onCode ?_
  rcases ht.sound.finish_spec ⟨t.fn.needClose, t.fn.isVararg, t.fn.numParams⟩
      with ⟨he, -⟩ | ⟨code, he, hsize, hf, hkept⟩
  · exact .inl (congrArg (Except.map (·, ())) he)
  · exact .inr ⟨code, (), congrArg (Except.map (·, ())) he, hsize, h t code
      ⟨ht, hsize, hf, hkept.refers _ ht.inv.base.refers, hkept.faithful _ _ ht.inv.base.meaning,
        Builder.aimed hs, _, he⟩⟩

/-! ### Going on with the enclosing function -/

instance : Steps Logs := ⟨Logs.refl, Logs.trans, id⟩

theorem Via.logged [Steps R] {α : Type} {m : M α} {Q : α → State → Prop} (h : Via R m s Q) :
    Via Logs m s fun a s' => R s s' ∧ Q a s' :=
  h.further fun _ hr => Steps.logs hr

theorem Via.of_logged {α : Type} {m : M α} {Q : α → State → Prop}
    (h : Via Logs m s fun a s' => R s s' ∧ Q a s') :
    Via R m s Q := by
  unfold Via at h ⊢
  split at h
  · exact h.2
  · exact h

/-- A function with a closure in its next register. -/
def Builder.place (f : Builder) (places : List (Nat × Option Bytes)) (line m : Nat) : Builder :=
  { f with
    code :=
      (f.code.push (Draft.abx .closure 0 f.nested.size).word).modify f.code.size
        (·.setAll [(.a, f.freeReg)])
    lines := f.lines.record line
    scopes := f.scopes.push places
    meant := f.meant.push []
    maxStack := m
    freeReg := f.freeReg + 1 }

/-- The state after a closure has been put into the next register. -/
def State.place (s : State) (m : Nat) : State :=
  { s with fn := s.fn.place s.places s.lexer.lastLine m }

theorem placeClosure_spec (hm : s.fn.maxStack ≤ 254) (hn : s.fn.nested.size ≤ Instruction.maxBx)
    {Q : Exp → State → Prop}
    (h : ∀ m, s.fn.maxStack ≤ m → s.fn.freeReg + 1 ≤ m → m ≤ 254 →
    Q (.inReg s.fn.freeReg) (s.place m)) :
    Via Keeps (do
      let pc ← emitABx .closure 0 (← ofFn (·.nested.size))
      return Exp.inReg (← toNextRegister (.relocatable pc))) s Q := by
  have hfits : (Draft.abx .closure 0 s.fn.nested.size).fits = true :=
    Draft.fits_abx.2 ⟨Nat.zero_le _, hn⟩
  refine Via.next (Via.ofFn (Via.next (Via.emit ?_)))
  refine Via.next ?_
  unfold toNextRegister
  refine Via.next (Via.pure (Via.next (Via.pure (Via.next ?_))))
  refine Via.reserve hm fun m h₁ h₂ h₃ => ?_
  change s.fn.maxStack ≤ m at h₁
  change s.fn.freeReg + 1 ≤ m at h₂
  refine Via.next (Via.freeReg (Via.next ?_))
  unfold toRegister dischargeTo
  refine Via.next (Via.next (Via.pure (Via.next (Via.setAt ?_ (Via.pure ?_)))))
  · show s.fn.code.size < (s.fn.code.push _).size
    rw [Array.size_push]
    exact Nat.lt_succ_self _
  refine Via.next (Via.pure
    (Via.ite (fun hj => nomatch hj) fun _ => Via.pure (Via.pure (Via.pure ?_))))
  have hstate :
      ((((s.emit (.abx .closure 0 s.fn.nested.size)).raise m).setFree (s.fn.freeReg + 1)).setAt
      s.fn.code.size [(.a, s.fn.freeReg)]) = s.place m := by
    have hreg := fits_setA (show s.fn.freeReg ≤ 255 by omega)
    unfold State.setAt State.setFree State.raise State.emit State.place Builder.place
    rw [hfits, hreg]
    simp
  have hq := h m h₁ h₂ h₃
  rw [← hstate] at hq
  exact hq

/-- The state in which the next function outward has other code. -/
def State.withOuter (s : State) (outer : List Builder) : State := { s with outer }

theorem emitClosure_spec {f : Builder} {fs : List Builder} (hs : s.outer = f :: fs)
    (hm : f.maxStack ≤ 254)
    (hn : f.nested.size ≤ Instruction.maxBx) {Q : Exp → State → Prop}
    (h : ∀ m, f.maxStack ≤ m → f.freeReg + 1 ≤ m → m ≤ 254 →
      Q (.inReg f.freeReg) (s.withOuter
        (f.place (placesOf s.vars f.firstVar f.active) s.lexer.lastLine m :: fs))) :
    Via Logs emitClosure s Q := by
  have hplace := @placeClosure_spec { s with fn := f, outer := fs } hm hn
    (fun e t => Q e { t with fn := s.fn, outer := t.fn :: t.outer }) h
  unfold emitClosure
  generalize (do
    let pc ← emitABx .closure 0 (← ofFn (·.nested.size))
    return Exp.inReg (← toNextRegister (.relocatable pc)) : M Exp) = act at hplace ⊢
  unfold Via at hplace ⊢
  rw [inEnclosing_cons hs]
  cases ht : act { s with fn := f, outer := fs } with
  | ok e t =>
    rw [ht] at hplace
    exact ⟨{ hplace.1.toLogs with }, hplace.2⟩
  | error e t =>
    rw [ht] at hplace
    exact { Aborts.after hplace (Logs.of_same rfl rfl rfl rfl rfl) with }

theorem Inv.withOuter {f : Builder} {fs : List Builder} {places : List (Nat × Option Bytes)}
    {line m : Nat}
    (hi : Inv F o live s) (hs : s.outer = f :: fs) : Inv F o live
    (s.withOuter (f.place places line m :: fs)) := by
  have henc := hi.base.enclosed
  have hlinked := hi.base.linked
  rw [hs] at henc hlinked
  refine ⟨{ hi.base with enclosed := ?_, linked := hlinked }, hi.sound, hi.held⟩
  exact ⟨henc.1, henc.2.1, henc.2.2.1, (fun he => nomatch he), henc.2.2.2.2⟩

def Builder.recapture (f : Builder) (blocks : List Block) (upvalues : Array Upvalue)
    (needClose : Bool) : Builder :=
  { f with blocks, upvalues, needClose }

theorem Captured.eq {f f' : Builder} (h : Captured f f') :
    f' = f.recapture f'.blocks f'.upvalues f'.needClose :=
  calc f' = Builder.recapture
        { f' with blocks := f.blocks, upvalues := f.upvalues, needClose := f.needClose }
        f'.blocks f'.upvalues f'.needClose := rfl
    _ = _ := by rw [h.core]

def Builder.adopt (f : Builder) (p : Prototype) : Builder := { f with nested := f.nested.push p }

def State.resume (t : State) (f : Builder) (fs : List Builder) : State :=
  { t with fn := f, outer := fs, closings := t.closings.push t.fn.closing }

theorem sound_place {f : Builder} {late : Bool} {P : List Pending} {m : Nat}
    (places : List (Nat × Option Bytes)) (line : Nat)
    (hs : Sound f.view late P none (· < f.freeReg)) (hn : f.nested.size ≤ Instruction.maxBx)
    (hm : f.maxStack ≤ m) (hf : f.freeReg + 1 ≤ m) (hm' : m ≤ 254) (hpos : 2 ≤ f.maxStack) :
    Sound (f.place places line m).view late P none (· < f.freeReg + 1) := by
  have hfits : (Draft.abx .closure 0 f.nested.size).fits = true :=
    Draft.fits_abx.2 ⟨Nat.zero_le _, hn⟩
  have hop := Draft.opcode?_word (.abx .closure 0 f.nested.size)
  have hopen := hs.pushOpen hop rfl rfl (by simp [Draft.opcode]) ?_ ?_
  · exact (hopen.raise hm hm').setOpen (show f.freeReg < m from hf) fun r hr => by omega
  · intro r hr
    rw [Instruction.registers_eq hop] at hr
    cases List.mem_singleton.1 (show r ∈ [(Draft.abx .closure 0 f.nested.size).word.a] from hr)
    rw [(Draft.get_abx hfits).1]
    exact Nat.lt_of_lt_of_le Nat.two_pos hpos
  · intro r hr
    rw [Instruction.reads_eq hop] at hr
    cases hr

theorem referring_place {f : Builder} (places : List (Nat × Option Bytes)) (line m : Nat)
    {us : Array Upvalue}
    (h : Referring f.references f.code)
    (hn : f.nested.size < Instruction.maxBx) (hus : f.upvalues.size ≤ us.size) :
    Referring ⟨f.pool.values, us.size, f.nested.size + 1⟩ (f.place places line m).code := by
  have hfits : (Draft.abx .closure 0 f.nested.size).fits = true :=
    Draft.fits_abx.2 ⟨Nat.zero_le _, Nat.le_of_lt hn⟩
  have hpush : Referring ⟨f.pool.values, us.size, f.nested.size + 1⟩
      (f.code.push (Draft.abx .closure 0 f.nested.size).word) := by
    have hg : f.references.Grows ⟨f.pool.values, us.size, f.nested.size + 1⟩ :=
      ⟨fun _ _ h => h, hus, Nat.le_succ _⟩
    have hd : (Draft.abx .closure 0 f.nested.size).Refers
        ⟨f.pool.values, us.size, f.nested.size + 1⟩ [] :=
      ⟨⟨Nat.lt_succ_of_le (Nat.le_of_eq (Draft.get_abx hfits).2), .nil⟩, by simp [Draft.opcode]⟩
    exact (h.mono hg).pushDraft hd
  exact hpush.rewrite (.modify_at Array.getElem?_push_size
    (Instruction.becomes_setA (Draft.opcode?_word _) rfl _))
    (Array.size_modify ..)

theorem faithful_place {f : Builder} (places : List (Nat × Option Bytes)) (line m : Nat)
    (h : Faithful f.pool.values f.code f.meant) :
    Faithful f.pool.values (f.place places line m).code (f.place places line m).meant := by
  have hop := Draft.opcode?_word (.abx .closure 0 f.nested.size)
  have hnone : Stand f.pool.values (Draft.abx .closure 0 f.nested.size).word.constants [] := by
    rw [Instruction.constants_eq hop]
    exact .nil
  exact (h.push hnone (Instruction.ne_of_opcode hop (by simp [Draft.opcode]))).rewrite
    (r := f.references)
    (.modify_at Array.getElem?_push_size (Instruction.becomes_setA hop rfl _))
      (Array.size_modify ..)

variable {bs : List Block} {us : Array Upvalue} {nc : Bool} {fs : List Builder} {line m : Nat}
  {p : Prototype}

theorem Inv.resume (hi : Inv F none (· < s.fn.freeReg) s) (hlow : s.level ≤ s.fn.freeReg + 1)
    (hlim : s.fn.nested.size < Instruction.maxBx)
    (hm : s.fn.maxStack ≤ m) (hf : s.fn.freeReg + 1 ≤ m) (hm' : m ≤ 254) (ht : Base t)
    (houter : t.outer = (s.fn.place s.places line m).recapture bs us nc :: fs)
    (hbs : bs.map Block.scope = s.fn.blocks.map Block.scope) (hfirst : t.fn.firstVar = s.vars.size)
    (hvars : t.vars = s.vars) (hlabels : t.labels = s.labels) (hgotos : t.gotos = s.gotos)
    (hlate : s.lateLoad = true → t.lateLoad = true)
    (hlogs : ∀ c ∈ s.closings, c ∈ t.closings.push t.fn.closing)
    (hp : ∀ q ∈ p.walk, FunctionOk t.lateLoad q) (hc : t.fn.closing.Aimed ∧ t.fn.closing.Settled)
    (hrec : ∀ q ∈ p.walk, ∃ c ∈ t.closings.push t.fn.closing, c.Describes q)
    (hpu : p.upvalues = t.fn.upvalues) (hus : s.fn.upvalues.size ≤ us.size) :
    Inv F none (· < s.fn.freeReg + 1)
      (t.resume (((s.fn.place s.places line m).recapture bs us nc).adopt p) fs) := by
  have hb := hi.base
  have henc := ht.enclosed
  have hlinked := ht.linked
  rw [houter] at henc hlinked
  have hscope : (t.resume (((s.fn.place s.places line m).recapture bs us nc).adopt p) fs).fn.scope =
      s.fn.scope := by
    show FnScope.mk _ _ _ _ (bs.map Block.scope) = _
    rw [hbs]
    rfl
  have hfunction : ∀ q, FunctionOk s.lateLoad q → FunctionOk t.lateLoad q := by
    intro q hq
    cases hl : t.lateLoad with
    | true => exact hq.toLate
    | false =>
      cases hl' : s.lateLoad with
      | true => exact absurd (hlate hl') (by simp [hl])
      | false => rwa [hl'] at hq
  have hwaiting : (t.resume (((s.fn.place s.places line m).recapture bs us nc).adopt p)
      fs).waiting = s.waiting := by
    unfold State.waiting
    rw [hscope]
    show Compile.waiting t.vars t.labels t.gotos _ = _
    rw [hvars, hlabels, hgotos]
  refine ⟨?_, ?_, by rw [hwaiting]; exact hi.held⟩
  · exact {
      failure := ht.failure
      progress := ht.progress
      scopes := by
        rw [hscope]
        show Scoped t.vars t.labels t.gotos _
        rw [hvars, hlabels, hgotos]
        exact hb.scopes
      enclosed := by
        have := henc.2.2.2.2
        rw [hfirst, ← hvars] at this
        exact this
      linked := hlinked.2.2
      tracked := by
        rw [show (t.resume _ fs).vars = s.vars from hvars]
        refine (hb.tracked.emit hb.placed ?_).congr fun _ _ => rfl
        show (Array.modify (s.fn.code.push _) _ _).size = _
        rw [Array.size_modify, Array.size_push]
        rfl
      controls := by
        rw [show (t.resume _ fs).vars = s.vars from hvars]
        exact hb.controls
      lexical := ht.lexical
      stack := Nat.le_trans hb.stack hm
      room := hf
      lines := by
        have := hb.lines.record line
        refine ⟨this.size.trans ?_, this.absolute⟩
        show _ = (Array.modify (s.fn.code.push _) _ _).size
        rw [Array.size_modify, Array.size_push]
      pool := hb.pool
      known := hb.known
      params := hb.params
      nested := by
        show (s.fn.nested.push p).size ≤ _
        rw [Array.size_push]
        exact hlim
      functions := by
        intro q hq
        rcases Array.mem_push.1 (show q ∈ s.fn.nested.push p from hq) with hq | rfl
        · exact fun q' hq' => hfunction q' (hb.functions q hq q' hq')
        · exact hp
      refers := by
        have := referring_place s.places line m hb.refers hlim hus
        rwa [← Array.size_push p] at this
      meaning := faithful_place s.places line m hb.meaning
      adopts := by
        intro q hq u hu
        rw [show (t.resume _ fs).fn.nested = s.fn.nested.push p from rfl, Array.toList_push,
          List.mem_append,
          List.mem_singleton] at hq
        rcases hq with hq | rfl
        · exact (hb.adopts q hq u hu).mono (Int.ofNat_le.2 hm) hus
        · obtain ⟨i, hi⟩ := Array.mem_iff_getElem?.1 (hpu ▸ hu)
          obtain ⟨n, hplaced⟩ := hlinked.2.1 _ rfl
          refine (hlinked.1.captures i u hi).within hplaced ?_
          rw [hvars]
          exact Nat.le_trans hlow hf
      fits := ht.fits
      items := ht.items
      closings := by
        intro d hd
        rcases Array.mem_push.1 (show d ∈ t.closings.push t.fn.closing from hd) with hd | rfl
        · exact ht.closings d hd
        · exact hc
      recorded := by
        intro q hq q' hq'
        rcases Array.mem_push.1 (show q ∈ s.fn.nested.push p from hq) with hq | rfl
        · obtain ⟨c, hc, hd⟩ := hb.recorded q hq q' hq'
          exact ⟨c, hlogs c hc, hd⟩
        · exact hrec q' hq' }
  · have hs : Sound s.fn.view t.lateLoad (F ++ s.waiting) none (· < s.fn.freeReg) := by
      cases hl : t.lateLoad with
      | true => exact hi.sound.toLate
      | false =>
        cases hl' : s.lateLoad with
        | true => exact absurd (hlate hl') (by simp [hl])
        | false => exact hl' ▸ hi.sound
    rw [hwaiting]
    exact sound_place s.places line hs (Nat.le_of_lt hlim) hm hf hm' hb.stack

structure MakesClosure (F : List Pending) (s : State) (e : Exp) (s' : State) : Prop where
  value : e = .inReg s.fn.freeReg
  free : s'.fn.freeReg = s.fn.freeReg + 1
  inv : Inv F none (· < s.fn.freeReg + 1) s'
  concatAt : ∀ q, s'.ConcatAt q
  code : s'.fn.code.size = s.fn.code.size + 1

theorem MakesClosure.read {e : Exp} (h : MakesClosure F s e s') (hl : s'.level ≤ s.fn.freeReg) :
    Read F s.fn.freeReg e s' := by
  rw [h.value]
  exact ⟨.inReg hl (by rw [h.free]; exact h.inv) (.inr ⟨rfl, h.free⟩) fun _ => h.concatAt _,
    .of_ne fun _ hk => nomatch hk⟩

theorem concatAt_place {w : State} {f : Builder} {places : List (Nat × Option Bytes)}
    (hw : w.fn.code = (f.place places line m).code) (r : Nat) : w.ConcatAt r := by
  intro _ i hi hop
  rw [hw, Array.back?_eq_getElem?] at hi
  change ((f.code.push _).modify f.code.size _)[((f.code.push _).modify f.code.size _).size - 1]? =
    some i at hi
  rw [Array.size_modify, Array.size_push, Nat.add_sub_cancel, Array.getElem?_modify, if_pos rfl,
    Array.getElem?_push_size] at hi
  cases hi
  rw [Instruction.opcode?_setAll _ _ rfl] at hop
  cases (Draft.opcode?_word (.abx .closure 0 f.nested.size)).symm.trans hop

theorem Captured.upvalues_le {f f' : Builder} (h : Captured f f') :
    f.upvalues.size ≤ f'.upvalues.size :=
  size_le_of_entries h.upvalues

theorem array_eq {α : Type} {xs ys : Array α} (hs : xs.size = ys.size)
    (h : ∀ k < ys.size, xs[k]? = ys[k]?) : xs = ys := by
  refine Array.ext_getElem? fun k => ?_
  by_cases hk : k < ys.size
  · exact h k hk
  · rw [Array.getElem?_eq_none (by omega), Array.getElem?_eq_none (by omega)]

theorem CapturedAll.cons {f : Builder} {fs l : List Builder} (h : CapturedAll (f :: fs) l) :
    ∃ g gs, l = g :: gs ∧ Captured f g ∧ CapturedAll fs gs := by
  cases l with
  | nil => exact h.elim
  | cons g gs => exact ⟨g, gs, rfl, h⟩

section

variable {h : Builder} (hh : h = (s.fn.place s.places line m).recapture h.blocks h.upvalues
  h.needClose)

include hh

theorem Keeps.resume {u : State} {line' : Nat} {outer : List Builder} {code : Code}
    (hu : Nests (s.startFn line') u)
    (hs : Stays (u.withOuter outer) (t.finish code)) (hm : s.fn.maxStack ≤ m)
    (hblocks : h.blocks.map Block.scope = s.fn.blocks.map Block.scope) (hvars : t.vars = s.vars)
    (hlabels : t.labels = s.labels) (hgotos : t.gotos = s.gotos)
    (hus : ∀ (i : Nat) (u : Upvalue), s.fn.upvalues[i]? = some u → h.upvalues[i]? = some u)
    (houter : CapturedAll s.outer fs) : Keeps s (t.resume (h.adopt p) fs) := by
  have hcore : ∀ {α : Type} (f : Builder → α),
      f h = f ((s.fn.place s.places line m).recapture h.blocks h.upvalues h.needClose) :=
        fun f => congrArg f hh
  exact {
    toLogs := by
      have h₁ : Logs s u := { hu.toLogs with }
      have h₂ : Logs u (t.resume (h.adopt p) fs) := { hs.toLogs with }
      exact h₁.trans h₂
    measure := Nat.le_trans hs.measure hu.measure
    bound := hs.bound.trans hu.bound
    items := hs.items.trans hu.items
    pool := fun k v hk => by
      show h.pool.values[k]? = some v
      rw [hcore (·.pool)]
      exact hk
    entries := hus
    nested := by
      show s.fn.nested.size ≤ (h.nested.push p).size
      rw [hcore (·.nested), Array.size_push]
      exact Nat.le_succ _
    numParams := hcore (·.numParams)
    isVararg := hcore (·.isVararg)
    stack := by
      show s.fn.maxStack ≤ h.maxStack
      rw [hcore (·.maxStack)]
      exact hm
    outer := houter
    late := fun hl => hs.late (hu.late hl)
    code := fun _ => by
      show 0 < h.code.size
      rw [hcore (·.code)]
      show 0 < ((s.fn.code.push _).modify _ _).size
      rw [Array.size_modify, Array.size_push]
      exact Nat.succ_pos _
    vars := hvars
    labels := hlabels
    gotos := hgotos
    scope := by
      have hlocals : h.locals = s.fn.locals := hcore (·.locals)
      show FnScope.mk h.firstVar h.firstLabel h.active h.locals.size (h.blocks.map Block.scope) = _
      rw [hcore (·.firstVar), hcore (·.firstLabel), hcore (·.active), hlocals, hblocks]
      rfl
    locals := hcore (·.locals) }

theorem closure_resume {w : State} (hw : w.fn = h.adopt p)
    (hi : Inv F none (· < s.fn.freeReg + 1) w) :
    MakesClosure F s (.inReg s.fn.freeReg) w := by
  have hcode : w.fn.code = (s.fn.place s.places line m).code := by
    have hadopt := congrArg Builder.code hh
    rw [hw]
    exact hadopt
  refine ⟨rfl, ?_, hi, concatAt_place hcode, ?_⟩
  · rw [hw]
    exact congrArg Builder.freeReg hh
  · rw [hcode]
    simp [Builder.place]

end

theorem endNested_spec {u : State} (hi : Inv F none (· < s.fn.freeReg) s)
    (hlow : s.level ≤ s.fn.freeReg + 1)
    (hlim : s.fn.nested.size < Instruction.maxBx) (hu : Nests (s.startFn line) u) (he : Ends [] u) :
    Via Logs (do
      let e ← emitClosure
      endNested
      return e) u fun e w =>
        Keeps s w ∧ w.lexer.measure ≤ u.lexer.measure ∧ MakesClosure F s e w := by
  obtain ⟨g, gs, houter, hg, hgs⟩ := CapturedAll.cons hu.outer
  have hgeq := hg.eq
  have hstack : g.maxStack = s.fn.maxStack := by rw [hgeq]; rfl
  have hfree : g.freeReg = s.fn.freeReg := by rw [hgeq]; rfl
  have hnested : g.nested = s.fn.nested := by rw [hgeq]; rfl
  refine Via.next (emitClosure_spec houter (by rw [hstack]; exact hi.maxStack_le)
    (by rw [hnested]; exact Nat.le_of_lt hlim) fun m h₁ h₂ h₃ => ?_)
  rw [hstack] at h₁
  rw [hfree] at h₂
  have hplaces : placesOf u.vars g.firstVar g.active = s.places := by
    rw [placesOf_eq, hgeq, State.places, placesOf_eq]
    refine congrArg (List.map _) (localsOf_congr fun k (hk : k < s.fn.active) => hu.vars _ ?_)
    exact Nat.lt_of_lt_of_le (Nat.add_lt_add_left hk _) hi.base.placed.range
  rw [hplaces]
  have he' : Ends [] (u.withOuter (g.place s.places u.lexer.lastLine m :: gs)) := by
    obtain ⟨⟨b, rest, hb, hiu⟩, hfr, hfull⟩ := he
    exact ⟨⟨b, rest, hb, hiu.withOuter houter⟩, hfr, hfull⟩
  have hclose := closeFunction_spec (Q := fun _ w => ∃ t code, w = t.finish code ∧
    Finishes (u.withOuter (g.place s.places u.lexer.lastLine m :: gs)) t code) he' ⟨_, hu.blocks⟩
    fun t code hf => ⟨t, code, rfl, hf⟩
  unfold endNested attach
  refine Via.next (Via.next (hclose.logged.mono fun _ w _ ⟨hstays, t, code, hw, hfin⟩ => ?_))
  subst hw
  obtain ⟨h, hs, hto, hh, hhs⟩ :=
    CapturedAll.cons (show CapturedAll (g.place s.places u.lexer.lastLine m :: gs) t.outer
    from hstays.outer)
  have hheq : h = (s.fn.place s.places u.lexer.lastLine m).recapture h.blocks h.upvalues
      h.needClose := by
    refine hh.eq.trans ?_
    rw [hgeq]
    rfl
  have hblocks : h.blocks.map Block.scope = s.fn.blocks.map Block.scope := hh.blocks.trans hg.blocks
  -- the declarations, labels and gotos are again those of the enclosing function
  have hvars : t.vars = s.vars := by
    have hsize : t.vars.size = s.vars.size := hfin.vars.1.trans hu.firstVar
    refine array_eq hsize fun k hk => ?_
    rw [hfin.vars.2 k (by rw [← hfin.vars.1, hsize]; exact hk)]
    exact hu.vars k hk
  have hlabels : t.labels = s.labels := by
    have hsize : t.labels.size = s.labels.size := hfin.labels.1.trans hu.firstLabel
    refine array_eq hsize fun k hk => ?_
    rw [hfin.labels.2 k (by rw [← hfin.labels.1, hsize]; exact hk)]
    exact (hu.labels (Nat.le_refl _)).2 k hk
  have hgotos : t.gotos = s.gotos := by
    have hsize : t.gotos.size = s.gotos.size := hfin.gotos.1.trans (Nests.firstGoto hu.blocks)
    refine array_eq hsize fun k hk => ?_
    rw [hfin.gotos.2 k (by rw [← hfin.gotos.1, hsize]; exact hk)]
    exact (hu.gotos (Nat.le_refl _)).2 k hk
  have hclosings : ∀ c ∈ s.closings, c ∈ t.closings.push t.fn.closing :=
    fun c hc => hstays.closings c (hu.closings c hc)
  have hinv := Inv.resume (p := (t.finish code).fn.prototype (t.finish code).lexer.source)
    hi hlow hlim h₁ h₂ h₃ hfin.inv.base (hto.trans (by rw [← hheq])) hblocks
      (hfin.firstVar.trans hu.firstVar) hvars hlabels hgotos
    (fun hl => hstays.late (hu.late hl)) hclosings
      (hfin.inv.functionOk hfin.size hfin.finished hfin.refers _)
    ⟨hfin.aimed, hfin.settled⟩ (hfin.inv.base.recorded_finish hfin.passed hfin.meaning _) rfl
      (Nat.le_trans hg.upvalues_le hh.upvalues_le)
  rw [← hheq] at hinv
  have hkeeps :
      Keeps s (t.resume (h.adopt ((t.finish code).fn.prototype (t.finish code).lexer.source)) hs) :=
    .resume hheq hu hstays h₁ hblocks hvars hlabels hgotos
      (fun i w hw => hh.upvalues i w (hg.upvalues i w hw)) (hgs.trans hhs)
  refine Via.next (Via.get ?_)
  rw [show (t.finish code).outer = h :: hs from hto]
  rw [hfree]
  exact ⟨Logs.of_same rfl rfl rfl rfl rfl,
    Via.pure ⟨hkeeps, hstays.measure, closure_resume hheq rfl hinv⟩⟩

end Compile

end LuaChunk
