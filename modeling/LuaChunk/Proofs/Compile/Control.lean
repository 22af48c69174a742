import LuaChunk.Proofs.Compile.Primary

set_option autoImplicit false

namespace LuaChunk

open JumpList (Code IsOp Chain)

namespace Compile

variable {F F' : List Pending} {s s' s'' : State} {r : Nested} {line l t pc : Nat} {ms : List Nat}
  {live live' : Nat → Prop} {b : Block}

/-! ### Scopes that are back to what they were -/

namespace Rejoins

theorem refl (h : Rests F s) : Rejoins F s s :=
  ⟨h, rfl, rfl, rfl, fun _ _ => rfl, ⟨rfl, fun _ _ => rfl⟩, ⟨Nat.le_refl _, fun _ _ => rfl⟩, rfl⟩

theorem trans (h : Rejoins F s s') (h' : Rejoins F' s' s'') : Rejoins F' s s'' where
  rests := h'.rests
  firstVar := h'.firstVar.trans h.firstVar
  firstLabel := h'.firstLabel.trans h.firstLabel
  active := h'.active.trans h.active
  vars k hk := by rw [h'.vars k (by rw [h.firstVar, h.active]; exact hk), h.vars k hk]
  labels := ⟨h'.labels.1.trans h.labels.1, fun k hk => by
    rw [h'.labels.2 k (by rw [h.labels.1]; exact hk), h.labels.2 k hk]⟩
  gotos := ⟨Nat.le_trans h.gotos.1 h'.gotos.1, fun k hk => by
    rw [h'.gotos.2 k (Nat.lt_of_lt_of_le hk h.gotos.1), h.gotos.2 k hk]⟩
  blocks := h'.blocks.trans h.blocks

theorem after (hk : Keeps s s') (h : Rejoins F s' s'') : Rejoins F s s'' where
  rests := h.rests
  firstVar := h.firstVar.trans hk.firstVar
  firstLabel := h.firstLabel.trans (congrArg FnScope.firstLabel hk.scope)
  active := h.active.trans hk.active
  vars k hn := by rw [h.vars k (by rw [hk.firstVar, hk.active]; exact hn), hk.vars]
  labels := by rw [← hk.labels]; exact h.labels
  gotos := by rw [← hk.gotos]; exact h.gotos
  blocks := h.blocks.trans (congrArg FnScope.blocks hk.scope)

end Rejoins

theorem Keeps.rejoins (h : Keeps s s') (hr : Rests F s') : Rejoins F s s' :=
  (Rejoins.refl hr).after h

theorem Via.regain {R R' : State → State → Prop} {α : Type} {m : M α} {Q : α → State → Prop}
    (h : Via R m s Q) (hi : ∀ a s', R s s' → Q a s' → R' s s') : Via R' m s Q := by
  unfold Via at h ⊢
  split at h
  · exact ⟨hi _ _ h.1 h.2, h.2⟩
  · exact h

theorem Via.strictly {α : Type} {m : M α} {Q : α → State → Prop} {k : Nat}
    (hk : s.lexer.measure < k)
    (h : Via Stays m s Q) : Via Stays m s fun a s' => Q a s' ∧ s'.lexer.measure < k :=
  h.mono fun _ _ hs hq => ⟨hq, Nat.lt_of_le_of_lt hs.measure hk⟩

namespace Rests

theorem keep (h : Rests F s) (hk : Keeps s s') (hf : s'.fn.freeReg = s.fn.freeReg)
    (hi : Inv F' none (· < s.level) s') : Rests F' s' where
  inv := by rw [hk.level]; exact hi
  free := by rw [hk.level, hf, h.free]
  full := by rw [hk.vars, hk.firstVar, hk.active, h.full]

theorem coded (h : Rests F s) (hk : Coded s s') (hi : Inv F' none (· < s.level) s') : Rests F' s' :=
  h.keep hk.toKeeps hk.freeReg hi

theorem reframe (h : Rests F s) (hi : Inv F' none (· < s.level) s) : Rests F' s :=
  ⟨hi, h.free, h.full⟩

theorem level_le (h : Rests F s) : s.level ≤ 255 := by
  have := h.inv.base.placed.level_le (Nat.le_refl _)
  exact Nat.le_trans this (by decide)

theorem enter (h : Rests F s) (hb : s.Starts b) : Rests F (s.enter b) :=
  ⟨h.inv.enter hb, h.free, h.full⟩

theorem mark (h : Rests F s) : Rests (.target s.fn.code.size s.level :: F) s.mark :=
  h.coded (Coded.mark s) (h.inv.mark fun _ hr => hr)

theorem dropTarget (h : Rests (.target t l :: F) s) : Rests F s := h.reframe h.inv.dropTarget

theorem jump (h : Rests F s) : Rests (.list [s.fn.code.size] s.level :: F) s.jump :=
  h.coded (Coded.jump s) (h.inv.jump (fun _ hr => hr) fun _ hr => Nat.lt_of_lt_of_le hr h.level_le)

theorem patchToHere (h : Rests (.list ms s.level :: F) s) :
    Via Coded (patchToHere ms.head?) s fun _ s' => Rests F s' :=
  (patchToHere_spec h.inv fun _ hr => hr).mono fun _ _ hk h' => h.coded hk h'.1

theorem patchList (h : Rests (.list ms s.level :: F) s) (ht : .target t s.level ∈ F) :
    Via Coded (patchList ms.head? t) s fun _ s' => Rests F s' :=
  (patchList_spec h.inv (List.mem_append_left _ ht) (Nat.le_refl _)).mono fun _ _ hk h' =>
    h.coded hk h'.1

theorem jumpTo (h : Rests F s) (ht : .target t s.level ∈ F) :
    Via Coded (jumpTo t) s fun _ s' => Rests F s' := by
  refine Via.next (Via.jump ?_)
  exact Rests.patchList (s := s.jump) h.jump ht

theorem use (h : Rests F s) (used : List (Option Nat)) : Rests F (s.use used) :=
  ⟨h.inv.use used, h.free, h.full⟩

end Rests

namespace Rejoins

theorem setLexer {x : Lexer} (h : Rejoins F s s') (hx : s'.Passes x) :
    Rejoins F s (s'.setLexer x) :=
  { h with rests := h.rests.setLexer hx }

theorem of_setLexer {x : Lexer} (h : Rejoins F (s.setLexer x) s') : Rejoins F s s' := { h with }

theorem of_use {used : List (Option Nat)} (h : Rejoins F (s.use used) s') : Rejoins F s s' :=
  { h with }

theorem coded (h : Rejoins F s s') (hk : Coded s' s'') (hr : Rests F' s'') : Rejoins F' s s'' :=
  h.trans (hk.toKeeps.rejoins hr)

end Rejoins

/-! ### Blocks -/

theorem blockRest_spec (ok : NestedOk r) (hs : Base s) (hb : s.Starts b) (h : Rests F (s.enter b)) :
    Via Stays (do
      statements r
      discard leaveBlock) (s.enter b) fun _ s' => Rejoins F s s' := by
  refine Via.bind ((statements_spec ok h).further fun _ => Advances.toStays) fun _ s₁ _ ⟨ha, h₁⟩ =>
    ?_
  exact Via.discard ((leaveBlock_spec hs hb ha h₁.ends).mono fun _ _ _ h₂ => h₂.1)

theorem block_spec (ok : NestedOk r) (h : Rests F s) : Via Stays (block r) s fun _ s' =>
    Rejoins F s s' := by
  refine Via.next (Via.noteLists (h.inv.moment []) ?_)
  have hused := h.use []
  refine Via.next (Via.enterBlock hused.inv.base hused.free fun _ hb _ _ => ?_)
  exact (blockRest_spec ok hused.inv.base hb (hused.enter hb)).mono fun _ _ _ h' => h'.of_use

/-! ### Conditions -/

theorem Read.ofNil {base : Nat} {T E : Option Nat} (h : Read F base ⟨.nil, T, E⟩ s) :
    Read F base ⟨.false_, T, E⟩ s where
  low := h.low
  jumps := h.jumps
  place := h.place
  bare hk := nomatch hk
  fresh := .of_ne fun _ hk => nomatch hk

def Excludes (F : List Pending) (l : Nat) (list : Option Nat) (s : State) : Prop :=
  ∃ ms : List Nat, list = ms.head? ∧ Rests (.list ms l :: F) s

theorem Read.asCondition {base : Nat} {e : Exp} (h : Read F base e s) :
    Read F base (match e.kind with
      | .nil => { e with kind := .false_ }
      | _ => e) s := by
  obtain ⟨kind, T, E⟩ := e
  cases kind with
  | nil => exact h.ofNil
  | _ => exact h

theorem condition_spec (ok : NestedOk r) (h : Rests F s) :
    Via Keeps (condition r) s fun list s' => Excludes F s.level list s' ∧
      s'.lexer.measure < s.lexer.measure := by
  refine Via.bind (expression_spec ok h.ready) fun e s₁ hk h₁ => ?_
  have hread := h₁.read.asCondition
  rw [h.free] at hread
  refine Via.bind (goIfTrue_spec hread.toVal hread.fresh) ?_
  rintro e' s₂ hk₂ ⟨-, -, hf, ms, hms, hi⟩
  refine Via.pure ⟨⟨ms, hms, h.keep (hk.trans hk₂) (hf.trans h.free.symm) hi⟩, ?_⟩
  exact Nat.lt_of_le_of_lt hk₂.measure h₁.progress

/-- The state in the middle of an `if` statement: the jumps to its end are listed. -/
def Escapes (F : List Pending) (s : State) (escape : Option Nat) (s' : State) : Prop :=
  ∃ ms : List Nat, escape = ms.head? ∧ Rejoins (.list ms s.level :: F) s s'

theorem Rests.relist {P : List Pending} (h : Rests F s) (hp : P.Perm F) : Rests P s :=
  h.reframe (h.inv.perm hp)

theorem Rests.escape {E : List Nat} (h : Rests (.list ms s.level :: .list E s.level :: F) s) :
    Via Coded (appendJumps E.head? (some s.fn.code.size)) s.jump fun escape s' =>
      ∃ M : List Nat, escape = M.head? ∧ Rests (.list ms s.level :: .list M s.level :: F) s' := by
  have hj := h.jump.relist (P := .list E s.level :: .list [s.fn.code.size] s.level ::
    .list ms s.level :: F)
    ((List.Perm.swap ..).trans ((List.Perm.swap ..).cons _))
  refine (appendJumps_spec hj.inv).mono ?_
  rintro _ s' hk ⟨rfl, hi, -⟩
  exact ⟨_, rfl, (hj.coded hk hi).relist (List.Perm.swap ..)⟩

theorem skipRest_spec {E : List Nat} (h : Rests (.list ms s.level :: .list E s.level :: F) s) :
    Via Coded (do
      let k ← currentKind
      let escape ←
        if k = .word .else_ || k = .word .elseif_ then appendJumps E.head? (some (← jump))
        else pure E.head?
      patchToHere ms.head?
      return escape) s fun escape s' => Excludes F s.level escape s' := by
  have hend : ∀ (M : List Nat) (s₁ : State), s₁.level = s.level →
      Rests (.list ms s.level :: .list M s.level :: F) s₁ →
      Via Coded (do
        patchToHere ms.head?
        return M.head?) s₁ fun escape s' => Excludes F s.level escape s' := by
    intro M s₁ hl h₁
    rw [← hl] at h₁ ⊢
    exact Via.bind h₁.patchToHere fun _ s₂ _ h₂ => Via.pure ⟨M, rfl, h₂⟩
  refine Via.next (Via.currentKind
    (Via.ite (fun _ => ?_) fun _ => Via.next (Via.pure (hend E s rfl h))))
  refine Via.next (Via.jump ?_)
  refine Via.bind h.escape ?_
  rintro _ s₁ hk ⟨M, rfl, h₁⟩
  exact hend M s₁ hk.level h₁

theorem testThenBlock_spec {escape : Option Nat} (ok : NestedOk r)
    (h : Excludes F s.level escape s) :
    Via Stays (testThenBlock r escape) s fun escape' s' =>
      Escapes F s escape' s' ∧ s'.lexer.measure < s.lexer.measure := by
  obtain ⟨E, rfl, hr⟩ := h
  refine Via.next (Via.pass hr.inv.base fun x hx => ?_)
  refine Via.bind ((condition_spec ok (hr.setLexer hx)).further fun _ => Keeps.toStays) ?_
  rintro _ s₁ - ⟨hk₁, ⟨ms, rfl, h₁⟩, hm⟩
  have hm₁ : s₁.lexer.measure < s.lexer.measure := Nat.lt_of_lt_of_le hm hx.measure
  refine Via.next (Via.checkNext h₁.inv.base (by simp) fun y hy => ?_)
  refine Via.bind ((block_spec ok (h₁.setLexer hy.toPasses)).further fun _ => id)
    fun _ s₂ _ ⟨hs₂, h₂⟩ => ?_
  have hl : s₂.level = s.level := h₂.level.trans hk₁.level
  have hr₂ := h₂.rests
  change Rests (.list ms s.level :: .list E s.level :: F) s₂ at hr₂
  rw [← hl] at hr₂
  refine (Via.widen (skipRest_spec hr₂)).mono ?_
  rintro _ s₃ - ⟨hk₃, M, rfl, h₃⟩
  rw [hl] at h₃
  refine ⟨⟨M, rfl, ?_⟩, ?_⟩
  · exact ((((hk₁.rejoins h₁).setLexer hy.toPasses).trans h₂).trans
      (hk₃.toKeeps.rejoins h₃)).of_setLexer
  · have := hs₂.measure
    have := hk₃.measure
    have := hy.progress
    change y.measure < s₁.lexer.measure at this
    change s₂.lexer.measure ≤ y.measure at *
    omega

/-! ### If statements -/

theorem ifStatement_spec (ok : NestedOk r) (h : Rests F s) :
    Via Stays (ifStatement r line) s fun _ s' => Rejoins F s s' ∧
      s'.lexer.measure < s.lexer.measure := by
  have h₀ : Excludes F s.level (none : Option Nat) s := ⟨[], rfl, h.reframe (h.inv.addNil _)⟩
  refine Via.bind (testThenBlock_spec ok h₀) ?_
  rintro _ s₁ - ⟨⟨ms, rfl, h₁⟩, hm⟩
  refine Via.strictly hm ?_
  refine Via.bind (Via.repeatTurn (fun escape s' => Escapes F s escape s')
    (Q := fun escape s' => Escapes F s escape s')
    ⟨ms, rfl, h₁⟩ h₁.rests.inv.base.progress ?_) ?_
  · rintro _ s₂ ⟨ms, rfl, h₂⟩
    refine Via.next (Via.currentKind (Via.ite (fun _ => ?_) fun _ => Via.pure ⟨ms, rfl, h₂⟩))
    have hr : Excludes F s₂.level ms.head? s₂ := ⟨ms, rfl, by rw [h₂.level]; exact h₂.rests⟩
    refine Via.bind (testThenBlock_spec ok hr) ?_
    rintro _ s₃ - ⟨⟨ms', rfl, h₃⟩, hm⟩
    rw [h₂.level] at h₃
    exact Via.pure ⟨⟨ms', rfl, h₂.trans h₃⟩, hm⟩
  · rintro _ s₂ - ⟨ms, rfl, h₂⟩
    have hend : ∀ s₃, Rejoins (.list ms s.level :: F) s s₃ → Via Stays (do
        checkMatch (.word .end_) (.word .if_) line
        patchToHere ms.head?) s₃ fun _ s' => Rejoins F s s' := by
      intro s₃ h₃
      refine Via.next (Via.checkMatch h₃.rests.inv.base (by simp) fun _ x hx => ?_)
      have hr := h₃.rests
      rw [← h₃.level] at hr
      exact (Via.widen (hr.setLexer hx.toPasses).patchToHere).mono fun _ s₄ _ ⟨hk, h₄⟩ =>
        (h₃.setLexer hx.toPasses).coded hk h₄
    refine Via.next (Via.testNext h₂.rests.inv.base (by simp) (fun _ x hx => ?_) (hend s₂ h₂))
    refine Via.bind (block_spec ok (h₂.rests.setLexer hx.toPasses)) fun _ s₃ _ h₃ => ?_
    exact hend s₃ ((h₂.setLexer hx.toPasses).trans h₃)

/-! ### While and repeat loops -/

theorem whileStatement_spec (ok : NestedOk r) (h : Rests F s) :
    Via Stays (whileStatement r line) s fun _ s' => Rejoins F s s' ∧
      s'.lexer.measure < s.lexer.measure := by
  refine Via.next (Via.pass h.inv.base fun x hx => Via.next (Via.markTarget ?_))
  have h₁ := (h.setLexer hx).mark
  refine Via.bind ((condition_spec ok h₁).further fun _ => Keeps.toStays) ?_
  rintro _ s₂ - ⟨hk₂, ⟨ms, rfl, h₂⟩, hm⟩
  refine Via.strictly (Nat.lt_of_lt_of_le hm hx.measure) ?_
  have hl₂ : s₂.level = s.level := hk₂.level
  change Rests (.list ms s.level :: .target s.fn.code.size s.level :: F) s₂ at h₂
  have hj₂ : Rejoins (.list ms s.level :: .target s.fn.code.size s.level :: F) s s₂ :=
    { hk₂.rejoins h₂ with rests := h₂ }
  refine Via.next (Via.enterBlock h₂.inv.base h₂.free fun b hb _ _ => ?_)
  refine Via.next (Via.checkNext (h₂.enter hb).inv.base (by simp) fun y hy => ?_)
  refine Via.bind ((block_spec ok ((h₂.enter hb).setLexer hy.toPasses)).further fun _ => id)
    fun _ s₃ _ ⟨hs₃, h₃⟩ => ?_
  have ha₃ := h₃.of_setLexer.advances
    { hs₃ with
      tokens := hs₃.tokens.trans hy.tokens, measure := Nat.le_trans hs₃.measure hy.measure }
  have hl₃ : s₃.level = s.level := h₃.level.trans hl₂
  -- the way back
  have hmem : .target s.fn.code.size s₃.level ∈ Pending.list ms s.level ::
      .target s.fn.code.size s.level :: F := by
    rw [hl₃]
    exact List.mem_cons_of_mem _ (List.mem_cons_self ..)
  refine Via.bind (h₃.rests.jumpTo hmem).widen ?_
  rintro _ s₄ - ⟨hk₄, h₄⟩
  refine Via.next (Via.checkMatch h₄.inv.base (by simp) fun _ z hz => ?_)
  have ha₄ : Advances (s₂.enter b) (s₄.setLexer z) :=
    (ha₃.trans hk₄.toKeeps.advances).trans (Coded.setLexer hz.toPasses).toKeeps.advances
  have hleave := leaveBlock_spec h₂.inv.base hb ha₄ (h₄.setLexer hz.toPasses).ends
  refine Via.next (Via.discard (hleave.mono fun _ s₅ _ ⟨h₅, _⟩ => ?_))
  have hj₅ := hj₂.trans h₅
  have hr₅ := h₅.rests
  rw [← hj₅.level] at hr₅
  exact (Via.widen hr₅.patchToHere).mono fun _ s₆ _ ⟨hk₆, h₆⟩ => hj₅.coded hk₆ h₆.dropTarget

theorem Advances.level_le (h : Advances s s') (hb : Base s') : s.level ≤ s'.level := by
  have hl : levelOf s'.vars s'.fn.firstVar s.fn.active = s.level := by
    rw [h.firstVar]
    exact levelOf_congr fun k hk => h.vars _ (by omega)
  rw [← hl]
  exact hb.placed.level_mono h.active (Nat.le_refl _)

theorem closeBack_spec {n : Nat} {f : Option Nat → M Unit} {Q : Unit → State → Prop}
    (h : Rests (.list ms s.level :: F) s)
    (hn : n = s.fn.active)
    (hf : ∀ pc s', Coded s s' → Rests (.list [pc] s.level :: F) s' → Via Stays (f (some pc)) s' Q) :
    Via Stays (do
      let exit ← jump
      patchToHere ms.head?
      discard (emitABC .close (← registerLevel n) 0 0)
      let again ← jump
      patchToHere (some exit)
      let again ← pure (some again)
      f again) s Q := by
  have hlevel : s.level ≤ maxLocals := h.inv.base.placed.level_le (Nat.le_refl _)
  refine Via.next (Via.jump ?_)
  have h₁ := h.jump.relist (P := .list ms s.level :: .list [s.fn.code.size] s.level :: F)
    (List.Perm.swap ..)
  refine Via.bind (Rests.patchToHere (s := s.jump) h₁).widen fun _ s₂ _ ⟨hk₂, h₂⟩ => ?_
  have hl₂ : s₂.level = s.level := hk₂.level
  refine Via.next (Via.registerLevel h₂.inv.base (by rw [hn]; exact Nat.le_of_eq hk₂.active.symm)
    ?_)
  rw [hn, show levelOf s₂.vars s₂.fn.firstVar s.fn.active =
    s.level by rw [hk₂.vars, hk₂.firstVar]; rfl]
  refine Via.next (Via.discard (Via.emit (Via.next (Via.jump ?_))))
  have h₃ : Rests (.list [s.fn.code.size] s₂.level :: F)
      (s₂.emit (.abck .close s.level 0 0 0)) := by
    rw [hl₂]
    exact h₂.coded (Coded.emit _ _) (h₂.inv.close hlevel)
  have h₄ := h₃.jump.relist (List.Perm.swap ..)
  refine Via.bind (Rests.patchToHere (s := (s₂.emit _).jump) h₄).widen fun _ s₅ _ ⟨hk₅, h₅⟩ => ?_
  rw [show (s₂.emit (.abck .close s.level 0 0 0)).level = s.level from hl₂] at h₅
  refine Via.next (Via.pure (hf _ s₅ ?_ h₅))
  exact (((Coded.jump s).trans hk₂).trans ((Coded.emit s₂ _).trans (Coded.jump _))).trans hk₅

theorem repeatStatement_spec (ok : NestedOk r) (h : Rests F s) :
    Via Stays (repeatStatement r line) s fun _ s' => Rejoins F s s' ∧
      s'.lexer.measure < s.lexer.measure := by
  refine Via.next (Via.markTarget ?_)
  have h₁ := h.mark
  refine Via.next (Via.enterBlock h₁.inv.base h₁.free fun b hb _ _ => ?_)
  have h₂ := h₁.enter hb
  refine Via.next (Via.enterBlock h₂.inv.base h₂.free fun c hc _ _ => ?_)
  have h₃ := h₂.enter hc
  refine Via.next (Via.pass h₃.inv.base fun x hx => ?_)
  refine Via.bind ((statements_spec ok (h₃.setLexer hx)).further fun _ => Advances.toStays)
    fun _ s₄ _ ⟨ha₄, h₄⟩ => ?_
  refine Via.next (Via.checkMatch h₄.ends.toBase (by simp) fun huntil y hy => ?_)
  refine Via.strictly (Nat.lt_of_lt_of_le hy.progress (Nat.le_trans ha₄.measure hx.measure)) ?_
  have hr₄ := (h₄.rests (by rw [huntil]; rfl)).setLexer hy.toPasses
  refine Via.bind ((condition_spec ok hr₄).further fun _ => Keeps.toStays) ?_
  rintro _ s₅ - ⟨hk₅, ⟨ms, rfl, h₅⟩, -⟩
  have ha₅ : Advances ((s.mark.enter b).enter c) s₅ :=
    ((Coded.setLexer hx).toKeeps.advances.trans ha₄).trans
      ((Coded.setLexer hy.toPasses).toKeeps.advances.trans hk₅.advances)
  refine Via.bind ((leaveBlock_spec h₂.inv.base hc ha₅ h₅.ends).further fun _ => id) ?_
  rintro scope s₆ - ⟨hs₆, h₆, hscope⟩
  have hlevel : scope.level = s₆.fn.active :=
    ((congrArg BlockScope.level hscope).trans (congrArg BlockScope.level hc)).trans h₆.active.symm
  have hl₆ : s₆.level = s.level := h₆.level
  have ha₆ : Advances (s.mark.enter b) s₆ :=
    h₆.advances ((Stays.relabel : Stays _ ((s.mark.enter b).enter c)).trans (ha₅.toStays.trans hs₆))
  -- the jumps wait in the scope of the body; outside of it there are fewer variables
  have hr₆ : Rests (.list ms s₆.level :: .target s.fn.code.size s.level :: F) s₆ := by
    refine h₆.rests.reframe (h₆.rests.inv.relist (.inr ?_))
    have hle := ha₅.level_le h₅.inv.base
    rw [hk₅.level] at hle
    rw [hl₆]
    exact hle
  have hend : ∀ (again : Option Nat) (s₇ : State), Advances s₆ s₇ →
      Excludes (.target s.fn.code.size s.level :: F) s.level again s₇ → s₇.level = s.level →
        Via Stays (do
        patchList again s.fn.code.size
        discard leaveBlock) s₇ fun _ s' => Rejoins F s s' := by
    rintro _ s₇ ha₇ ⟨ms, rfl, h₇⟩ hl₇
    rw [← hl₇] at h₇
    refine Via.bind (h₇.patchList (List.mem_cons_self ..)).widen fun _ s₈ _ ⟨hk₈, h₈⟩ => ?_
    have ha₈ := (ha₆.trans ha₇).trans hk₈.toKeeps.advances
    refine Via.discard ((leaveBlock_spec h₁.inv.base hb ha₈ h₈.ends).mono fun _ s₉ _ h₉ => ?_)
    exact { h₉.1 with rests := h₉.1.rests.dropTarget }
  refine Via.ite (fun _ => ?_) fun _ => ?_
  · refine closeBack_spec (f := fun again => do
      patchList again s.fn.code.size
      discard leaveBlock) hr₆ hlevel fun pc s₇ hk₇ h₇ => ?_
    rw [hl₆] at h₇
    exact hend (some pc) s₇ hk₇.toKeeps.advances ⟨[pc], rfl, h₇⟩ (hk₇.level.trans hl₆)
  · rw [hl₆] at hr₆
    exact hend _ s₆ (Advances.refl s₆) ⟨ms, rfl, hr₆⟩ hl₆

/-! ### For loops -/

variable {base n d : Nat} {g : Bool}

def loopCode (isGeneric : Bool) : LoopCode := if isGeneric then genericLoop else numericLoop

def stateSize (isGeneric : Bool) : Nat := if isGeneric then 4 else 3

theorem loopPrepare_refers (g : Bool) : (loopCode g).prepare.refers = false := by cases g <;> rfl

theorem Via.fixLoop (hpc : pc < s.fn.code.size) {Q : Unit → State → Prop}
    (h : d ≤ Instruction.maxBx → Q () (s.setAt pc [(.bx, d)])) : Via Coded (fixLoop pc d) s Q :=
  Via.ite (fun _ => Via.next Via.syntaxError) fun hd => Via.setAt hpc (h (Nat.le_of_not_lt hd))

theorem fits_setBx (hd : d ≤ Instruction.maxBx) :
    ([(Instruction.Field.bx, d)].all fun (f, v) => f.fits v) = true := by
  simpa [Instruction.Field.fits_iff, Instruction.Field.limit, Instruction.Field.bx,
    Instruction.maxBx] using hd

theorem loopStep_word (op : Opcode) (hb : base ≤ 255) (hd : d ≤ Instruction.maxBx) :
    ((Draft.abx op base 0).word.setAll [(.bx, d)]).opcode? = some op ∧
      ((Draft.abx op base 0).word.setAll [(.bx, d)]).a = base ∧
      ((Draft.abx op base 0).word.setAll [(.bx, d)]).bx = d := by
  have hfits : (Draft.abx op base 0).fits = true := Draft.fits_abx.2 ⟨hb, Nat.zero_le _⟩
  obtain ⟨ha, -⟩ := Draft.get_abx hfits
  exact ⟨(Instruction.opcode?_setAll _ _ rfl).trans (Draft.opcode?_word _),
    (Instruction.get_setAll_apart .a _ _ rfl).trans ha, Sound.bx_set hd⟩

theorem Inv.loop_lt (h : Inv (.loop pc base l g :: F) none live s) : pc < s.fn.code.size := by
  obtain ⟨i, hi, -⟩ := h.sound.shape.holds _ (List.mem_cons_self ..)
  exact (Array.getElem?_eq_some_iff.1 hi).1

def State.fixLoop (s : State) (pc : Nat) : State :=
  s.mark.setAt pc [(.bx, s.fn.code.size - (pc + 1))]

@[simp] theorem State.fixLoop_late (s : State) (pc : Nat) : (s.fixLoop pc).lateLoad = s.lateLoad :=
  rfl

theorem State.fixLoop_size (s : State) (pc : Nat) : (s.fixLoop pc).fn.code.size = s.fn.code.size :=
  Array.size_modify ..

def State.stepLoop (s : State) (op : Opcode) (base d : Nat) : State :=
  (s.emit (.abx op base 0)).setAt s.fn.code.size [(.bx, d)]

@[simp] theorem State.stepLoop_late {op : Opcode} : (s.stepLoop op base d).lateLoad = s.lateLoad :=
  rfl

theorem Base.stepLoop {op : Opcode} (h : Base s) (hb : base ≤ 255) (hd : d ≤ Instruction.maxBx)
    (hfree : op.refers = false) : Base (s.stepLoop op base d) := by
  have hop := Draft.opcode?_word (.abx op base 0)
  have hop' := (Instruction.opcode?_setAll _ [(.bx, d)] rfl).trans hop
  exact (h.emit (Draft.fits_abx.2 ⟨hb, Nat.zero_le _⟩) (Draft.refers_of_free hfree)).setAt
    (fits_setBx hd)
    (.modify_free Array.getElem?_push_size hop hop' hfree hfree)

theorem Base.fixLoop (h : Inv (.loop pc base l g :: F) none live s)
    (hd : s.fn.code.size - (pc + 1) ≤ Instruction.maxBx) :
    Base (s.fixLoop pc) := by
  obtain ⟨i, hi, -, hop⟩ := h.sound.shape.holds _ (List.mem_cons_self ..)
  have hop' := (Instruction.opcode?_setAll i [(.bx, s.fn.code.size - (pc + 1))] rfl).trans hop
  exact h.base.mark.setAt (fits_setBx hd)
    (.modify_free hi hop hop' (by cases g <;> rfl) (by cases g <;> rfl))

theorem Coded.stepLoop {op : Opcode} : Coded s (s.stepLoop op base d) :=
  (Coded.emit s _).trans (Coded.setAt _ _ _)

theorem State.stepLoop_view {op : Opcode} :
    (s.stepLoop op base d).fn.view =
      s.fn.view.push ((Draft.abx op base 0).word.setAll [(.bx, d)]) := by
  have hcode : (s.stepLoop op base d).fn.code =
      s.fn.code.push ((Draft.abx op base 0).word.setAll [(.bx, d)]) :=
    modify_push s.fn.code (Draft.abx op base 0).word (·.setAll [(.bx, d)])
  unfold Builder.view
  rw [hcode]
  rfl

theorem State.stepLoop_size {op : Opcode} :
    (s.stepLoop op base d).fn.code.size = s.fn.code.size + 1 := by
  simp [State.stepLoop, State.setAt, State.emit]

theorem stepLoop_spec {op : Opcode} {Q : Unit → State → Prop} (hb : Base s) (hbase : base ≤ 255)
    (hfree : op.refers = false)
    (h : s.fn.code.size + 1 - (pc + 1) ≤ Instruction.maxBx →
      Q () ((s.stepLoop op base (s.fn.code.size + 1 - (pc + 1))).fixLine line)) :
    Via Coded (do
      let step ← emitABx op base 0
      fixLoop step (step + 1 - (pc + 1))
      fixLine line) s Q := by
  refine Via.next (Via.emit (Via.next (Via.fixLoop (by simp [State.emit]) fun hd => ?_)))
  refine Via.fixLine (s := s.stepLoop op base _) (hb.stepLoop hbase hd hfree) ?_ (h hd)
  rw [State.stepLoop_size]
  exact Nat.succ_pos _

theorem closeNumeric_spec (h : Rests (.loop pc base l false :: F) s) (hs : s.level = base + 3)
    (hl : l ≤ base + 4) :
    Via Coded (do
      fixLoop pc ((← markTarget) - (pc + 1))
      let step ← emitABx .forLoop base 0
      fixLoop step (step + 1 - (pc + 1))
      fixLine line) s fun _ s' => Rests F s' := by
  have hpc := h.inv.loop_lt
  have hb : base ≤ 255 := by
    have := h.level_le
    omega
  refine Via.next (Via.markTarget (Via.next (Via.fixLoop (s := s.mark) hpc fun hd => ?_)))
  have hbase : Base (s.fixLoop pc) := .fixLoop h.inv hd
  refine stepLoop_spec (s := s.fixLoop pc) hbase hb rfl fun hd' => ?_
  rw [State.fixLoop_size] at hd' ⊢
  have hkeep : Coded s ((s.fixLoop pc).stepLoop .forLoop base (s.fn.code.size + 1 - (pc + 1))) :=
    ((Coded.mark s).trans (Coded.setAt _ _ _)).trans Coded.stepLoop
  refine Rests.coded h (hkeep.trans (Coded.fixLine _ _)) ?_
  have hheld : Holding ((s.fixLoop pc).stepLoop .forLoop base
      (s.fn.code.size + 1 - (pc + 1))).fn.openLists (F ++ s.waiting) :=
    h.inv.held
  refine Inv.fixLine ⟨hbase.stepLoop hb hd' rfl, ?_, by rw [hkeep.waiting]; exact hheld⟩
    (by rw [State.stepLoop_size]; exact Nat.succ_pos _)
  rw [State.stepLoop_view, hkeep.waiting, State.stepLoop_late, State.fixLoop_late]
  obtain ⟨hop, ha, hbx⟩ := loopStep_word .forLoop hb hd'
  have hm := (h.inv.mark (l := s.level) fun _ hr => hr).sound.perm (List.Perm.swap ..)
  refine (hm.closeNumeric (d := s.fn.code.size - (pc + 1)) ?_ hd hop ha ?_ hl ?_ ?_).dropTarget
  · exact Nat.add_sub_of_le hpc
  · rw [hbx]
    omega
  · rw [hs]
    exact fun _ hr => hr
  · rw [hs]
    exact fun _ hr => hr

def State.callLoop (s : State) (base n line : Nat) : State :=
  (s.emit (.abck .tforCall base 0 n 0)).fixLine line

@[simp] theorem State.callLoop_late : (s.callLoop base n line).lateLoad = s.lateLoad := rfl

theorem State.callLoop_size : (s.callLoop base n line).fn.code.size = s.fn.code.size + 1 :=
  Array.size_push ..

theorem State.callLoop_view :
    (s.callLoop base n line).fn.view = s.fn.view.push (Draft.abck .tforCall base 0 n 0).word := rfl

theorem Coded.callLoop : Coded s (s.callLoop base n line) :=
  (Coded.emit s _).trans (Coded.fixLine _ _)

theorem Base.callLoop (h : Base s) (hf : (Draft.abck .tforCall base 0 n 0).fits = true) :
    Base (s.callLoop base n line) :=
  (h.emit hf (Draft.refers_of_free rfl)).fixLine (by simp [State.emit])

theorem closeGeneric_spec (h : Rests (.loop pc base l true :: F) s) (hs : s.level = base + 4)
    (hl : l ≤ base + 4 + n)
    (hn : base + 4 + n ≤ s.fn.maxStack) :
    Via Coded (do
      fixLoop pc ((← markTarget) - (pc + 1))
      discard (emitABC .tforCall base 0 n)
      fixLine line
      let step ← emitABx .tforLoop base 0
      fixLoop step (step + 1 - (pc + 1))
      fixLine line) s fun _ s' => Rests F s' := by
  have hpc := h.inv.loop_lt
  have hmax := h.inv.maxStack_le
  have hb : base ≤ 255 := by omega
  have hfits : (Draft.abck .tforCall base 0 n 0).fits = true := Draft.fits_abck.2 (by omega)
  refine Via.next (Via.markTarget (Via.next (Via.fixLoop (s := s.mark) hpc fun hd => ?_)))
  have hbase : Base (s.fixLoop pc) := .fixLoop h.inv hd
  have hbase' := hbase.emit hfits (Draft.refers_of_free rfl)
  refine Via.next (Via.discard (Via.emit (Via.next (Via.fixLine (s := (s.fixLoop pc).emit _) hbase'
    (by simp [State.emit]) ?_))))
  refine stepLoop_spec (s := (s.fixLoop pc).callLoop base n line) (hbase.callLoop hfits) hb rfl
    fun hd' => ?_
  rw [State.callLoop_size, State.fixLoop_size] at hd' ⊢
  have hcoded : Coded s ((s.fixLoop pc).callLoop base n line) :=
    ((Coded.mark s).trans (Coded.setAt _ _ _)).trans Coded.callLoop
  refine h.coded (hcoded.trans (Coded.stepLoop.trans (Coded.fixLine _ _))) ?_
  have hinv : Inv F none (· < s.level)
      (((s.fixLoop pc).callLoop base n line).stepLoop .tforLoop base
        (s.fn.code.size + 1 + 1 - (pc + 1))) := by
    have hheld : Holding ((s.fixLoop pc).callLoop base n line).fn.openLists (F ++ s.waiting) :=
      h.inv.held
    refine ⟨(hbase.callLoop hfits).stepLoop hb hd' rfl,
      ?_, by rw [(hcoded.trans Coded.stepLoop).waiting]; exact hheld⟩
    rw [State.stepLoop_view, State.callLoop_view, (hcoded.trans Coded.stepLoop).waiting,
      State.stepLoop_late,
      State.callLoop_late, State.fixLoop_late]
    obtain ⟨hop, ha, hbx⟩ := loopStep_word .tforLoop hb hd'
    obtain ⟨hca, -, hcc, -⟩ := Draft.get_abck hfits
    have hm := (h.inv.mark (l := s.level) fun _ hr => hr).sound.perm (List.Perm.swap ..)
    have hstep : s.fn.code.size + 1 + 1 - (pc + 1) = s.fn.code.size - (pc + 1) + 2 := by omega
    have hend : .target s.fn.code.size (base + 4) ∈ .target s.fn.code.size s.level ::
        (F ++ s.waiting) := by
      rw [hs]
      exact List.mem_cons_self ..
    have hclosed : Sound _ s.lateLoad (_ :: (F ++ s.waiting)) none (· < s.level) :=
      hm.closeGeneric (d := s.fn.code.size - (pc + 1)) (Nat.add_sub_of_le hpc) hd
      (Draft.opcode?_word _) hca hcc hop ha (hbx.trans hstep) hl hn
        (fun r hr => by rw [hs]; exact hr)
      (fun r hr => by rw [← hs]; exact hr) hend
    exact hclosed.dropTarget
  exact hinv.fixLine (by rw [State.stepLoop_size]; exact Nat.succ_pos _)

theorem Inv.pushLoop {m : Nat} (h : Inv F none (· < base + stateSize g) s) (hm : s.fn.maxStack ≤ m)
    (hm' : m ≤ 254)
    (hspan : base + loopSpan g ≤ m) (hl : l ≤ 255) :
    Inv (.loop s.fn.code.size base l g :: F) none (· < l)
      ((s.emit (.abx (loopCode g).prepare base 0)).raise m) := by
  have hb : base ≤ 255 := by omega
  have hd : (Draft.abx (loopCode g).prepare base 0).fits = true :=
    Draft.fits_abx.2 ⟨hb, Nat.zero_le _⟩
  refine ⟨(h.base.emit hd (Draft.refers_of_free (loopPrepare_refers g))).raise hm, ?_, h.held⟩
  have hop : (Draft.abx (loopCode g).prepare base 0).word.opcode? =
      some (if g then .tforPrep else .forPrep) := by
    cases g <;> exact Draft.opcode?_word _
  exact (h.sound.raise hm hm').pushLoop hop (Draft.get_abx hd).1 hspan (fun r hr => hr)
    (fun r hr => hr) hl

theorem State.raise_enter {m : Nat} : (s.enter b).raise m = (s.raise m).enter b := rfl

theorem State.raise_rescope {m active : Nat} {vars : Array Variable} {locals : Array Span}
    {stores : Array Store} :
    (s.rescope vars active locals stores).raise m = (s.raise m).rescope vars active locals stores :=
      rfl

theorem closeLoop_spec (h : Rests (.loop pc base l g :: F) s) (hs : s.level = base + stateSize g)
    (hl : l ≤ base + stateSize g + n) (hn : g = false → n = 1)
    (hroom : base + stateSize g + n ≤ s.fn.maxStack) :
    Via Coded (do
      fixLoop pc ((← markTarget) - (pc + 1))
      if (loopCode g).isGeneric then
        discard (emitABC .tforCall base 0 n)
        fixLine line
      let step ← emitABx (loopCode g).step base 0
      fixLoop step (step + 1 - (pc + 1))
      fixLine line) s fun _ s' => Rests F s' := by
  cases g with
  | false =>
    obtain rfl := hn rfl
    exact closeNumeric_spec h hs hl
  | true => exact closeGeneric_spec h hs hl hroom

theorem loopBlock_spec {s₀ : State} {m : M Unit} {Q : Unit → State → Prop} (ok : NestedOk r)
    (h₀ : Base s₀)
    (hb : s₀.Starts b) (ha : Advances (s₀.enter b) s) (hmax : s.fn.maxStack ≤ 254)
    (hl : s.level = l)
    (hf : s.fn.freeReg + n = l) (hs : s.vars.size = s.fn.firstVar + s.fn.active)
    (hi : ∀ k, s.fn.maxStack ≤ k → l ≤ k → k ≤ 254 → Inv F none (· < l) (s.raise k))
    (hm : ∀ s', Rejoins F s₀ s' → l ≤ s'.fn.maxStack → Via Stays m s' Q) :
    Via Stays (do
      reserve n
      block r
      discard leaveBlock
      m) s Q := by
  subst hl
  refine Via.next (Via.reserve hmax fun k hk hfree hk' => ?_)
  have hbody : Rests F ((s.raise k).setFree (s.fn.freeReg + n)) :=
    ⟨(hi k hk (hf ▸ hfree) hk').setFree hfree, hf, hs⟩
  refine Via.bind ((block_spec ok hbody).further fun _ => id) fun _ s₂ _ ⟨hs₂, h₂⟩ => ?_
  have hadv : Advances (s₀.enter b) s₂ :=
    (ha.trans ((Keeps.raise s hk).trans (Keeps.setFree _ _)).advances).trans (h₂.advances hs₂)
  have hleave := (leaveBlock_spec h₀ hb hadv h₂.rests.ends).further fun _ => id
  refine Via.next (Via.discard (hleave.mono fun _ s₃ _ ⟨hs₃, h₃, _⟩ => hm s₃ h₃ ?_))
  rw [← hf]
  exact Nat.le_trans hfree (Nat.le_trans hs₂.stack hs₃.stack)

theorem loopBody_spec (ok : NestedOk r) (h : Inv F none (· < s.level) s)
    (hf : s.fn.freeReg = s.level)
    (hl : s.level = base + stateSize g) (hd : s.Declared n)
    (hs : s.vars.size = s.fn.firstVar + s.fn.active + n)
    (hn : g = false → n = 1) (hroom : g = true → base + 7 ≤ s.fn.maxStack) :
    Via Stays (loopBody r base line n (loopCode g)) s fun _ s' => Rejoins F s s' := by
  refine Via.next (Via.checkNext h.base (by simp) fun x hx => ?_)
  have h₁ := h.setLexer hx.toPasses
  have hmax := h.maxStack_le
  have hb : base ≤ 255 := by
    have := h.base.room
    omega
  have hfits : (Draft.abx (loopCode g).prepare base 0).fits = true :=
    Draft.fits_abx.2 ⟨hb, Nat.zero_le _⟩
  refine Via.next (Via.emit ?_)
  generalize hs₁ : (s.setLexer x).emit (.abx (loopCode g).prepare base 0) = s₁
  have hbase : Base s₁ := hs₁ ▸ h₁.base.emit hfits (Draft.refers_of_free (loopPrepare_refers g))
  have hcoded : Coded s s₁ := hs₁ ▸ (Coded.setLexer hx.toPasses).trans (Coded.emit _ _)
  have hpush : ∀ m, s₁.fn.maxStack ≤ m → base + stateSize g + n ≤ m → m ≤ 254 →
      Inv (.loop s.fn.code.size base (base + stateSize g + n) g :: F) none
        (· < base + stateSize g + n) (s₁.raise m) := by
    intro m hm hle hm'
    rw [hcoded.maxStack] at hm
    have hspan : base + loopSpan g ≤ m := by
      cases g with
      | false =>
        have := hn rfl
        simp only [loopSpan, stateSize, Bool.false_eq_true, if_false] at hle ⊢
        omega
      | true => exact Nat.le_trans (hroom rfl) hm
    rw [← hs₁]
    exact (hl ▸ h₁).pushLoop hm hm' hspan (by omega)
  refine Via.next (Via.enterBlock hbase (hcoded.freeReg.trans (hf.trans hcoded.level.symm))
    fun b hb _ _ => ?_)
  have hd₁ : (s₁.enter b).Declared n := by
    intro k hk
    rw [← hs₁]
    exact hd k hk
  refine Via.next (Via.activate (hbase.enter hb) hd₁ fun vars locals stores ha => ?_)
  have hadv : Advances (s₁.enter b)
      ((s₁.enter b).rescope vars ((s₁.enter b).fn.active + n) locals stores) :=
    .rescope (Nat.le_add_right _ n) fun k hk => ha.same k (.inl hk)
  have hlevel : levelOf vars s₁.fn.firstVar (s₁.fn.active + n) = base + stateSize g + n := by
    rw [← hl, ← hcoded.level]
    exact ha.level
  refine loopBlock_spec (F := .loop s.fn.code.size base (base + stateSize g + n) g :: F) ok hbase hb
    hadv
    (Nat.le_trans (Nat.le_of_eq hcoded.maxStack) hmax) hlevel ?_ ?_ ?_ fun s₃ h₃ hroom₃ => ?_
  · exact congrArg (· + n) (hcoded.freeReg.trans (hf.trans hl))
  · refine ha.size.trans ?_
    show s₁.vars.size = s₁.fn.firstVar + (s₁.fn.active + n)
    rw [hcoded.vars, hcoded.firstVar, hcoded.active, hs, Nat.add_assoc]
  · intro m hm hle hm'
    rw [State.raise_rescope, State.raise_enter]
    have hentered := (hpush m hm hle hm').enter (b := b) hb
    exact hentered.rescope ha.decls (hentered.base.reaches (Nat.le_add_right _ _)) fun k hk _ =>
      ha.same k (.inl hk)
  · have hj : Rejoins (.loop s.fn.code.size base (base + stateSize g + n) g :: F) s s₃ :=
      h₃.after hcoded.toKeeps
    refine (Via.widen (closeLoop_spec h₃.rests (h₃.level.trans (hcoded.level.trans hl))
      (Nat.le_refl _) hn hroom₃)).mono ?_
    rintro _ s₄ - ⟨hk, h₄⟩
    exact hj.coded hk h₄

/-! ### Variables that are declared and wait for their values -/

/-- After the declarations of `s` come `n` that are not active yet. They take registers or not. -/
structure Declares (F : List Pending) (placed : Bool) (n : Nat) (s s' : State) : Prop where
  ready : Ready F s'
  advances : Advances s s'
  active : s'.fn.active = s.fn.active
  size : s'.vars.size = s'.fn.firstVar + s'.fn.active + n
  declared : ∀ k < n, ∃ v, s'.vars[s'.fn.firstVar + s'.fn.active + k]? = some v ∧
    v.kind.inRegister = placed

namespace Declares

variable {placed : Bool}

theorem start (placed : Bool) (h : Rests F s) : Declares F placed 0 s s where
  ready := h.ready
  advances := .refl s
  active := rfl
  size := h.full
  declared _ hk := absurd hk (Nat.not_lt_zero _)

theorem keep (h : Declares F placed n s s') (hk : Keeps s' s'') (hr : Ready F s'') :
    Declares F placed n s s'' where
  ready := hr
  advances := h.advances.trans hk.advances
  active := hk.active.trans h.active
  size := by rw [hk.vars, hk.firstVar, hk.active, h.size]
  declared k hlt := by
    rw [hk.vars, hk.firstVar, hk.active]
    exact h.declared k hlt

theorem setLexer {x : Lexer} (h : Declares F placed n s s') (hx : s'.Passes x) :
    Declares F placed n s (s'.setLexer x) :=
  h.keep (Coded.setLexer hx).toKeeps (h.ready.setLexer hx)

theorem declare {v : Variable} (h : Declares F placed n s s') (hv : v.kind.inRegister = placed)
    (hc : v.control = true → v.kind.isReadOnly = true) :
    Declares F placed (n + 1) s (s'.declare v) where
  ready := ⟨h.ready.inv.declare v hc, by
    refine Nat.le_trans (Nat.le_of_eq ?_) h.ready.low
    have hrange := h.ready.inv.base.placed.range
    exact levelOf_congr fun k (hk : k < s'.fn.active) => push_same v hrange _ (by
      show s'.fn.firstVar + k < _
      omega)⟩
  advances := h.advances.trans (.declare h.ready.inv.base v)
  active := h.active
  size := by
    show (s'.vars.push v).size = s'.fn.firstVar + s'.fn.active + (n + 1)
    rw [Array.size_push, h.size]
    rfl
  declared k hk := by
    show ∃ w, (s'.vars.push v)[s'.fn.firstVar + s'.fn.active + k]? = some w ∧ _
    by_cases hlast : k = n
    · rw [hlast, ← h.size]
      exact ⟨v, Array.getElem?_push_size, hv⟩
    · rw [push_same v (Nat.le_refl _) _ (by have := h.size; omega)]
      exact h.declared k (by omega)

theorem hidden {x : Lexer} (name : String) (h : Declares F true n s s') (hx : s'.Passes x) :
    Declares F true (n + 1) s
      ((s'.setLexer x).declare { kind := .regular, name := some (utf8 name) }) :=
  (h.setLexer hx).declare rfl fun h => nomatch h

end Declares

theorem Declares.level {placed : Bool} (h : Declares F placed n s s') : s'.level = s.level := by
  unfold State.level
  rw [h.active, h.advances.firstVar]
  exact levelOf_congr fun k hk => h.advances.vars _ (by omega)

/-- The variables of the state have become active, and `n` more wait. -/
structure LoopReady (F : List Pending) (base n : Nat) (s s' : State) : Prop where
  inv : Inv F none (· < s'.level) s'
  free : s'.fn.freeReg = s'.level
  level : s'.level = base
  declared : s'.Declared n
  size : s'.vars.size = s'.fn.firstVar + s'.fn.active + n
  advances : Advances s s'

theorem Declares.activate {k : Nat} {vars : Array Variable} {locals : Array Span}
    (stores : Array Store)
    (h : Declares F true (k + n) s s') (ha : Activated s' k vars locals)
    (hf : s'.fn.freeReg = s.level + k) :
    LoopReady F (s.level + k) n s (s'.rescope vars (s'.fn.active + k) locals stores) := by
  have hlevel : (s'.rescope vars (s'.fn.active + k) locals stores).level = s.level + k := by
    rw [← h.level]
    exact ha.level
  refine ⟨?_, hf.trans hlevel.symm, hlevel, fun i hi => ?_, ?_, ?_⟩
  · rw [hlevel, ← hf]
    exact ha.inv h.ready.inv
  · obtain ⟨v, hv, hr⟩ := h.declared (k + i) (by omega)
    refine ⟨v, ?_, hr⟩
    show vars[s'.fn.firstVar + (s'.fn.active + k) + i]? = some v
    rw [ha.same _ (by omega), ← hv]
    congr 1
    omega
  · refine ha.size.trans ?_
    show s'.vars.size = s'.fn.firstVar + (s'.fn.active + k) + n
    rw [h.size]
    omega
  · exact h.advances.trans (.rescope (Nat.le_add_right _ _) fun j hj => ha.same j (.inl hj))

theorem LoopReady.rejoined {u : State} (h : LoopReady F base n s s') (hr : Rejoins F s' u)
    (hs : Stays s' u) :
    Rests F u ∧ Advances s u :=
  ⟨hr.rests, h.advances.trans (hr.advances hs)⟩

/-! ### For statements -/

theorem expressionToRegister_spec (ok : NestedOk r) (h : Ready F s) :
    Via Keeps (expressionToRegister r) s fun _ s' => Ready F s' ∧
      s'.fn.freeReg = s.fn.freeReg + 1 := by
  refine Via.bind (expression_spec ok h) fun e s₁ _ h₁ => ?_
  exact Via.discard ((toNextRegister_spec h₁.read.toVal).mono fun _ s₂ _ ⟨_, hf, hv⟩ =>
    ⟨hv.ready hf, hf⟩)

theorem defaultStep_spec {m : M Unit} {Q : Unit → State → Prop} (h : Ready F s)
    (hm : ∀ s', Keeps s s' → Ready F s' → s'.fn.freeReg = s.fn.freeReg + 1 → Via Stays m s' Q) :
    Via Stays (do
      loadInt (← freeReg) 1
      reserve 1
      m) s Q := by
  have hmax := h.inv.maxStack_le
  have hfits : (fitsSBx 1 : Bool) = true := by decide
  refine Via.next (Via.freeReg (Via.next ?_))
  unfold loadInt
  rw [if_pos hfits]
  refine Via.discard (Via.emit
    (Via.next (Via.reserve (s := s.emit _) hmax fun k hk hfree hk' => ?_)))
  change s.fn.freeReg + 1 ≤ k at hfree
  have hd : (Draft.asbx .loadI s.fn.freeReg (Int64.toInt 1)).fits = true :=
    Draft.fits_asbx.2 ⟨by omega, by decide, by decide⟩
  have hi : Inv F none (· < s.fn.freeReg + 1)
      ((s.raise k).emit (.asbx .loadI s.fn.freeReg (Int64.toInt 1))) :=
    (h.inv.raise hk hk').load hd (.inr (.inr (.inl rfl))) (by simp [Draft.opcode])
      (Draft.get_asbx hd) hfree
      (fun r hr => by omega) (Instruction.serves_of_free rfl)
  refine hm _ ?_ ⟨hi.setFree hfree, Nat.le_succ_of_le h.low⟩ rfl
  exact (Coded.emit s _).toKeeps.trans ((Keeps.raise _ hk).trans (Keeps.setFree _ _))

theorem numericFor_spec {name : Bytes} {number : Nat} (ok : NestedOk r) (h : Rests F s) :
    Via Stays (numericFor r name number line) s fun _ s' => Rests F s' ∧ Advances s s' := by
  refine Via.next (Via.freeReg ?_)
  have h₀ := Declares.start true h
  refine Via.next (Via.declareHidden h₀.ready.inv.base fun x₁ hx₁ => ?_)
  have h₁ := h₀.hidden loopStateName hx₁
  refine Via.next (Via.declareHidden h₁.ready.inv.base fun x₂ hx₂ => ?_)
  have h₂ := h₁.hidden loopStateName hx₂
  refine Via.next (Via.declareHidden h₂.ready.inv.base fun x₃ hx₃ => ?_)
  have h₃ := h₂.hidden loopStateName hx₃
  refine Via.next (Via.discard (Via.declare h₃.ready.inv.base ?_))
  have h₄ :=
    h₃.declare
    (v := { kind := .const, name := some name, declaredAt := some number, control := true }) rfl
    fun _ => rfl
  refine Via.next (Via.checkNext h₄.ready.inv.base (by simp) fun x₅ hx₅ => ?_)
  have h₅ := h₄.setLexer hx₅.toPasses
  -- the initial value, the limit and the step are in the three registers for them
  refine Via.bind ((expressionToRegister_spec ok h₅.ready).further fun _ => Keeps.toStays) ?_
  rintro _ s₆ - ⟨hk₆, hr₆, hf₆⟩
  refine Via.next (Via.checkNext hr₆.inv.base (by simp) fun x₇ hx₇ => ?_)
  refine Via.bind ((expressionToRegister_spec ok (hr₆.setLexer hx₇.toPasses)).further fun _ =>
    Keeps.toStays) ?_
  rintro _ s₈ - ⟨hk₈, hr₈, hf₈⟩
  have h₈ := (h₅.keep hk₆ hr₆).setLexer hx₇.toPasses |>.keep hk₈ hr₈
  have hfree : s₈.fn.freeReg = s.level + 2 := by
    rw [hf₈, show (s₆.setLexer x₇).fn.freeReg = s₆.fn.freeReg from rfl, hf₆]
    exact congrArg (· + 2) h.free
  have hbody : ∀ s₉, Declares F true 4 s s₉ → s₉.fn.freeReg = s.level + 3 → Via Stays (do
      activate 3
      loopBody r s.fn.freeReg line 1 numericLoop) s₉ fun _ s' => Rests F s' ∧ Advances s s' := by
    intro s₉ h₉ hf₉
    refine Via.next (Via.activate h₉.ready.inv.base (fun k hk => h₉.declared k (by omega))
      fun vars locals stores ha => ?_)
    have hl := Declares.activate (n := 1) stores h₉ ha hf₉
    rw [h.free]
    exact ((loopBody_spec (g := false) ok hl.inv hl.free hl.level hl.declared hl.size (fun _ => rfl)
      (fun hg => nomatch hg)).further fun _ => id).mono fun _ _ _ ⟨hs, hr⟩ => hl.rejoined hr hs
  refine Via.next (Via.testNext hr₈.inv.base (by simp) (fun _ x hx => ?_) ?_)
  · refine Via.bind ((expressionToRegister_spec ok (hr₈.setLexer hx.toPasses)).further fun _ =>
      Keeps.toStays) ?_
    rintro _ s₉ - ⟨hk₉, hr₉, hf₉⟩
    exact hbody s₉ ((h₈.setLexer hx.toPasses).keep hk₉ hr₉) (hf₉.trans (congrArg (· + 1) hfree))
  · refine defaultStep_spec hr₈ fun s₉ hk₉ hr₉ hf₉ => ?_
    exact hbody s₉ (h₈.keep hk₉ hr₉) (hf₉.trans (congrArg (· + 1) hfree))

theorem loopNames_spec {k : Nat} (h : Declares F true (k + 1) s s') :
    Via Stays (repeatTurn (fun (n : Nat) => do
      if ← testNext (.char ',') then
        let (name, number) ← takeDeclared
        discard (declare (some name) .regular (some number))
        return .again (n + 1)
      else return .done n) 1) s' fun n s'' => Declares F true (k + n) s s'' ∧
        s''.fn.freeReg = s'.fn.freeReg := by
  refine Via.repeatTurn (fun n s'' => Declares F true (k + n) s s'' ∧
    s''.fn.freeReg = s'.fn.freeReg) ⟨h, rfl⟩
    h.ready.inv.base.progress fun n s₁ ⟨h₁, hf₁⟩ => ?_
  refine Via.next (Via.testNext h₁.ready.inv.base (by simp) (fun _ x hx => ?_) (Via.pure ⟨h₁, hf₁⟩))
  have h₂ := h₁.setLexer hx.toPasses
  refine Via.next (Via.takeDeclared h₂.ready.inv.base fun name number y hy => ?_)
  have h₃ := h₂.setLexer hy.toPasses
  refine Via.next (Via.discard (Via.declare h₃.ready.inv.base (Via.pure ⟨⟨?_, hf₁⟩, ?_⟩)))
  · exact h₃.declare rfl fun h => nomatch h
  · exact Nat.lt_of_le_of_lt hy.measure hx.progress

theorem genericFor_spec {name : Bytes} {number : Nat} (ok : NestedOk r) (h : Rests F s) :
    Via Stays (genericFor r name number) s fun _ s' => Rests F s' ∧ Advances s s' := by
  refine Via.next (Via.freeReg ?_)
  have h₀ := Declares.start true h
  refine Via.next (Via.declareHidden h₀.ready.inv.base fun x₁ hx₁ => ?_)
  have h₁ := h₀.hidden loopStateName hx₁
  refine Via.next (Via.declareHidden h₁.ready.inv.base fun x₂ hx₂ => ?_)
  have h₂ := h₁.hidden loopStateName hx₂
  refine Via.next (Via.declareHidden h₂.ready.inv.base fun x₃ hx₃ => ?_)
  have h₃ := h₂.hidden loopStateName hx₃
  refine Via.next (Via.declareHidden h₃.ready.inv.base fun x₄ hx₄ => ?_)
  have h₄ := h₃.hidden loopStateName hx₄
  refine Via.next (Via.discard (Via.declare h₄.ready.inv.base ?_))
  have h₅ :=
    h₄.declare
    (v := { kind := .const, name := some name, declaredAt := some number, control := true }) rfl
    fun _ => rfl
  refine Via.bind (loopNames_spec (k := 4) h₅) fun n s₆ _ ⟨h₆, hf₆⟩ => ?_
  refine Via.next (Via.checkNext h₆.ready.inv.base (by simp) fun x₇ hx₇ => ?_)
  have h₇ := h₆.setLexer hx₇.toPasses
  refine Via.next (Via.currentLine ?_)
  refine Via.bind ((expressionList_spec ok h₇.ready).further fun _ => Keeps.toStays) ?_
  rintro list s₈ - ⟨hk₈, hlist, -⟩
  refine Via.bind ((adjustValues_spec 4 hlist.listed).further fun _ => Keeps.toStays) ?_
  rintro _ s₉ - ⟨hk₉, hf₉, hi₉⟩
  have hfree : s₉.fn.freeReg = s.level + 4 := hf₉.trans (congrArg (· + 4) (hf₆.trans h.free))
  have hlow : s₉.level ≤ s₉.fn.freeReg := by
    rw [hfree, (hk₈.trans hk₉).level]
    exact Nat.le_add_right_of_le (Nat.le_of_eq h₇.level)
  have h₉ := h₇.keep (hk₈.trans hk₉) ⟨hf₉ ▸ hi₉, hlow⟩
  refine Via.next (Via.activate h₉.ready.inv.base (fun k hk => h₉.declared k (by omega))
    fun vars locals stores ha => ?_)
  have hl := h₉.activate stores ha hfree
  generalize s₉.rescope vars (s₉.fn.active + 4) locals stores = t at hl ⊢
  refine Via.next (Via.markToClose hl.inv.base fun blocks hblocks => ?_)
  refine Via.next (Via.checkStack (s := t.remark blocks true) hl.inv.maxStack_le
    fun m hm hroom hm' => ?_)
  change t.fn.freeReg + 3 ≤ m at hroom
  have hroom' : s.level + 7 ≤ m := by
    rw [hl.free, hl.level] at hroom
    exact hroom
  have hl' : LoopReady F (s.level + 4) n s ((t.remark blocks true).raise m) :=
    ⟨(hl.inv.remark hblocks).raise hm hm', hl.free, hl.level, hl.declared, hl.size,
      (hl.advances.trans (.remark hblocks)).trans (Keeps.raise _ hm).advances⟩
  rw [h.free]
  exact ((loopBody_spec (g := true) ok hl'.inv hl'.free hl'.level hl'.declared hl'.size
    (fun hg => nomatch hg)
    (fun _ => hroom')).further fun _ => id).mono fun _ _ _ ⟨hs, hr⟩ => hl'.rejoined hr hs

theorem forStatement_spec (ok : NestedOk r) (h : Rests F s) :
    Via Stays (forStatement r line) s fun _ s' => Rejoins F s s' ∧
      s'.lexer.measure < s.lexer.measure := by
  refine Via.next (Via.enterBlock h.inv.base h.free fun b hb _ _ => ?_)
  have h₁ := h.enter hb
  refine Via.next (Via.pass h₁.inv.base fun x hx =>
    Via.next (Via.takeDeclared (h₁.setLexer hx).inv.base fun name number y hy => ?_))
  refine Via.strictly (Nat.lt_of_lt_of_le hy.progress hx.measure) ?_
  have h₂ := (h₁.setLexer hx).setLexer hy.toPasses
  have ha₂ : Advances (s.enter b) (((s.enter b).setLexer x).setLexer y) :=
    ((Coded.setLexer hx).trans (Coded.setLexer hy.toPasses)).toKeeps.advances
  have hend : ∀ s₃, Rests F s₃ ∧ Advances (((s.enter b).setLexer x).setLexer y) s₃ → Via Stays (do
      checkMatch (.word .end_) (.word .for_) line
      discard leaveBlock) s₃ fun _ s' => Rejoins F s s' := by
    rintro s₃ ⟨h₃, ha₃⟩
    refine Via.next (Via.checkMatch h₃.inv.base (by simp) fun _ z hz => ?_)
    have ha := (ha₂.trans ha₃).trans (Coded.setLexer hz.toPasses).toKeeps.advances
    exact Via.discard ((leaveBlock_spec h.inv.base hb ha (h₃.setLexer hz.toPasses).ends).mono
      fun _ _ _ h₄ => h₄.1)
  refine Via.next (Via.currentKind ?_)
  refine Via.ite (fun _ => Via.bind (numericFor_spec ok h₂) fun _ s₃ _ h₃ => hend s₃ h₃) fun _ => ?_
  refine Via.ite (fun _ => Via.bind (genericFor_spec ok h₂) fun _ s₃ _ h₃ => hend s₃ h₃) fun _ => ?_
  exact Via.next Via.syntaxError

end Compile

end LuaChunk
