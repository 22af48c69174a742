import LuaChunk.Proofs.Compile.Declaration

set_option autoImplicit false

namespace LuaChunk

open JumpList (Code IsOp Chain)

namespace Compile

variable {F F' : List Pending} {s s' : State} {live live' : Nat → Prop} {o : Option Nat} {b : Block}
  {rest blocks : List Block} {labels gotos : Array Label}

/-! ### Changes of labels, gotos and blocks -/

def FnScope.withBlocks (f : FnScope) (blocks : List BlockScope) : FnScope :=
  ⟨f.firstVar, f.firstLabel, f.active, f.numLocals, blocks⟩

def State.relabel (s : State) (labels gotos : Array Label) (blocks : List Block) : State :=
  { s with labels, gotos, fn := { s.fn with blocks } }

theorem Inv.relabel (hi : Inv F o live s)
    (hs : Scoped s.vars labels gotos (s.fn.scope.withBlocks (blocks.map Block.scope)))
    (hp
    : List.Perm (F' ++ waiting s.vars labels gotos (s.fn.scope.withBlocks (blocks.map Block.scope)))
      (F ++ s.waiting)) : Inv F' o live (s.relabel labels gotos blocks) := by
  have henc := hi.base.enclosed
  refine ⟨{ hi.base with scopes := hs, enclosed := ⟨henc.1, ?_, henc.2.2⟩ }, hi.sound.perm hp,
    hi.held.perm hp⟩
  obtain ⟨z, hz, hl, -⟩ := hs.outermost
  obtain ⟨b, hb, he⟩ := List.mem_map.1 (List.mem_of_getLast? hz)
  exact ⟨b, hb, (congrArg BlockScope.level he).trans hl⟩

theorem Stays.relabel : Stays s (s.relabel labels gotos blocks) := { Stays.refl s with }

/-! ### The start of a block -/

theorem Scoped.enter {vars : Array Variable} {f : FnScope} (isLoop : Bool)
    (h : Scoped vars labels gotos f) :
    Scoped vars labels gotos (f.withBlocks
      (⟨labels.size, gotos.size, f.active, isLoop⟩ :: f.blocks)) where
  placed := h.placed
  outermost := by
    obtain ⟨z, hz, hrest⟩ := h.outermost
    refine ⟨z, ?_, hrest⟩
    show (_ :: f.blocks).getLast? = some z
    rw [List.getLast?_cons, hz]
    rfl
  sorted := List.pairwise_cons.2 ⟨fun c hc => h.inside c hc, h.sorted⟩
  inside := by
    intro c hc
    rcases List.mem_cons.1 hc with rfl | hc
    · exact ⟨Nat.le_refl _, Nat.le_refl _, Nat.le_refl _⟩
    · exact h.inside c hc
  labels := by
    intro k l hk hl
    obtain ⟨h₁, h₂⟩ := h.labels k l hk hl
    refine ⟨h₁, fun c hc => ?_⟩
    rcases List.mem_cons.1 hc with rfl | hc
    · exact fun _ => h₁
    · exact h₂ c hc
  gotos := by
    intro k g hk hg
    have hk' : f.firstGoto ≤ k := by
      obtain ⟨z, hz, -⟩ := h.outermost
      simpa [FnScope.firstGoto, FnScope.withBlocks, List.getLast?_cons, hz] using hk
    obtain ⟨h₁, h₂⟩ := h.gotos k g hk' hg
    refine ⟨h₁, fun c hc => ?_⟩
    rcases List.mem_cons.1 hc with rfl | hc
    · exact fun _ => h₁
    · exact h₂ c hc
  within := by
    intro k g hg c hc hk
    rcases List.mem_cons.1 hc with rfl | hc
    · have := (Array.getElem?_eq_some_iff.1 hg).1
      simp only at hk
      omega
    · exact h.within k g hg c hc hk

theorem waiting_withBlocks {vars : Array Variable} {f : FnScope} {bs : List BlockScope}
    (h : bs.getLast? = f.blocks.getLast?) :
    waiting vars labels gotos (f.withBlocks bs) = waiting vars labels gotos f := by
  unfold waiting FnScope.firstGoto FnScope.withBlocks
  rw [h]

theorem getLast?_cons_eq {bs : List BlockScope} (c : BlockScope) (h : bs ≠ []) :
    (c :: bs).getLast? = bs.getLast? := by
  rw [List.getLast?_cons]
  obtain ⟨z, hz⟩ := Option.isSome_iff_exists.1 (List.getLast?_isSome.2 h)
  rw [hz]
  rfl

theorem Scoped.blocks_ne {vars : Array Variable} {f : FnScope} (h : Scoped vars labels gotos f) :
    f.blocks ≠ [] := by
  obtain ⟨z, hz, -⟩ := h.outermost
  rintro he
  rw [he] at hz
  cases hz

def State.enter (s : State) (b : Block) : State := s.relabel s.labels s.gotos (b :: s.fn.blocks)

def State.Starts (s : State) (b : Block) : Prop :=
  b.scope = ⟨s.labels.size, s.gotos.size, s.fn.active, b.loop != .none⟩

theorem Base.enter (h : Base s) (hb : s.Starts b) : Base (s.enter b) := by
  have henc := h.enclosed
  obtain ⟨c, hc, hl⟩ := henc.2.1
  refine { h with scopes := ?_, enclosed := ⟨henc.1, ⟨c, List.mem_cons_of_mem _ hc, hl⟩, henc.2.2⟩ }
  show Scoped _ _ _ (s.fn.scope.withBlocks ((b :: s.fn.blocks).map Block.scope))
  rw [List.map_cons, hb]
  exact h.scopes.enter _

theorem Inv.enter (hi : Inv F o live s) (hb : s.Starts b) : Inv F o live (s.enter b) := by
  have hne := hi.base.scopes.blocks_ne
  refine hi.relabel ?_ ?_
  · rw [List.map_cons, hb]
    exact hi.base.scopes.enter _
  · rw [List.map_cons, hb]
    show List.Perm (F ++ waiting _ _ _ (s.fn.scope.withBlocks (_ :: s.fn.scope.blocks))) _
    rw [waiting_withBlocks (getLast?_cons_eq _ hne)]
    exact List.Perm.refl _

theorem Via.enterBlock {loop : Loop} {Q : Unit → State → Prop} (hs : Base s)
    (hf : s.fn.freeReg = s.level)
    (h : ∀ b, s.Starts b → b.loop = loop → b.captured = false → Q () (s.enter b)) :
    Via Stays (Compile.enterBlock loop) s Q := by
  unfold Compile.enterBlock
  refine Via.next (Via.get (Via.next ⟨.relabel, Via.next (Via.freeReg (Via.next ?_))⟩))
  refine Via.activeRegisters (hs.enter (b := ⟨_, _, _, _, _, _⟩) rfl) ?_
  refine Via.ite (fun hne => absurd hf hne) fun _ => Via.pure ?_
  exact h _ rfl rfl rfl

/-! ### Labels and gotos that are added -/

section

variable {vars : Array Variable} {f : FnScope} {g l : Label}

theorem Scoped.pushGoto (h : Scoped vars labels gotos f) (hg : g.level = f.active) :
    Scoped vars labels (gotos.push g) f where
  placed := h.placed
  outermost := h.outermost
  sorted := h.sorted
  inside c hc := by
    obtain ⟨h₁, h₂, h₃⟩ := h.inside c hc
    rw [Array.size_push]
    exact ⟨h₁, h₂, Nat.le_succ_of_le h₃⟩
  within := by
    intro k g' hg' c hc hk
    rw [Array.getElem?_push] at hg'
    split at hg'
    · cases hg'
      rw [hg]
      exact (h.inside c hc).1
    · exact h.within k g' hg' c hc hk
  labels := h.labels
  gotos := by
    intro k g' hk hg'
    rw [Array.getElem?_push] at hg'
    split at hg'
    · rename_i he
      cases hg'
      refine ⟨Nat.le_of_eq hg, fun c hc hlt => ?_⟩
      have := (h.inside c hc).2.2
      omega
    · exact h.gotos k g' hk hg'

theorem Scoped.pushLabel (h : Scoped vars labels gotos f) (hl : l.level ≤ f.active) :
    Scoped vars (labels.push l) gotos f where
  placed := h.placed
  outermost := h.outermost
  sorted := h.sorted
  inside c hc := by
    obtain ⟨h₁, h₂, h₃⟩ := h.inside c hc
    rw [Array.size_push]
    exact ⟨h₁, Nat.le_succ_of_le h₂, h₃⟩
  within := h.within
  labels := by
    intro k l' hk hl'
    rw [Array.getElem?_push] at hl'
    split at hl'
    · rename_i he
      cases hl'
      refine ⟨hl, fun c hc hlt => ?_⟩
      have := (h.inside c hc).2.1
      omega
    · exact h.labels k l' hk hl'
  gotos := h.gotos

theorem waiting_pushGoto (h : Scoped vars labels gotos f) :
    List.Perm (waiting vars labels (gotos.push g) f)
      (gotoThing vars f.firstVar g :: waiting vars labels gotos f) := by
  unfold waiting
  rw [Array.toList_push, List.drop_append_of_le_length (by simpa using h.first_le_size.2),
    List.map_append,
    List.append_assoc]
  exact List.perm_middle

theorem waiting_pushLabel (h : Scoped vars labels gotos f) :
    List.Perm (waiting vars (labels.push l) gotos f)
      (labelThing vars f.firstVar l :: waiting vars labels gotos f) := by
  unfold waiting
  rw [Array.toList_push, List.drop_append_of_le_length (by simpa using h.first_le_size.1),
    List.map_append,
    ← List.append_assoc]
  exact List.perm_append_singleton ..

end

/-- The declarations and the registers in use are the same. -/
structure Standing (s s' : State) : Prop where
  vars : s'.vars = s.vars
  firstVar : s'.fn.firstVar = s.fn.firstVar
  active : s'.fn.active = s.fn.active
  freeReg : s'.fn.freeReg = s.fn.freeReg

namespace Standing

theorem level (h : Standing s s') : s'.level = s.level := by
  unfold State.level
  rw [h.vars, h.firstVar, h.active]

end Standing

theorem addGoto_spec {name : Bytes} {line : Nat} (live' : Nat → Prop) (hi : Inv F none live s)
    (hl : ∀ r < s.level, live r)
    (hlive : ∀ r, live' r → r < 255) :
    Via Advances (addGoto name line) s fun _ s' => Inv F none live' s' ∧ Standing s s' := by
  unfold addGoto
  refine Via.next (Via.jump (Via.next (Via.discard (Via.emit ?_))))
  have hsound : Inv (.goto s.fn.code.size s.level :: F) none live'
      (s.jump.emit (.abck .close 0 1 0 0)) := by
    refine ⟨hi.base.jump.emit (Draft.fits_abck.2 (by omega)) (Draft.refers_of_free rfl), ?_, ?_⟩
    · simp only [State.view_emit, State.view_jump, State.lateLoad_emit, State.lateLoad_jump,
        State.waiting_emit,
        State.waiting_jump]
      exact hi.sound.pushGoto (Draft.opcode?_word _) (Draft.sj_sj JumpList.fits_endOfList)
        (Draft.opcode?_word _) hl hlive
    · simp only [State.openLists_emit, State.openLists_jump, State.waiting_emit, State.waiting_jump]
      exact hi.held.add rfl
  refine ⟨{ Advances.refl _ with gotos := ⟨?_, push_same _ (Nat.le_refl _)⟩ }, ?_, rfl, rfl, rfl,
    rfl⟩
  · rw [Array.size_push]
    exact Nat.le_succ _
  · have hscope := hsound.base.scopes
    refine hsound.relabel (hscope.pushGoto rfl) ?_
    exact ((waiting_pushGoto hscope).append_left F).trans List.perm_middle

theorem Via.currentBlock {R : State → State → Prop} [Steps R] {Q : Block → State → Prop}
    (hb : s.fn.blocks = b :: rest) (h : Q b s) : Via R Compile.currentBlock s Q := by
  unfold Compile.currentBlock
  refine Via.next (Via.ofFn ?_)
  rw [hb]
  exact Via.pure h

theorem Base.blocks_eq (h : Base s) : ∃ b rest, s.fn.blocks = b :: rest := by
  cases hb : s.fn.blocks with
  | nil =>
    have hne := h.scopes.blocks_ne
    exact absurd (by simp [Builder.scope, hb]) hne
  | cons b rest => exact ⟨b, rest, rfl⟩

theorem mem_scopes (hb : s.fn.blocks = b :: rest) : b.scope ∈ s.fn.scope.blocks := by
  show b.scope ∈ s.fn.blocks.map Block.scope
  rw [hb]
  exact List.mem_cons_self ..

theorem Base.block_level (h : Base s) (hb : b.scope ∈ s.fn.scope.blocks) : b.level ≤ s.fn.active :=
  (h.scopes.inside b.scope hb).1

/-- A label is added. At the end of a block the block's variables count as out of scope. -/
theorem addLabel_spec (name : Bytes) (line : Nat) (isLast : Bool) (hi : Inv F none live s)
    (hb : s.fn.blocks = b :: rest)
    (hl : ∀ r < levelOf s.vars s.fn.firstVar (if isLast then b.level else s.fn.active), live r) :
    Via Advances (addLabel name line isLast) s fun _ s' =>
      Inv F none (· < levelOf s.vars s.fn.firstVar (if isLast then b.level else s.fn.active)) s' ∧
        Standing s s' ∧ s'.fn.blocks = s.fn.blocks ∧ s'.gotos = s.gotos ∧
        s'.labels.size = s.labels.size + 1 ∧ s'.lexer = s.lexer := by
  unfold addLabel
  refine Via.next (Via.markTarget ?_)
  have hlevel : (if isLast then b.level else s.fn.active) ≤ s.fn.active := by
    split
    · exact hi.base.block_level (mem_scopes hb)
    · exact Nat.le_refl _
  have hadd : ∀ {level : Nat}, level = (if isLast then b.level else s.fn.active) →
      Via Advances (modify fun s =>
        { s with labels := s.labels.push ⟨name, s.fn.code.size, line, level, false⟩ } : M Unit)
        s.mark fun _ s' =>
      Inv F none (· < levelOf s.vars s.fn.firstVar (if isLast then b.level else s.fn.active)) s' ∧
        Standing s s' ∧ s'.fn.blocks = s.fn.blocks ∧ s'.gotos = s.gotos ∧
        s'.labels.size = s.labels.size + 1 ∧ s'.lexer = s.lexer := by
    rintro level rfl
    have hm := hi.mark hl
    have hscope := hm.base.scopes
    refine ⟨{ Advances.refl _ with labels := ⟨?_, push_same _ (Nat.le_refl _)⟩ }, ?_,
      ⟨rfl, rfl, rfl, rfl⟩, rfl, rfl,
      Array.size_push .., rfl⟩
    · rw [Array.size_push]
      exact Nat.le_succ _
    · refine hm.relabel (hscope.pushLabel hlevel) ?_
      exact ((waiting_pushLabel hscope).append_left F).trans List.perm_middle
  cases isLast with
  | true => exact Via.next (Via.currentBlock (s := s.mark) hb (Via.next (Via.pure (hadd rfl))))
  | false => exact Via.next (Via.ofFn (hadd rfl))

/-! ### Gotos that are resolved -/

theorem findLabel?_eq {start : Nat} {name : Bytes} {l : Label}
    (h : findLabel? labels start name = some l) :
    ∃ k, start ≤ k ∧ labels[k]? = some l := by
  unfold findLabel? at h
  have hm := Array.mem_of_find?_eq_some h
  obtain ⟨i, hi⟩ := Array.mem_iff_getElem?.1 hm
  rw [Array.getElem?_extract] at hi
  split at hi
  · exact ⟨start + i, Nat.le_add_right _ _, hi⟩
  · cases hi

theorem label_waits {k : Nat} {l : Label} (hk : s.fn.firstLabel ≤ k) (hl : s.labels[k]? = some l) :
    labelThing s.vars s.fn.firstVar l ∈ s.waiting := by
  refine List.mem_append_right _ (List.mem_map_of_mem ?_)
  rw [List.mem_iff_getElem?]
  refine ⟨k - s.fn.firstLabel, ?_⟩
  show (s.labels.toList.drop s.fn.firstLabel)[k - s.fn.firstLabel]? = some l
  rw [List.getElem?_drop, Array.getElem?_toList, Nat.add_sub_cancel' hk]
  exact hl

theorem Via.jumpIntoScope {R : State → State → Prop} [Steps R] {α : Type} {g : Label}
    {Q : α → State → Prop}
    (h : s.fn.firstVar + g.level < s.vars.size) : Via R (Compile.jumpIntoScope g) s Q :=
  Via.next (Via.ownVariable h fun _ _ => Via.semanticError rfl)

def State.splice (s : State) (pc level : Nat) (i : Instruction) : State :=
  ((s.setCode (s.fn.code.modify (pc + 1) fun _ => i) s.fn.aims).replaceAt pc
    (.abck .close level 0 0 0)).setHeld
    fun p => (s.fn.openLists p ∧ some pc ≠ some p) ∨ p = pc + 1

theorem Coded.splice (s : State) (pc level : Nat) (i : Instruction) :
    Coded s (s.splice pc level i) :=
  ((Coded.setCode s s.fn.aims (Array.size_modify ..)).trans (.replaceAt _ pc _)).trans
    (.setHeld _ _)

theorem State.view_splice (s : State) (pc level : Nat) (i : Instruction) :
    (s.splice pc level i).fn.view =
    { s.fn.view with
      code :=
        (s.fn.code.modify (pc + 1) fun _ => i).modify pc fun _ =>
          (Draft.abck .close level 0 0 0).word } :=
  rfl

theorem Inv.splice {pc l level : Nat} {i : Instruction} (hi : Inv (.goto pc l :: F) none live s)
    (hpc : s.fn.code[pc]? = some i) (hl : level ≤ 255) :
    Inv (.list [pc + 1] l :: F) none live (s.splice pc level i) := by
  obtain ⟨⟨⟨i', hi', hiop⟩, -⟩, ⟨j, hj, hjop⟩, -⟩ :=
    hi.sound.shape.holds (.goto pc l) (List.mem_cons_self ..)
  cases hpc.symm.trans hi'
  have hd : (Draft.abck .close level 0 0 0).fits = true := Draft.fits_abck.2 (by omega)
  have hpc' : (s.fn.code.modify (pc + 1) fun _ => i)[pc]? = some i := by
    rw [Array.getElem?_modify, if_neg (by omega), hpc]
  have hbase : Base (s.splice pc level i) :=
    ((hi.base.setCode s.fn.aims (by simp) (.modify_free hj hjop hiop rfl rfl)).replaceAt hd
      (.modify_free hpc' hiop (Draft.opcode?_word _) rfl rfl)).setHeld _
  have hwaiting : (s.splice pc level i).waiting = s.waiting := (Coded.splice s pc level i).waiting
  refine ⟨hbase, ?_, ?_⟩
  case refine_2 =>
    rw [hwaiting]
    exact (hi.held.drop hi.sound.shape.nodup_heads).add rfl
  rw [hwaiting, State.view_splice]
  refine hi.sound.splice (Draft.opcode?_word (.abck .close level 0 0 0)) hpc ?_ ?_ ?_ ?_
  · show ((s.fn.code.modify (pc + 1) fun _ => i).modify pc fun _ => _).size = s.fn.code.size
    rw [Array.size_modify, Array.size_modify]
  · show ((s.fn.code.modify (pc + 1) fun _ => i).modify pc fun _ => _)[pc]? = _
    rw [Array.getElem?_modify, if_pos rfl, Array.getElem?_modify, if_neg (by omega), hpc]
    rfl
  · show ((s.fn.code.modify (pc + 1) fun _ => i).modify pc fun _ => _)[pc + 1]? = _
    rw [Array.getElem?_modify, if_neg (by omega), Array.getElem?_modify, if_pos rfl]
    change s.fn.code[pc + 1]? = some j at hj
    rw [hj]
    rfl
  · intro p h₁ h₂
    show ((s.fn.code.modify (pc + 1) fun _ => i).modify pc fun _ => _)[p]? = _
    rw [Array.getElem?_modify, if_neg (by omega), Array.getElem?_modify, if_neg (by omega)]
    rfl

def State.Returns (s : State) : Prop :=
  s.fn.lastTarget < s.fn.code.size ∧
    ∃ p i op, p + 1 = s.fn.code.size ∧ s.fn.code[p]? = some i ∧ i.opcode? = some op ∧
      op.isReturn = true

theorem State.Returns.of_same (h : s.Returns) (hs : s'.fn.code.size = s.fn.code.size)
    (hL : s'.fn.lastTarget = s.fn.lastTarget)
    (hsame : ∀ p i op, p + 1 = s.fn.code.size → s.fn.code[p]? = some i → i.opcode? = some op →
    op.isReturn = true →
      s'.fn.code[p]? = s.fn.code[p]?) : s'.Returns := by
  obtain ⟨hlt, p, i, op, hp, hi, hop, hr⟩ := h
  exact ⟨by rw [hs, hL]; exact hlt, p, i, op, hp.trans hs.symm,
    (hsame p i op hp hi hop hr).trans hi, hop, hr⟩

theorem not_jmp {code : Code} {p : Nat} {i : Instruction} {op : Opcode} (hi : code[p]? = some i)
    (hop : i.opcode? = some op) (hr : op.isReturn = true) : ¬ IsOp code p .jmp := by
  rintro ⟨j, hj, hj'⟩
  cases hi.symm.trans hj
  cases hop.symm.trans hj'
  cases hr

theorem patchGoto_spec {ms : List Nat} {l t lt : Nat} (hi : Inv (.list ms l :: F) none live s)
    (ht : .target t lt ∈ F ++ s.waiting) (hl : lt ≤ l) :
    Via Coded (patchList ms.head? t) s fun _ s' => Inv F none live s' ∧
      (s.Returns → s'.Returns) := by
  refine (patchList_spec hi ht hl).mono fun _ s' _ ⟨hi', hs, hL, hsame⟩ =>
    ⟨hi', fun hr => hr.of_same hs hL ?_⟩
  intro p i op hp hpi hop hret
  have hchain := hi.chain (List.mem_cons_self ..)
  refine hsame p (fun hm => not_jmp hpi hop hret (hchain.isOp hm)) fun hm => ?_
  obtain ⟨j, hj, -⟩ := hchain.isOp hm
  have := (Array.getElem?_eq_some_iff.1 hj).1
  omega

theorem spliceGoto_spec {pc l level t lt : Nat} (hi : Inv (.goto pc l :: F) none live s)
    (hl : level ≤ 255)
    (ht : .target t lt ∈ F ++ s.waiting) (hle : lt ≤ l) :
    Via Coded (do
      spliceClose pc level
      patchList (some (pc + 1)) t) s fun _ s' => Inv F none live s' ∧ (s.Returns → s'.Returns) := by
  obtain ⟨⟨⟨i, hi', hiop⟩, -⟩, ⟨j, hj, hjop⟩, -⟩ :=
    hi.sound.shape.holds (.goto pc l) (List.mem_cons_self ..)
  change s.fn.code[pc]? = some i at hi'
  change s.fn.code[pc + 1]? = some j at hj
  obtain ⟨hlt, -⟩ := Array.getElem?_eq_some_iff.1 hi'
  obtain ⟨hlt', -⟩ := Array.getElem?_eq_some_iff.1 hj
  have hreturns : s.Returns → (s.splice pc level i).Returns := fun hr => hr.of_same
    (by show ((s.fn.code.modify (pc + 1) fun _ => i).modify pc fun _ => _).size = _; simp) rfl
    fun p k op hp hk hop hret => by
    show ((s.fn.code.modify (pc + 1) fun _ => i).modify pc fun _ => _)[p]? = _
    have hne : pc ≠ p := fun he => not_jmp hk hop hret (he ▸ ⟨i, hi', hiop⟩)
    have hne' : pc + 1 ≠ p := by
      rintro rfl
      cases hk.symm.trans hj
      cases hop.symm.trans hjop
      cases hret
    rw [Array.getElem?_modify, if_neg hne, Array.getElem?_modify, if_neg hne']
  have hpatch : Via Coded (patchList (some (pc + 1)) t) (s.splice pc level i) fun _ s' =>
      Inv F none live s' ∧ (s.Returns → s'.Returns) :=
    (@patchGoto_spec F (s.splice pc level i) live [pc + 1] l t lt (hi.splice hi' hl) ht hle).mono
      fun _ _ _ h => ⟨h.1, fun hr => h.2 (hreturns hr)⟩
  unfold spliceClose
  refine Via.next (Via.next (Via.instructionAt hi' (Via.next ?_)))
  refine Via.modifyAt hlt' ⟨.setCode _ _ (by simp),
    Via.next (Via.replaceAt ?_ (Via.next (Via.giveUp (Via.hold hpatch))))⟩
  show pc < (s.fn.code.modify _ _).size
  simpa using hlt

theorem resolveGoto_spec {g l : Label} {captured : Bool}
    (hi : Inv (gotoThing s.vars s.fn.firstVar g :: F) none live s) (hg : g.level ≤ s.fn.active)
    (hl : l.level ≤ s.fn.active) (ht : labelThing s.vars s.fn.firstVar l ∈ F ++ s.waiting) :
    Via Coded (resolveGoto g l captured) s fun _ s' => Inv F none live s' ∧
      (s.Returns → s'.Returns) := by
  have hplaced := hi.base.placed
  have hrange := hplaced.range
  unfold resolveGoto
  refine Via.next (Via.noteLists (hi.moment [gotoThing s.vars s.fn.firstVar g]) ?_)
  have hused := hi.use [some g.pc]
  refine Via.ite (fun hlt =>
    Via.next (Via.jumpIntoScope (show s.fn.firstVar + g.level < s.vars.size by omega)))
    fun hge => ?_
  have hle : levelOf s.vars s.fn.firstVar l.level ≤ levelOf s.vars s.fn.firstVar g.level :=
    hplaced.level_mono (by omega) hg
  refine Via.ite (fun _ => ?_) fun _ => ?_
  · refine Via.next (Via.registerLevel hused.base hl (spliceGoto_spec hused ?_ ht hle))
    exact Nat.le_trans (hplaced.level_le hl) (by decide)
  · have hlist : Inv (.list [g.pc] (levelOf s.vars s.fn.firstVar g.level) :: F) none live
        (s.use [some g.pc]) :=
      ⟨hused.base, hi.sound.gotoList, hi.held⟩
    exact patchGoto_spec hlist ht hle

theorem Inv.leaving {g : Label} (outside inside : Nat)
    (hi : Inv (gotoThing s.vars s.fn.firstVar g :: F) o live s) (hg : g.level ≤ s.fn.active)
    (hb : b.level ≤ g.level) :
    Inv (gotoThing s.vars s.fn.firstVar (leaving b g outside inside) :: F) o live s :=
  ⟨hi.base, hi.sound.regoto (hi.base.placed.level_mono hb hg), hi.held⟩

theorem resolveGotos_spec {gs : List Label} (hb : b.scope ∈ s.fn.scope.blocks)
    (hi : Inv (gs.map (gotoThing s.vars s.fn.firstVar) ++ F) none live s)
    (hgs : ∀ g ∈ gs, b.level ≤ g.level ∧ g.level ≤ s.fn.active) :
    Via Coded (resolveGotos b gs) s fun left s' =>
      Inv (left.map (gotoThing s.vars s.fn.firstVar) ++ F) none live s' ∧
        (∀ g ∈ left, g.level = b.level) ∧
        (s.Returns → s'.Returns) := by
  induction gs generalizing F s with
  | nil => exact Via.pure ⟨hi, List.forall_mem_nil _, id⟩
  | cons g gs ih =>
    obtain ⟨hbg, hga⟩ := hgs g (List.mem_cons_self ..)
    have hgs' : ∀ g ∈ gs, b.level ≤ g.level ∧ g.level ≤ s.fn.active :=
      fun g hg => hgs g (List.mem_cons_of_mem _ hg)
    unfold resolveGotos
    refine Via.next (Via.get ?_)
    split
    · rename_i l hl
      obtain ⟨k, hk, hl⟩ := findLabel?_eq hl
      have hk' : s.fn.firstLabel ≤ k := Nat.le_trans (hi.base.scopes.first_le hb).1 hk
      refine Via.bind (resolveGoto_spec hi hga (hi.base.scopes.labels k l hk' hl).1
        (List.mem_append_right _ (label_waits hk' hl))) fun _ s' hc hresolved => ?_
      obtain ⟨hi', hret⟩ := hresolved
      have hrest := @ih F s' (by rw [hc.scope]; exact hb) (by rw [hc.vars, hc.firstVar]; exact hi')
        (by rw [hc.active]; exact hgs')
      rw [hc.vars, hc.firstVar] at hrest
      exact hrest.mono fun _ _ _ h => ⟨h.1, h.2.1, fun hr => h.2.2 (hret hr)⟩
    · have hlevel := hi.base.block_level hb
      refine Via.next (Via.registerLevel hi.base hlevel
        (Via.next (Via.registerLevel hi.base hga ?_)))
      have hi' := (hi.leaving (levelOf s.vars s.fn.firstVar b.level)
        (levelOf s.vars s.fn.firstVar g.level) hga hbg).perm List.perm_middle
      refine Via.bind (ih hb hi' hgs') fun left s' hc h =>
        Via.pure ⟨h.1.perm List.perm_middle.symm, ?_, h.2.2⟩
      intro g' hg'
      rcases List.mem_cons.1 hg' with rfl | hg'
      · rfl
      · exact h.2.1 g' hg'

/-! ### The gotos and labels of a block that ends -/

theorem shrink_append_extract {α : Type} (xs : Array α) (n : Nat) :
    xs.shrink n ++ (xs.extract n xs.size).toList.toArray = xs := by
  apply Array.ext'
  have hdrop : (xs.toList.drop n).take (xs.size - n) = xs.toList.drop n :=
    List.take_of_length_le (by simp)
  rw [Array.toList_append, Array.toList_shrink, Array.toArray_toList, Array.toList_extract,
    List.extract_eq_take_drop,
    hdrop, List.take_append_drop]

section

variable {vars : Array Variable} {f : FnScope} {labels' gotos' : Array Label} {bs : List BlockScope}
  {c : BlockScope} {n : Nat}

theorem Scoped.innermost (h : Scoped vars labels gotos f) (hb : f.blocks = c :: bs) :
    ∀ d ∈ f.blocks, d.level ≤ c.level ∧ d.firstLabel ≤ c.firstLabel ∧
      d.firstGoto ≤ c.firstGoto := by
  intro d hd
  have hs := h.sorted
  rw [hb] at hs hd
  rcases List.mem_cons.1 hd with rfl | hd
  · exact ⟨Nat.le_refl _, Nat.le_refl _, Nat.le_refl _⟩
  · exact (List.pairwise_cons.1 hs).1 d hd

theorem Scoped.regotos (h : Scoped vars labels gotos f)
    (hs : ∀ d ∈ f.blocks, d.firstGoto ≤ gotos'.size)
    (hg : ∀ k g, gotos'[k]? = some g → gotos[k]? = some g ∨
      g.level ≤ f.active ∧ ∀ d ∈ f.blocks, d.firstGoto ≤ k ∧ d.level ≤ g.level) :
    Scoped vars labels gotos' f where
  placed := h.placed
  outermost := h.outermost
  sorted := h.sorted
  inside d hd := ⟨(h.inside d hd).1, (h.inside d hd).2.1, hs d hd⟩
  within := by
    intro k g hk d hd hle
    rcases hg k g hk with hold | ⟨-, hnew⟩
    · exact h.within k g hold d hd hle
    · exact (hnew d hd).2
  labels := h.labels
  gotos := by
    intro k g hk hk'
    rcases hg k g hk' with hold | ⟨hl, hnew⟩
    · exact h.gotos k g hk hold
    · refine ⟨hl, fun d hd hlt => ?_⟩
      have := (hnew d hd).1
      omega

theorem Scoped.shrinkLabels (h : Scoped vars labels gotos f)
    (hs : ∀ d ∈ f.blocks, d.firstLabel ≤ n) :
    Scoped vars (labels.shrink n) gotos f where
  placed := h.placed
  outermost := h.outermost
  sorted := h.sorted
  inside d hd := by
    obtain ⟨h₁, h₂, h₃⟩ := h.inside d hd
    rw [Array.size_shrink]
    exact ⟨h₁, Nat.le_min.2 ⟨hs d hd, h₂⟩, h₃⟩
  within := h.within
  labels := by
    intro k l hk hl
    have hlt := (Array.getElem?_eq_some_iff.1 hl).1
    rw [Array.size_shrink] at hlt
    rw [getElem?_shrink (by omega)] at hl
    exact h.labels k l hk hl
  gotos := h.gotos

theorem waiting_appendGotos (gs : List Label) (h : f.firstGoto ≤ gotos.size) :
    List.Perm (waiting vars labels (gotos ++ gs.toArray) f)
      (gs.map (gotoThing vars f.firstVar) ++ waiting vars labels gotos f) := by
  unfold waiting
  rw [Array.toList_append, List.drop_append_of_le_length (by simpa using h), List.map_append,
    ← List.append_assoc]
  exact List.Perm.append_right _ List.perm_append_comm

theorem waiting_appendLabels (ls : List Label) (h : f.firstLabel ≤ labels.size) :
    List.Perm (waiting vars (labels ++ ls.toArray) gotos f)
      (ls.map (labelThing vars f.firstVar) ++ waiting vars labels gotos f) := by
  unfold waiting
  rw [Array.toList_append, List.drop_append_of_le_length (by simpa using h), List.map_append,
    ← List.append_assoc]
  exact List.perm_append_comm

end

theorem Inv.dropLabels (ls : List Label)
    (hi : Inv (ls.map (labelThing s.vars s.fn.firstVar) ++ F) o live s) : Inv F o live s := by
  induction ls with
  | nil => exact hi
  | cons l ls ih => exact ih hi.dropTarget

/-- What is true after the gotos of a block have been resolved. -/
structure Solved (b : Block) (s s' : State) : Prop where
  standing : Standing s s'
  scope : s'.fn.scope = s.fn.scope
  labels : s'.labels = s.labels.shrink b.firstLabel
  gotos : b.firstGoto ≤ s'.gotos.size ∧ ∀ k < b.firstGoto, s'.gotos[k]? = s.gotos[k]?
  left : ∀ k g, b.firstGoto ≤ k → s'.gotos[k]? = some g → g.level = b.level
  returns : s.Returns → s'.Returns

theorem solveGotos_spec (hi : Inv F none live s) (hb : s.fn.blocks = b :: rest) :
    Via Stays (solveGotos b) s fun _ s' => Inv F none live s' ∧ Solved b s s' := by
  have hscope := hi.base.scopes
  have hmem := mem_scopes hb
  have hin : ∀ d ∈ s.fn.scope.blocks, d.level ≤ b.level ∧ d.firstLabel ≤ b.firstLabel ∧
      d.firstGoto ≤ b.firstGoto :=
    hscope.innermost (congrArg (List.map Block.scope) hb)
  obtain ⟨hba, hbl, hbg⟩ := hscope.inside b.scope hmem
  change b.level ≤ s.fn.active at hba
  change b.firstLabel ≤ s.labels.size at hbl
  change b.firstGoto ≤ s.gotos.size at hbg
  obtain ⟨hfl, hfg⟩ := hscope.first_le hmem
  have hsize : (s.gotos.shrink b.firstGoto).size = b.firstGoto := by
    rw [Array.size_shrink]
    omega
  unfold solveGotos
  refine Via.next ⟨Stays.refl s, Via.next ⟨.relabel, ?_⟩⟩
  have hi₁ : Inv ((s.gotos.extract b.firstGoto s.gotos.size).toList.map
      (gotoThing s.vars s.fn.firstVar) ++ F) none live
      (s.relabel s.labels (s.gotos.shrink b.firstGoto) s.fn.blocks) := by
    refine hi.relabel (hscope.regotos (fun d hd => ?_) fun k g hg => .inl ?_) ?_
    · rw [hsize]
      exact (hin d hd).2.2
    · have hlt := (Array.getElem?_eq_some_iff.1 hg).1
      rwa [getElem?_shrink (by omega)] at hg
    · have hw := @waiting_appendGotos s.labels (s.gotos.shrink b.firstGoto) s.vars s.fn.scope
        (s.gotos.extract b.firstGoto s.gotos.size).toList (by rw [hsize]; exact hfg)
      rw [shrink_append_extract] at hw
      rw [List.append_assoc]
      exact (List.perm_append_comm_assoc ..).trans (hw.symm.append_left F)
  have hgs : ∀ g ∈ (s.gotos.extract b.firstGoto s.gotos.size).toList, b.level ≤ g.level ∧
      g.level ≤ s.fn.active := by
    intro g hg
    obtain ⟨j, hj⟩ := List.mem_iff_getElem?.1 hg
    rw [Array.getElem?_toList, Array.getElem?_extract] at hj
    split at hj
    · refine ⟨hscope.within _ g hj b.scope hmem (Nat.le_add_right _ _), ?_⟩
      exact (hscope.gotos _ g (Nat.le_trans hfg (Nat.le_add_right _ _)) hj).1
    · cases hj
  refine Via.bind (@resolveGotos_spec F
    (s.relabel s.labels (s.gotos.shrink b.firstGoto) s.fn.blocks) live b _ hmem hi₁
    hgs).widen fun left s₂ _ h => ?_
  obtain ⟨hc, hi₂, hleft, hreturns⟩ := h
  have hvars : s₂.vars = s.vars := hc.vars
  have hlabels : s₂.labels = s.labels := hc.labels
  have hgotos : s₂.gotos = s.gotos.shrink b.firstGoto := hc.gotos
  have hfn : s₂.fn.scope = s.fn.scope := hc.scope
  have hsize₂ : s₂.gotos.size = b.firstGoto := by rw [hgotos, hsize]
  -- the gotos that are left come after those of the blocks outside
  have hnew : ∀ k g, b.firstGoto ≤ k → (s₂.gotos ++ left.toArray)[k]? = some g →
      g.level = b.level := by
    intro k g hk hg
    rw [Array.getElem?_append_right (by omega), List.getElem?_toArray] at hg
    exact hleft g (List.mem_of_getElem? hg)
  have hi₃ : Inv F none live (s₂.relabel s₂.labels (s₂.gotos ++ left.toArray) s₂.fn.blocks) := by
    have hscope₂ := hi₂.base.scopes
    refine hi₂.relabel (hscope₂.regotos (fun d hd => ?_) fun k g hg => ?_) ?_
    · rw [hfn] at hd
      rw [Array.size_append, hsize₂]
      exact Nat.le_trans (hin d hd).2.2 (Nat.le_add_right _ _)
    · by_cases hk : k < b.firstGoto
      · rw [Array.getElem?_append_left (by omega)] at hg
        exact .inl hg
      · have hl := hnew k g (by omega) hg
        refine .inr ⟨?_, fun d hd => ?_⟩
        · rw [hl, hfn]
          exact hba
        · rw [hfn] at hd
          obtain ⟨h₁, -, h₃⟩ := hin d hd
          exact ⟨by omega, by rw [hl]; exact h₁⟩
    · refine ((waiting_appendGotos left ?_).append_left F).trans ?_
      · show s₂.fn.scope.firstGoto ≤ s₂.gotos.size
        rw [hfn, hsize₂]
        exact hfg
      · rw [List.append_assoc]
        have hthing : gotoThing s₂.vars s₂.fn.firstVar = gotoThing s.vars s.fn.firstVar := by
          rw [hvars, show s₂.fn.firstVar = s.fn.firstVar from hc.firstVar]
        show List.Perm (F ++ (left.map (gotoThing s₂.vars s₂.fn.firstVar) ++ s₂.waiting)) _
        rw [hthing]
        exact List.perm_append_comm_assoc ..
  refine Via.next ⟨.relabel, Via.next (Via.get ?_)⟩
  have hlsize : ¬ s₂.labels.size < b.firstLabel := by
    rw [hlabels]
    omega
  refine Via.ite (fun hlt => absurd hlt hlsize) fun _ => ⟨.relabel, ?_, ?_⟩
  · refine Inv.dropLabels (s₂.labels.extract b.firstLabel s₂.labels.size).toList
      (@Inv.relabel F _ (s₂.relabel s₂.labels (s₂.gotos ++ left.toArray) s₂.fn.blocks) _ _
        s₂.fn.blocks
        (s₂.labels.shrink b.firstLabel) (s₂.gotos ++ left.toArray) hi₃
        (hi₃.base.scopes.shrinkLabels fun d hd => ?_) ?_)
    · change d ∈ s₂.fn.scope.blocks at hd
      rw [hfn] at hd
      exact (hin d hd).2.1
    · have hw := @waiting_appendLabels (s₂.labels.shrink b.firstLabel) (s₂.gotos ++ left.toArray)
        s₂.vars s₂.fn.scope
        (s₂.labels.extract b.firstLabel s₂.labels.size).toList (by
          rw [Array.size_shrink, hfn]
          exact Nat.le_min.2 ⟨hfl, Nat.le_trans hfl (Nat.le_of_not_lt hlsize)⟩)
      rw [shrink_append_extract] at hw
      rw [List.append_assoc]
      exact (List.perm_append_comm_assoc ..).trans (hw.symm.append_left F)
  · refine ⟨⟨hvars, hc.firstVar, hc.active, hc.freeReg⟩, hfn, ?_, ⟨?_, fun k hk => ?_⟩, hnew,
      hreturns⟩
    · show s₂.labels.shrink _ = _
      rw [hlabels]
    · show _ ≤ (s₂.gotos ++ left.toArray).size
      rw [Array.size_append, hsize₂]
      exact Nat.le_add_right _ _
    · show (s₂.gotos ++ left.toArray)[k]? = _
      rw [Array.getElem?_append_left (by omega), hgotos, getElem?_shrink hk]

/-! ### The end of a block -/

/-- What is true when a block has ended, but is still listed. -/
structure BlockLeft (F : List Pending) (b : Block) (s s' : State) : Prop where
  inv : Inv F none (· < levelOf s.vars s.fn.firstVar b.level) s'
  freeReg : s'.fn.freeReg = levelOf s.vars s.fn.firstVar b.level
  firstVar : s'.fn.firstVar = s.fn.firstVar
  firstLabel : s'.fn.firstLabel = s.fn.firstLabel
  active : s'.fn.active = b.level
  size : s'.vars.size = s.fn.firstVar + b.level
  vars : ∀ k < s.fn.firstVar + b.level, s'.vars[k]? = s.vars[k]?
  labels : s'.labels.size = b.firstLabel ∧ ∀ k < b.firstLabel, s'.labels[k]? = s.labels[k]?
  gotos : b.firstGoto ≤ s'.gotos.size ∧ ∀ k < b.firstGoto, s'.gotos[k]? = s.gotos[k]?
  blocks : s'.fn.blocks.map Block.scope = s.fn.blocks.map Block.scope
  returns : s.fn.blocks = [b] → b.loop = .none → s.Returns → s'.Returns

theorem Solved.reaches (h : Solved b s s') (hb : Base s) (hm : s.fn.blocks = b :: rest) :
    s'.Reaches b.level := by
  have hscope := hb.scopes
  have hmem := mem_scopes hm
  have hin := hscope.innermost (congrArg (List.map Block.scope) hm)
  refine ⟨fun d hd => ?_, fun k l hk hl => ?_, fun k g hk hg => ?_⟩
  · rw [h.scope] at hd
    exact (hin d hd).1
  · rw [h.labels] at hl
    have hlt := (Array.getElem?_eq_some_iff.1 hl).1
    rw [Array.size_shrink] at hlt
    rw [getElem?_shrink (by omega)] at hl
    rw [show s'.fn.firstLabel = s.fn.firstLabel from congrArg FnScope.firstLabel h.scope] at hk
    exact (hscope.labels k l hk hl).2 b.scope hmem (show k < b.firstLabel by omega)
  · by_cases hlt : k < b.firstGoto
    · rw [h.gotos.2 k hlt] at hg
      rw [h.scope] at hk
      exact (hscope.gotos k g hk hg).2 b.scope hmem hlt
    · exact Nat.le_of_eq (h.left k g (by omega) hg)

theorem closeScope_spec {α : Type} {m : M α} {Q : α → State → Prop} {l : Nat}
    (hi : Inv F none (· < l) s)
    (hb : s.fn.blocks = b :: rest) (hl : l = levelOf s.vars s.fn.firstVar b.level)
    (hf : s.fn.freeReg = l)
    (hs : s.vars.size = s.fn.firstVar + s.fn.active)
    (h : ∀ s', BlockLeft F b s s' → Via Stays m s' Q) :
    Via Stays (do
      solveGotos b
      removeVariables b.level
      m) s Q := by
  have hmem := mem_scopes hb
  have hba := hi.base.block_level hmem
  refine Via.bind (solveGotos_spec hi hb) fun _ s₁ _ ⟨hi₁, hsolved⟩ => ?_
  obtain ⟨hvars, hfirst, hactive, hfree⟩ := hsolved.standing
  have hreach := hsolved.reaches hi.base hb
  refine Via.next (Via.removeVariables hi₁.base (by rw [hvars, hfirst, hactive]; exact hs)
    (by rw [hactive]; exact hba)
    hreach ?_)
  intro vars locals hsize hsame hd
  rw [hfirst, hvars] at hsame
  rw [hfirst] at hsize
  refine h _ ⟨hl ▸ hi₁.rescope hd hreach fun k _ hk => ?_, hfree.trans (hf.trans hl), hfirst, ?_,
    rfl, hsize, hsame, ?_,
    hsolved.gotos, congrArg FnScope.blocks hsolved.scope, fun _ _ hr => hsolved.returns hr⟩
  · rw [hfirst] at hk
    rw [hvars]
    exact hsame k hk
  · exact congrArg FnScope.firstLabel hsolved.scope
  · show s₁.labels.size = _ ∧ ∀ k < b.firstLabel, s₁.labels[k]? = _
    rw [hsolved.labels, Array.size_shrink]
    refine ⟨Nat.min_eq_left (hi.base.scopes.inside b.scope hmem).2.1,
      fun k hk => getElem?_shrink hk⟩

theorem endBlock_spec {Q : Block → State → Prop} {l : Nat} (hi : Inv F none (· < l) s)
    (hb : s.fn.blocks = b :: rest)
    (hl : l = levelOf s.vars s.fn.firstVar b.level) (hf : s.fn.freeReg = l)
    (hs : s.vars.size = s.fn.firstVar + s.fn.active)
    (h : ∀ s', BlockLeft F b s s' → (rest = [] → s'.gotos.size = b.firstGoto) →
      Q b (s'.relabel s'.labels s'.gotos rest)) :
    Via Stays (do
      solveGotos b
      removeVariables b.level
      if rest.isEmpty then
        match (← get).gotos[b.firstGoto]? with
        | some g => noLabel g
        | none => Pure.pure ()
      modifyFn fun f => { f with blocks := rest }
      return b) s Q := by
  refine closeScope_spec hi hb hl hf hs fun s' hleft => ?_
  refine Via.ite (fun hempty => Via.next (Via.get ?_)) fun hne => ?_
  · split
    · exact Via.next (Via.semanticError rfl)
    · rename_i hnone
      refine Via.next ⟨.relabel, Via.pure (h s' hleft fun _ => ?_)⟩
      have := Array.getElem?_eq_none_iff.1 hnone
      have := hleft.gotos.1
      omega
  · refine Via.next ⟨.relabel, Via.pure (h s' hleft fun he => ?_)⟩
    rw [he] at hne
    exact absurd rfl hne

theorem Inv.close {level : Nat} (hi : Inv F none live s) (hl : level ≤ maxLocals) :
    Inv F none live (s.emit (.abck .close level 0 0 0)) := by
  have : maxLocals = 200 := rfl
  refine hi.pushABC (by omega) rfl (.inl rfl) (fun w ha _ _ _ => ⟨?_, ?_, fun r hr => .inl hr⟩)
    fun _ _ _ _ _ => Instruction.serves_of_free rfl
  · intro r hr
    exact nomatch hr
  · intro r hr
    exact nomatch hr

theorem BlockLeft.of_advances {s₁ : State} (h : BlockLeft F b s₁ s') (ha : Advances s s₁)
    (hs : Standing s s₁)
    (hg : s₁.gotos = s.gotos) (hl : b.firstLabel ≤ s.labels.size)
    (hloop : b.loop ≠ .none) : BlockLeft F b s s' where
  inv := by rw [← hs.vars, ← hs.firstVar]; exact h.inv
  freeReg := by rw [← hs.vars, ← hs.firstVar]; exact h.freeReg
  firstVar := h.firstVar.trans hs.firstVar
  firstLabel := h.firstLabel.trans ha.firstLabel
  active := h.active
  size := by rw [← hs.firstVar]; exact h.size
  vars := by rw [← hs.vars, ← hs.firstVar]; exact h.vars
  labels := ⟨h.labels.1, fun k hk => (h.labels.2 k hk).trans (ha.labels.2 k (by omega))⟩
  gotos := by rw [← hg]; exact h.gotos
  blocks := h.blocks.trans ha.blocks
  returns _ hn := absurd hn hloop

theorem unwindBlock_spec {Q : Block → State → Prop} (hi : Inv F none live s)
    (hb : s.fn.blocks = b :: rest)
    (hl : ∀ r < levelOf s.vars s.fn.firstVar b.level, live r)
    (hf : levelOf s.vars s.fn.firstVar b.level ≤ s.fn.maxStack)
    (hs : s.vars.size = s.fn.firstVar + s.fn.active)
    (h : ∀ s', BlockLeft F b s s' → (rest = [] → s'.gotos.size = b.firstGoto) →
      Q b (s'.relabel s'.labels s'.gotos rest)) :
    Via Stays (do
      setFreeReg (levelOf s.vars s.fn.firstVar b.level)
      if b.loop = .broken then addLabel breakName 0 true
      solveGotos b
      removeVariables b.level
      if rest.isEmpty then
        match (← get).gotos[b.firstGoto]? with
        | some g => noLabel g
        | none => Pure.pure ()
      modifyFn fun f => { f with blocks := rest }
      return b) s Q := by
  have hi₁ := (hi.weaken hl).setFree hf
  refine Via.next (Via.setFreeReg (Via.ite (fun hbroken => ?_) fun _ => ?_))
  · have hlabel := addLabel_spec breakName 0 true hi₁ hb fun r hr => hr
    refine Via.bind (hlabel.further fun _ ha => ha.toStays) fun _ s₂ _ ⟨ha, hi₂, hst, hb₂, hg, _⟩ =>
      ?_
    refine endBlock_spec hi₂ (hb₂.trans hb) ?_ hst.freeReg ?_ fun s' hleft he => h s' ?_ he
    · rw [hst.vars, hst.firstVar]
      rfl
    · rw [hst.vars, hst.firstVar, hst.active]
      exact hs
    · have := hleft.of_advances ha hst hg (hi.base.scopes.inside b.scope (mem_scopes hb)).2.1
        (by rw [hbroken]; decide)
      exact { this with }
  · exact endBlock_spec hi₁ hb rfl rfl hs fun s' hleft he => h s' { hleft with } he

theorem Via.leaveBlock {Q : Block → State → Prop} (hi : Inv F none live s)
    (hb : s.fn.blocks = b :: rest)
    (hl : ∀ r < levelOf s.vars s.fn.firstVar b.level, live r) (hf : s.level ≤ s.fn.freeReg)
    (hs : s.vars.size = s.fn.firstVar + s.fn.active)
    (h : ∀ s', BlockLeft F b s s' → (rest = [] → s'.gotos.size = b.firstGoto) →
      Q b (s'.relabel s'.labels s'.gotos rest)) :
    Via Stays Compile.leaveBlock s Q := by
  have hba := hi.base.block_level (mem_scopes hb)
  have hplaced := hi.base.placed
  have hle : levelOf s.vars s.fn.firstVar b.level ≤ s.level :=
    hplaced.level_mono hba (Nat.le_refl _)
  have hroom := hi.room
  unfold Compile.leaveBlock
  refine Via.next (Via.get ?_)
  rw [hb]
  refine Via.next (Via.registerLevel hi.base hba (Via.ite (fun hc => ?_) fun _ => ?_))
  · have hne : rest ≠ [] := by
      rintro rfl
      simp at hc
    refine Via.next (Via.discard (Via.emit ?_))
    exact unwindBlock_spec (hi.close (hplaced.level_le hba)) hb hl
      (Nat.le_trans hle (Nat.le_trans hf hroom)) hs
      fun s' hleft he => h s' { hleft with
        returns := fun hone => absurd (List.cons.inj (hb.symm.trans hone)).2 hne } he
  · exact unwindBlock_spec hi hb hl (by omega) hs h

/-! ### Between statements -/

/-- The state between two statements: no register is in use but those of the variables, and all
declarations are active. -/
structure Rests (F : List Pending) (s : State) : Prop where
  inv : Inv F none (· < s.level) s
  free : s.fn.freeReg = s.level
  full : s.vars.size = s.fn.firstVar + s.fn.active

/-- The state at the end of a block, where a label may have left nothing but the variables outside
of the block. -/
structure Ends (F : List Pending) (s : State) : Prop where
  inv : ∃ b rest, s.fn.blocks = b :: rest ∧ Inv F none (· < levelOf s.vars s.fn.firstVar b.level) s
  free : s.fn.freeReg = s.level
  full : s.vars.size = s.fn.firstVar + s.fn.active

def Settles (F : List Pending) (s : State) : Prop :=
  Rests F s ∨ s.lexer.token.kind.closes false = true ∧ Ends F s

theorem Rests.ends (h : Rests F s) : Ends F s := by
  obtain ⟨b, rest, hb⟩ := h.inv.base.blocks_eq
  refine ⟨⟨b, rest, hb, h.inv.weaken fun r hr => ?_⟩, h.free, h.full⟩
  exact Nat.lt_of_lt_of_le hr
    (h.inv.base.placed.level_mono (h.inv.base.block_level (mem_scopes hb)) (Nat.le_refl _))

theorem Settles.ends (h : Settles F s) : Ends F s := h.elim Rests.ends And.right

theorem Settles.rests (h : Settles F s) (hk : s.lexer.token.kind.closes false = false) :
    Rests F s := by
  rcases h with h | ⟨he, -⟩
  · exact h
  · rw [hk] at he
    cases he

/-- The scopes are what they were before the block, and no register is in use but those of the
variables. -/
structure Rejoins (F : List Pending) (s s' : State) : Prop where
  rests : Rests F s'
  firstVar : s'.fn.firstVar = s.fn.firstVar
  firstLabel : s'.fn.firstLabel = s.fn.firstLabel
  active : s'.fn.active = s.fn.active
  vars : ∀ k < s.fn.firstVar + s.fn.active, s'.vars[k]? = s.vars[k]?
  labels : s'.labels.size = s.labels.size ∧ ∀ k < s.labels.size, s'.labels[k]? = s.labels[k]?
  gotos : s.gotos.size ≤ s'.gotos.size ∧ ∀ k < s.gotos.size, s'.gotos[k]? = s.gotos[k]?
  blocks : s'.fn.blocks.map Block.scope = s.fn.blocks.map Block.scope

namespace Rejoins

theorem level (h : Rejoins F s s') : s'.level = s.level := by
  unfold State.level
  rw [h.firstVar, h.active]
  exact levelOf_congr fun k hk => h.vars _ (by omega)

theorem advances (h : Rejoins F s s') (hs : Stays s s') : Advances s s' :=
  { hs with
    firstVar := h.firstVar
    firstLabel := h.firstLabel
    active := Nat.le_of_eq h.active.symm
    vars := h.vars
    labels := ⟨Nat.le_of_eq h.labels.1.symm, h.labels.2⟩
    gotos := h.gotos
    blocks := h.blocks }

end Rejoins

theorem Scoped.leave {vars : Array Variable} {f : FnScope} {c : BlockScope} {bs : List BlockScope}
    (h : Scoped vars labels gotos f) (hb : f.blocks = c :: bs) (hne : bs ≠ []) :
    Scoped vars labels gotos (f.withBlocks bs) where
  placed := h.placed
  outermost := by
    obtain ⟨z, hz, hrest⟩ := h.outermost
    rw [hb, getLast?_cons_eq c hne] at hz
    exact ⟨z, hz, hrest⟩
  sorted := by
    have hs := h.sorted
    rw [hb] at hs
    exact (List.pairwise_cons.1 hs).2
  inside d hd := h.inside d (by rw [hb]; exact List.mem_cons_of_mem _ hd)
  within k g hg d hd := h.within k g hg d (by rw [hb]; exact List.mem_cons_of_mem _ hd)
  labels k l hk hl :=
    ⟨(h.labels k l hk hl).1, fun d hd =>
      (h.labels k l hk hl).2 d (by rw [hb]; exact List.mem_cons_of_mem _ hd)⟩
  gotos := by
    intro k g hk hg
    have hfirst : (f.withBlocks bs).firstGoto = f.firstGoto := by
      unfold FnScope.firstGoto
      rw [hb, getLast?_cons_eq c hne]
      rfl
    rw [hfirst] at hk
    exact ⟨(h.gotos k g hk hg).1,
      fun d hd => (h.gotos k g hk hg).2 d (by rw [hb]; exact List.mem_cons_of_mem _ hd)⟩

theorem Inv.leave {bs : List BlockScope} {c : BlockScope} (hi : Inv F o live s)
    (hb : s.fn.blocks.map Block.scope = c :: bs) (hne : bs ≠ []) (hr : rest.map Block.scope = bs) :
    Inv F o live (s.relabel s.labels s.gotos rest) := by
  refine hi.relabel ?_ ?_
  · rw [hr]
    exact hi.base.scopes.leave hb hne
  · rw [hr, waiting_withBlocks]
    · exact List.Perm.refl _
    · show bs.getLast? = (s.fn.blocks.map Block.scope).getLast?
      rw [hb, getLast?_cons_eq c hne]

theorem leaveBlock_spec {s₀ : State} {b₀ : Block} (h₀ : Base s₀) (hs : s₀.Starts b₀)
    (ha : Advances (s₀.enter b₀) s)
    (he : Ends F s) :
    Via Stays leaveBlock s fun b s' => Rejoins F s₀ s' ∧ b.scope = b₀.scope := by
  obtain ⟨⟨b, rest, hb, hi⟩, hfree, hfull⟩ := he
  have hblocks : b.scope :: rest.map Block.scope = b₀.scope :: s₀.fn.blocks.map Block.scope := by
    rw [← List.map_cons, ← hb]
    exact ha.blocks
  obtain ⟨hbs, hrest⟩ := List.cons.inj hblocks
  refine Via.leaveBlock hi hb (fun r hr => hr) (Nat.le_of_eq hfree.symm) hfull fun s' hleft _ =>
    ⟨?_, hbs⟩
  have hlevel : b.level = s₀.fn.active :=
    (congrArg BlockScope.level hbs).trans (congrArg BlockScope.level hs)
  have hlabel : b.firstLabel = s₀.labels.size :=
    (congrArg BlockScope.firstLabel hbs).trans (congrArg BlockScope.firstLabel hs)
  have hgoto : b.firstGoto = s₀.gotos.size :=
    (congrArg BlockScope.firstGoto hbs).trans (congrArg BlockScope.firstGoto hs)
  have hne : s₀.fn.blocks.map Block.scope ≠ [] := h₀.scopes.blocks_ne
  have hlisted : s'.fn.blocks.map Block.scope = b₀.scope :: s₀.fn.blocks.map Block.scope :=
    hleft.blocks.trans ha.blocks
  have hlev : s'.level = levelOf s.vars s.fn.firstVar b.level := by
    unfold State.level
    rw [hleft.firstVar, hleft.active]
    exact levelOf_congr fun k hk => hleft.vars _ (by omega)
  have hfirst : s.fn.firstVar = s₀.fn.firstVar := ha.firstVar
  have hrejoined : Inv F none (· < s'.level) s' := by
    rw [hlev]
    exact hleft.inv
  exact {
    rests := ⟨hrejoined.leave hlisted hne hrest, hleft.freeReg.trans hlev.symm, by
      show s'.vars.size = s'.fn.firstVar + s'.fn.active
      rw [hleft.size, hleft.firstVar, hleft.active]⟩
    firstVar := hleft.firstVar.trans hfirst
    firstLabel := hleft.firstLabel.trans ha.firstLabel
    active := hleft.active.trans hlevel
    vars := fun k hk => by
      show s'.vars[k]? = _
      rw [hleft.vars k (by omega)]
      exact ha.vars k hk
    labels := by
      show s'.labels.size = _ ∧ ∀ k < s₀.labels.size, s'.labels[k]? = _
      rw [← hlabel]
      refine ⟨hleft.labels.1, fun k hk => ?_⟩
      rw [hleft.labels.2 k hk]
      exact ha.labels.2 k (by show k < s₀.labels.size; omega)
    gotos := by
      show _ ≤ s'.gotos.size ∧ ∀ k < s₀.gotos.size, s'.gotos[k]? = _
      rw [← hgoto]
      refine ⟨hleft.gotos.1, fun k hk => ?_⟩
      rw [hleft.gotos.2 k hk]
      exact ha.gotos.2 k (by show k < s₀.gotos.size; omega)
    blocks := hrest }

/-! ### Marks of blocks -/

def State.remark (s : State) (blocks : List Block) (needClose : Bool) : State :=
  { s with fn := { s.fn with blocks, needClose } }

theorem Inv.remark {needClose : Bool} (hi : Inv F o live s)
    (hb : blocks.map Block.scope = s.fn.blocks.map Block.scope) :
    Inv F o live (s.remark blocks needClose) := by
  have hscope : s.fn.scope.withBlocks (blocks.map Block.scope) = s.fn.scope := by
    rw [hb]
    rfl
  have hi' : Inv F o live (s.relabel s.labels s.gotos blocks) := by
    refine hi.relabel ?_ ?_
    · rw [hscope]
      exact hi.base.scopes
    · rw [hscope]
      exact List.Perm.refl _
  exact ⟨{ hi'.base with }, hi'.sound, hi'.held⟩

theorem Advances.remark {needClose : Bool}
    (hb : blocks.map Block.scope = s.fn.blocks.map Block.scope) :
    Advances s (s.remark blocks needClose) :=
  { Advances.refl s with blocks := hb }

theorem Via.markBroken {Q : Bool → State → Prop}
    (hyes : ∀ blocks, blocks.map Block.scope = s.fn.blocks.map Block.scope →
    Q true (s.remark blocks s.fn.needClose))
    (hno : Q false s) : Via Advances Compile.markBroken s Q := by
  unfold Compile.markBroken
  refine Via.next (Via.ofFn ?_)
  split
  · rename_i blocks hm
    have hs := modifyFirst?_scope hm fun b hb =>
      (congrArg (BlockScope.mk b.firstLabel b.firstGoto b.level) hb).symm
    exact Via.next ⟨.remark hs, Via.pure (hyes blocks hs)⟩
  · exact Via.pure hno

theorem Via.markToClose {R : State → State → Prop} [Declaring R] {Q : Unit → State → Prop}
    (hb : Base s)
    (h : ∀ blocks, blocks.map Block.scope = s.fn.blocks.map Block.scope →
    Q () (s.remark blocks true)) :
    Via R Compile.markToClose s Q := by
  obtain ⟨b, rest, hbs⟩ := hb.blocks_eq
  unfold Compile.markToClose closeFirst
  refine Via.next (Via.ofFn ?_)
  split
  · rename_i blocks hm
    have hs := modifyFirst?_scope hm fun _ _ => rfl
    exact ⟨Declaring.advances (.remark hs), h blocks hs⟩
  · rename_i hm
    rw [hbs] at hm
    cases hm

end Compile

end LuaChunk
