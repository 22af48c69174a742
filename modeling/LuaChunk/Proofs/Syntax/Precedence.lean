import LuaChunk.Proofs.Parallel.Chunk
import LuaChunk.Proofs.Syntax.Room

set_option autoImplicit false

namespace LuaChunk

open Compile

namespace Compile

variable {α : Type} {ts ts' rest : List Token} {s c : State}

def settle : M Unit := do
  let f := (← get).fn
  let level ← activeRegisters
  if f.maxStack < f.freeReg || f.freeReg < level then broken .registerLevel
  setFreeReg level

theorem statement_eq (r : Nested) :
    statement r = (do statementBody r (← Compile.currentLine); settle) := rfl

instance coding_settle {keeps semantic : Bool} : Coding keeps semantic settle := by
  unfold settle
  refine .get (fun s => inferInstance) fun _ _ _ _ => rfl

def returnTree (t : Tree) (levels : Nat) : M Unit := do
  let _ ← activeRegisters
  let e ← deeper levels t.emit
  emitReturn (← toAnyRegister e) (some 1)
  settle

theorem sim_modify {u : State → State} (hat : At ts s c)
    (hu : ∀ (s : State) (l : Lexer) (n : Progress), u (s.withStream l n) = (u s).withStream l n)
    (hfresh : (u c).Untouched) :
    Sim ts ((modify u : M PUnit) s) ((modify u : M PUnit) c) := by
  refine (coding_modify hu).sim_of hat fun a c' hm => ?_
  cases hm
  exact hfresh

theorem sim_get {f : State → M α} (hat : At ts s c)
    (hf : ∀ (l : Lexer) (n : Progress), f (s.withStream l n) = f s)
    (h : Sim ts (f c s) (f c c)) : Sim ts ((get >>= f) s) ((get >>= f) c) := by
  have hs : f s = f c := by rw [← hat.core, hf]
  show Sim ts (f s s) (f c c)
  rw [hs]
  exact h

theorem sim_when {p : Prop} [Decidable p] {m : M Unit} {k : Unit → M α} (h : Coding true false m)
    (hat : At ts s c)
    (hk : ∀ s c, At ts s c → Sim ts' (k () s) (k () c)) :
    Sim ts' ((if p then m >>= k else k ()) s) ((if p then m >>= k else k ()) c) := by
  split
  · exact (h.sim hat).bind fun _ => hk
  · exact hk s c hat

theorem sim_solveGotos (hat : At ts s c) (b : Block) : Sim ts (solveGotos b s)
    (solveGotos b c) := by
  have hshrink : ∀ c : State, c.Untouched → c.gotos.shrink b.firstGoto = #[] := fun c h => by
    simp [h.gotos]
  have hwaiting : Coding true false
      (modifyGet fun s => ((s.gotos.extract b.firstGoto s.gotos.size).toList, s) :
      M (List Label)) :=
    ⟨fun s _ _ _ => .ok rfl rfl fun _ => .refl s⟩
  have hlabels : Coding true false (do
      if (← MonadState.get).labels.size < b.firstLabel then broken .indexInRange
      modify fun s => { s with labels := s.labels.shrink b.firstLabel }) := by
    have h : Coding true false
        (modify fun s : State => { s with labels := s.labels.shrink b.firstLabel }) :=
      .modify (fun _ _ _ => rfl) fun _ _ => ⟨rfl, rfl, rfl, rfl⟩
    exact .get (fun s => inferInstance) fun _ _ _ _ => rfl
  unfold solveGotos
  refine (hwaiting.sim hat).bind_of fun waiting s₁ c₁ hw hat₁ => ?_
  obtain rfl : waiting = [] := by
    cases hw
    simp [hat.fresh.gotos]
  have hfresh := hat₁.fresh
  refine (sim_modify hat₁ (fun _ _ _ => rfl)
    ⟨hfresh.vars, hfresh.outer, hfresh.upvalues, hshrink c₁ hfresh⟩).bind
    fun _ s₂ c₂ hat₂ => ?_
  have hfresh₂ := hat₂.fresh
  rw [show resolveGotos b [] = pure [] from rfl, pure_bind]
  refine (sim_modify hat₂ (fun _ _ _ => rfl)
    ⟨hfresh₂.vars, hfresh₂.outer, hfresh₂.upvalues, ?_⟩).bind fun _ s₃ c₃ hat₃ => ?_
  · simp [hfresh₂.gotos]
  · exact hlabels.sim hat₃

theorem sim_removeVariables (hat : At ts s c) (level : Nat) : Sim ts (removeVariables level s)
    (removeVariables level c) := by
  unfold removeVariables
  refine sim_get hat (fun _ _ => rfl) ?_
  refine (Coding.sim inferInstance hat).bind fun _ s₁ c₁ hat₁ => ?_
  have hfresh := hat₁.fresh
  have hshrink : c₁.vars.shrink (c₁.vars.size - (c.fn.active - level)) = #[] := by
    simp [hfresh.vars]
  refine sim_get hat₁ (fun _ _ => rfl) ?_
  split
  · exact .lost (.broken _)
  · exact sim_modify hat₁ (fun _ _ _ => rfl) ⟨hshrink, hfresh.outer, hfresh.upvalues, hfresh.gotos⟩

theorem sim_leaveBlock (hat : At ts s c) : Sim ts (leaveBlock s) (leaveBlock c) := by
  unfold leaveBlock
  refine sim_get hat (fun _ _ => rfl) ?_
  cases c.fn.blocks with
  | nil => exact .lost (.broken _)
  | cons b rest =>
    have hrest : Coding true false (modifyFn fun f => { f with blocks := rest }) :=
      .modifyFn fun _ => rfl
    dsimp only
    refine (Coding.sim inferInstance hat).bind fun level s₁ c₁ hat₁ => ?_
    refine sim_when inferInstance hat₁ fun s₂ c₂ hat₂ => ?_
    refine (Coding.sim inferInstance hat₂).bind fun _ s₃ c₃ hat₃ => ?_
    refine sim_when inferInstance hat₃ fun s₄ c₄ hat₄ => ?_
    refine (sim_solveGotos hat₄ b).bind fun _ s₅ c₅ hat₅ =>
      (sim_removeVariables hat₅ b.level).bind fun _ s₆ c₆ hat₆ => ?_
    split
    · refine sim_get hat₆ (fun _ _ => rfl) ?_
      have hnone : c₆.gotos[b.firstGoto]? = none := by simp [hat₆.fresh.gotos]
      rw [hnone]
      exact Coding.sim inferInstance hat₆
    · exact Coding.sim inferInstance hat₆

theorem sim_closeFunction (hat : At ts s c) : Sim ts (closeFunction s) (closeFunction c) := by
  have hclosings : Coding true false
      (modify fun s : State => { s with
        closings :=
          s.closings.push ⟨s.fn.code, s.fn.aims, s.fn.locals, s.fn.scopes, s.fn.meant⟩ }) :=
    .modify (fun _ _ _ => rfl) fun _ _ => ⟨rfl, rfl, rfl, rfl⟩
  unfold closeFunction
  refine (Coding.sim inferInstance hat).bind fun first s₁ c₁ hat₁ =>
    (Coding.sim inferInstance hat₁).bind fun _ s₂ c₂ hat₂ => ?_
  rw [show discard leaveBlock = leaveBlock >>= fun _ => pure () from rfl, bind_assoc]
  refine (sim_leaveBlock hat₂).bind fun _ s₃ c₃ hat₃ => ?_
  exact Coding.sim inferInstance hat₃

theorem blockEnds_eq (withUntil : Bool) (s : State) :
    blockEnds withUntil s = .ok (s.lexer.token.kind.closes withUntil) s := by
  unfold blockEnds
  rw [bind_eq (show currentKind s = .ok s.lexer.token.kind s from rfl)]
  generalize s.lexer.token.kind = k
  cases k with
  | word w => cases w <;> rfl
  | _ => rfl

/-- A text starts with no token that a statement without an expression would end before. -/
theorem written_head {limit stop : Nat} {tree : Tree} (h : Tree.Written limit stop tree ts) :
    ∃ t rest, ts = t :: rest ∧ t.kind.closes true = false ∧ t.kind ≠ .char ';' := by
  induction h with
  | @leaf limit stop tree h =>
    refine ⟨_, _, rfl, ?_⟩
    cases tree <;> first | exact ⟨rfl, nofun⟩ | cases h
  | parenthesized => exact ⟨_, _, rfl, rfl, by decide⟩
  | @unary limit stop op tree ts hs h ih =>
    refine ⟨_, _, rfl, ?_⟩
    cases op <;> exact ⟨rfl, by decide⟩
  | binary hl hs hleft hright ihl ihr =>
    obtain ⟨t, rest, rfl, h⟩ := ihl
    exact ⟨t, _, rfl, h⟩

theorem sim_expression {tree : Tree} (n : Nat) (h : Tree.Written 0 0 tree ts) (hat : At ts s c) :
    Sim [] (expression (nested n) s) (deeper n tree.emit c) := by
  have hemit : deeper n tree.emit = (deeper n tree.emit >>= fun e => pure (e, none)) >>=
      fun p : Exp × Option BinaryOp => pure p.1 := by
    simp only [bind_assoc, pure_bind, bind_pure]
  have hend : MayFollow 0 [] := .inl rfl
  rw [hemit]
  exact ((textReads h).operand n (Nat.le_refl 0) hend (by simpa using hat)).bind fun p s' c' hat' =>
    .pure hat' p.1

theorem sim_expressionList {tree : Tree} (n : Nat) (h : Tree.Written 0 0 tree ts)
    (hat : At ts s c) :
    Sim [] (expressionList (nested n) s) ((deeper n tree.emit >>= fun e => pure (1, e)) c) := by
  unfold expressionList
  refine (sim_expression n h hat).bind fun e s' c' hat' => ?_
  have htest : testNext (.char ',') s' = .ok false s' := by
    unfold testNext
    rw [bind_eq hat'.currentKind]
    rfl
  show Sim [] (iterate _ s'.bound (1, e) s') _
  cases s'.bound with
  | zero => exact .lost (.broken _)
  | succ k =>
    rw [iterate, bind_eq (tokensTaken_eq s')]
    dsimp only
    rw [bind_assoc, bind_eq htest]
    exact .pure hat' (1, e)

theorem sim_returnStatement {tree : Tree} (n : Nat) (h : Tree.Written 0 0 tree ts)
    (hat : At ts s c) :
    Sim [] (returnStatement (nested n) s) ((do
      let _ ← activeRegisters
      let e ← deeper n tree.emit
      emitReturn (← toAnyRegister e) (some 1) : M Unit) c) := by
  obtain ⟨t, rest, rfl, hcloses, hsemicolon⟩ := written_head h
  unfold returnStatement
  refine (Coding.sim inferInstance hat).bind fun first s₁ c₁ hat₁ => ?_
  have hends : blockEnds true s₁ = .ok false s₁ := by
    have hkind : s₁.lexer.token.kind = t.kind := hat₁.gives.kind
    rw [blockEnds_eq, hkind, hcloses]
  have hlist : Results (fun p : Nat × Exp => p.1 = 1 ∧ p.2.isMulti = false)
      (deeper n tree.emit >>= fun e => pure (1, e)) :=
    (results_deeper (results_emit tree) n).bind fun e he => .pure ⟨rfl, he⟩
  have hemit : (do let e ← deeper n tree.emit; emitReturn (← toAnyRegister e) (some 1) : M Unit)
      = (deeper n tree.emit >>= fun e => pure (1, e)) >>= fun p : Nat × Exp =>
        (do emitReturn (← toAnyRegister p.2) (some 1)) := by
    simp only [bind_assoc, pure_bind]
  rw [bind_eq hends, bind_eq hat₁.currentKind, hemit]
  simp only [List.headD_cons, hsemicolon, decide_false, Bool.or_self, Bool.false_eq_true, if_false]
  refine (sim_expressionList n h hat₁).bind_of fun p s₂ c₂ hp hat₂ => ?_
  obtain ⟨k, e⟩ := p
  obtain ⟨rfl, hmulti⟩ := hlist.holds _ _ _ hp
  simp only [hmulti, Bool.false_eq_true, if_false, if_true]
  refine (Coding.sim inferInstance hat₂).bind fun r s₃ c₃ hat₃ => ?_
  rw [← bind_pure (emitReturn r (some 1))]
  refine (Coding.sim inferInstance hat₃).bind fun _ s₄ c₄ hat₄ => ?_
  have htest : testNext (.char ';') s₄ = .ok false s₄ := by
    unfold testNext
    rw [bind_eq hat₄.currentKind]
    rfl
  rw [discard_eq htest]
  exact .pure hat₄ ()

theorem sim_returned {tree : Tree} (n : Nat) (h : Tree.Written 0 0 tree ts)
    (hat : At (.word .return_ :: ts) s c) :
    Sim [] (statement (nested (n + 1)) s) (returnTree tree (n + 1) c) := by
  obtain ⟨s', hs, hat'⟩ := hat.next
  have hbody : statementBody (nested (n + 1)) 1 s = returnStatement (nested (n + 1)) s' := by
    unfold statementBody
    rw [bind_eq hat.currentKind]
    show (Compile.next >>= fun _ => returnStatement (nested (n + 1))) s = _
    rw [bind_eq hs]
  have hreturn : returnTree tree (n + 1) = (do
      let _ ← activeRegisters
      let e ← deeper (n + 1) tree.emit
      emitReturn (← toAnyRegister e) (some 1) : M Unit) >>= fun _ => settle := by
    simp only [returnTree, bind_assoc]
  rw [statement_eq, bind_eq hat.currentLine, hreturn]
  have hmain := sim_returnStatement (n + 1) h hat'
  rw [← hbody] at hmain
  exact hmain.bind fun _ s₁ c₁ hat₁ => Coding.sim inferInstance hat₁

theorem sim_returnTree {tree : Tree} (n : Nat) (h : Tree.Written 0 0 tree ts)
    (hat : At (.word .return_ :: ts) s c) :
    Sim [] (statements (nested (n + 2)) s) (returnTree tree (n + 1) c) := by
  have hkind : s.lexer.token.kind = .word .return_ := hat.gives.kind
  have hstatement : Sim [] ((nested (n + 2)).statement s) (returnTree tree (n + 1) c) :=
    .metered hat fun _ => sim_returned n h
  show Sim [] (iterate _ s.bound () s) _
  cases s.bound with
  | zero => exact .lost (.broken _)
  | succ k =>
    have hopen : (TokenKind.word .return_).closes true = false := rfl
    rw [← bind_pure (returnTree tree (n + 1)), iterate, bind_eq (tokensTaken_eq s), bind_assoc,
      bind_eq (blockEnds_eq true s), hkind]
    simp only [hopen, Bool.false_eq_true, if_false, bind_assoc]
    rw [bind_eq hat.currentKind]
    refine hstatement.bind fun _ s₁ c₁ hat₁ => ?_
    exact .pure hat₁ ()

/-- Codes the rest of a chunk that returns a tree, once its main function is open. -/
def returnChunk (t : Tree) : M Unit := do
  returnTree t (maxNesting - 1)
  closeFunction

theorem settle_spec {F : List Pending} (h : Leaves F s) : Via Advances settle s fun _ s' =>
    Settles F s' := by
  unfold settle
  refine Via.next
    (Via.get
    (Via.next (Via.activeRegisters h.base
    (Via.ite (fun hc => ?_) fun _ => Via.setFreeReg h.settles))))
  have hlow := h.low
  have hroom := h.base.room
  simp only [Bool.or_eq_true, decide_eq_true_eq] at hc
  omega

theorem idle_settle : Idle settle :=
  .get fun _ => .bind (.ofFn fun _ => idle_registerLevel _) fun _ =>
    .ite (.bind (.broken _) fun _ => .modify fun _ => ⟨rfl, rfl⟩) (.modify fun _ => ⟨rfl, rfl⟩)

theorem hasRoom_settle {small : Prop} (hc : c.Untouched) (h : Leaves [] c) :
    HasRoom small c 0 (fun _ s' =>
    s'.Untouched ∧ Ends [] s' ∧ s'.fn.blocks.map Block.scope = c.fn.blocks.map Block.scope)
      settle :=
  ((idle_settle.hasRoom hc).via (settle_spec h)).mono (Nat.le_refl _) fun _ _ h =>
    ⟨h.1, h.2.2.ends, h.2.1.blocks⟩

theorem activeRegisters_run (s : State) :
    activeRegisters s = (match registersOf s.vars s.fn.firstVar s.fn.active with
      | some level => pure level
      | none => broken .indexInRange : M Nat) s := rfl

theorem hasRoom_returnTree {small : Prop} (t : Tree) (n : Nat) (hc : c.Untouched) (h : Rests [] c)
    (hfree : c.fn.freeReg + n + 50 < maxRegisters) : HasRoom small c (64 * t.size + 12) (fun _ s' =>
      s'.Untouched ∧ Ends [] s' ∧ s'.fn.blocks.map Block.scope = c.fn.blocks.map Block.scope)
        (returnTree t n) := by
  have hlevel : activeRegisters c = .ok c.level c := by
    rw [activeRegisters_run, h.inv.base.registersOf_eq (Nat.le_refl _)]
    rfl
  unfold returnTree
  refine .step hlevel (.bind (j := 64 * t.size) (k := 12) (Q := Stood small [] c) ?_ fun e s₁ he =>
    ?_)
  · exact .deeper fun i hi => hasRoom_emit t i [] c hc h.ready (by omega)
  have hfree₁ := he.read.place.freeReg_le
  have hany : HasRoom small s₁ 11 _ (toAnyRegister e) :=
    .of_adds (adds_toAnyRegister he.near (Nat.le_refl 11)) (by omega)
  have hread := (hany.untouched he.untouched).via (toAnyRegister_spec he.read.toVal)
  refine .bind (j := 11) (k := 1) hread fun r s₂ h₂ => ?_
  obtain ⟨⟨hc₂, -⟩, hk₂, hval⟩ := h₂
  have hkeep : Keeps c s₂ := he.keeps.trans hk₂
  have hlow : c.level ≤ c.fn.freeReg := h.ready.low
  have hbase := hval.base_le
  have hlt := hval.slot.lt hval.low
  have hroom := hval.room
  have hmax : maxRegisters = 255 := rfl
  have hreturn : Via Coded (emitReturn r (some 1)) s₂ fun _ s' => Inv [] none (· < c.level) s' ∧
      s'.Returns :=
    emitReturn_spec _ hval.inv_inReg (fun q hq => by rw [hmax] at hfree; omega)
      ⟨by omega, fun q hq hq' => by omega⟩
  have hone : HasRoom small s₂ 1 (fun _ s' => s'.Untouched) (emitReturn r (some 1)) :=
    .bind (j := 1) (k := 0) (hasRoom_emitABC hc₂) fun _ _ h => .pure h
  refine .bind (j := 1) (k := 0) (hone.via hreturn) fun _ s₃ h₃ => ?_
  obtain ⟨hc₃, hk₃, hi₃, -⟩ := h₃
  have hkeep₃ : Keeps c s₃ := hkeep.trans hk₃.toKeeps
  have hleaves : Leaves [] s₃ := h.keepLeaves hkeep₃ (by rw [hk₃.freeReg]; omega) hi₃
  refine (hasRoom_settle hc₃ hleaves).mono (Nat.le_refl _) fun _ s' h' => ⟨h'.1, h'.2.1, ?_⟩
  exact h'.2.2.trans (congrArg FnScope.blocks hkeep₃.scope)

theorem hasRoom_returnChunk {small : Prop} (t : Tree) (hc : c.Untouched) (h : Rests [] c)
    (hfree : c.fn.freeReg = 0)
    (hb : ∃ b, c.fn.blocks.map Block.scope = [b]) : HasRoom small c (64 * t.size + 14)
    (fun _ _ => True) (returnChunk t) := by
  refine .bind (j := 64 * t.size + 12) (k := 2) (hasRoom_returnTree t _ hc h ?_) fun _ s' h' => ?_
  · rw [hfree]
    decide
  · exact hasRoom_closeFunction h'.1 h'.2.1 (h'.2.2.symm ▸ hb)

/-- The main function before its first token. -/
def opened (chunk source : Bytes) : State :=
  let l := (initial { chunk } source).lexer
  (startMain { chunk } source
    { l with noted := (l.noted.push envName).push breakName }).setVararg.emit
    (.abck .varargPrep 0 0 0 0)

theorem opened_rests (chunk source : Bytes) : Rests [] (opened chunk source) :=
  have hm := (initial_lexer { chunk } source).2
  startMain_rests rfl (lt_of_eq_of_lt (Lexer.measure_noted (initial { chunk } source).lexer _) hm)
    (Int.le_refl _)

theorem mainFunction_opened (chunk source : Bytes) :
    mainFunction (initial { chunk } source) = (do
      Compile.next
      statements (nested maxNesting)
      check .eos
      closeFunction : M Unit) (opened chunk source) := (mainFunction_eq _).trans openMain_eq

theorem sim_mainFunction {tree : Tree} {chunk source : Bytes} {c : State}
    (h : Tree.Written 0 0 tree ts)
    (hs : next (opened chunk source) = .ok () s) (hat : At (.word .return_ :: ts) s c) :
    Sim [] (mainFunction (initial { chunk } source)) (returnChunk tree c) := by
  rw [mainFunction_opened, bind_eq hs]
  refine (sim_returnTree 197 h hat).bind fun _ s₁ c₁ hat₁ => ?_
  have hcheck : check .eos s₁ = .ok () s₁ := by
    unfold check
    rw [bind_eq hat₁.currentKind]
    rfl
  rw [bind_eq hcheck]
  exact sim_closeFunction hat₁

theorem opened_yields (chunk : Bytes) {source : Bytes} (hts : tokens? source = some ts) :
    (opened chunk source).lexer.Yields ts := by
  unfold tokens? at hts
  dsimp only [opened, Lexer.Yields, State.emit, State.setVararg, startMain, initial, Lexer.start]
  rw [Interner.reservedIndex_markAll]
  exact .of_tokensFrom? hts

theorem opened_next (chunk : Bytes) {source : Bytes} (hts : tokens? source = some ts)
    (hb : ts.map Token.bare = ts') (hplain : Plain source) :
    ∃ s, next (opened chunk source) = .ok () s ∧ s.lexer.Gives ts' ∧ s.lexer.source = chunk ∧
      ∀ l n, s.withStream l n = (opened chunk source).withStream l n := by
  have hyields := opened_yields chunk hts
  have hline : (opened chunk source).lexer.OnLine 1 := ⟨rfl, hplain⟩
  obtain ⟨l, hl, htoken, hrest, hf, -⟩ := Lexer.next_yields rfl hyields
  obtain ⟨honLine, hlast, hsource⟩ := Lexer.onLine_next rfl hline hl
  refine ⟨{ opened chunk source with lexer := l }, ?_,
    ⟨hf, ?_, ⟨ts.tail, ?_, hrest⟩, honLine, hlast⟩, hsource, fun _ _ => rfl⟩
  · show onLexer Lexer.next (opened chunk source) = _
    unfold onLexer
    dsimp only
    rw [hl]
  · rw [← hb]
    dsimp only
    rw [htoken]
    cases ts <;> rfl
  · rw [← hb, List.map_tail]

theorem error_returnChunk {s' : State} {chunk source : Bytes} {t : Tree} {e : CompileError}
    (h : Compile.next (opened chunk source) = .ok () s)
    (hc : s.Untouched) (he : returnChunk t s = .error (.error e) s') :
    e.message = utf8 "C stack overflow" ∨ ¬ t.Small ∧ TooLarge e := by
  have hpass : Via Coded Compile.next (opened chunk source) fun _ s' =>
      ∃ l, (opened chunk source).Passes l ∧ s' = (opened chunk source).setLexer l :=
    Via.pass (opened_rests chunk source).inv.base fun l hl => ⟨l, hl, rfl⟩
  unfold Via at hpass
  rw [h] at hpass
  obtain ⟨-, l, hl, rfl⟩ := hpass
  have hfits : t.Small → 1 + (64 * t.size + 14) ≤ maxCode ∧ 0 + (64 * t.size + 14) ≤ maxCode := by
    intro hsmall
    have hsize : t.size < 262144 := hsmall
    unfold maxCode
    omega
  have hroom := hasRoom_returnChunk t hc ((opened_rests chunk source).setLexer hl) rfl ⟨_, rfl⟩
    hfits
  rw [he] at hroom
  exact hroom e rfl

inductive SameCode (t : Tree) : (r r' : EStateM.Result Failure State Unit) → Prop
  | ok {s s' : State} (hf : s'.fn = s.fn) (hs : s'.lexer.source = s.lexer.source) : SameCode t
    (.ok () s) (.ok () s')
  | error {e e' : CompileError} {s s' : State} (h : SameError e e') (hl : ¬ t.Small ∧ TooLarge e) :
    SameCode t (.error (.error e) s) (.error (.error e') s')
  | left {f : Failure} {s : State} {r : EStateM.Result Failure State Unit} (h : Silent f) : SameCode
    t (.error f s) r
  | right {f : Failure} {s : State} {r : EStateM.Result Failure State Unit}
    (h : Silent f) : SameCode t r (.error f s)

theorem SameCode.of_sim {t : Tree} {r₁ r₂ r : EStateM.Result Failure State Unit}
    (hr : ∀ e s, r = .error (.error e) s → e.message = utf8 "C stack overflow" ∨ ¬ t.Small ∧
    TooLarge e)
    (h₁ : Sim ts r₁ r) (h₂ : Sim ts r₂ r) : SameCode t r₁ r₂ := by
  cases h₁ with
  | lost h => exact .left h
  | @ok a s c h =>
    cases h₂ with
    | lost h' => exact .right h'
    | @ok _ s' _ h' =>
      refine .ok ?_ (h'.place.source.symm.trans h.place.source)
      have hfn : ∀ {s : State}, At ts s c → s.fn = c.fn := fun h => by
        rw [← h.core]
        rfl
      rw [hfn h, hfn h']
  | error h =>
    cases h₂ with
    | lost h' => exact .right h'
    | error h' =>
      cases h with
      | broken a => exact .left (.broken a)
      | error h _ =>
        cases h' with
        | error h' _ =>
          rcases hr _ _ rfl with hdeep | ⟨hsize, hlarge⟩
          · exact .left (.deep (h.message.symm.trans hdeep))
          · exact .error (h.trans h'.symm) ⟨hsize, hlarge.of_message h.message⟩

theorem sameCode_of_written (chunk : Bytes) {tree : Tree} {source source' : Bytes}
    {ts ts' ws ws' : List Token}
    (h : Tree.Written 0 0 tree ws) (h' : Tree.Written 0 0 tree ws') (hts : tokens? source = some ts)
    (hts' : tokens? source' = some ts')
    (hb : ts.map Token.bare = .word .return_ :: ws)
    (hb' : ts'.map Token.bare = .word .return_ :: ws')
    (hplain : Plain source) (hplain' : Plain source') :
    SameCode tree (mainFunction (initial { chunk } source))
      (mainFunction (initial { chunk } source')) := by
  obtain ⟨s, hs, hgives, hsource, hstream⟩ := opened_next chunk hts hb hplain
  obtain ⟨s', hs', hgives', hsource', hstream'⟩ := opened_next chunk hts' hb' hplain'
  have hcore : s'.withStream s.lexer s.progress = s := by
    rw [hstream']
    exact (hstream s.lexer s.progress).symm
  have hfresh : s.Untouched := by
    have hs : s = (opened chunk source).withStream s.lexer s.progress := hstream s.lexer s.progress
    rw [hs]
    exact ⟨rfl, rfl, rfl, rfl⟩
  have hplace : s'.lexer.SamePlace s.lexer := {
    line := by rw [hgives.onLine.line, hgives'.onLine.line]
    lastLine := by rw [hgives.lastLine, hgives'.lastLine]
    source := by rw [hsource, hsource'] }
  exact .of_sim (fun e s' he => error_returnChunk hs hfresh he)
    (sim_mainFunction h hs ⟨rfl, ⟨rfl, rfl, rfl⟩, hgives, hfresh⟩)
    (sim_mainFunction h' hs' ⟨hcore, hplace, hgives', hfresh⟩)

theorem silent_compile {chunk source : Bytes} {f : Failure} {s : State} (h : Silent f)
    (hm : mainFunction (initial { chunk } source) = .error f s) :
    ∃ e, compile chunk source = .error (.error e) ∧ e.message = utf8 "C stack overflow" := by
  have hc : compile chunk source = .error f := by
    unfold compile run
    rw [hm]
  cases h with
  | deep he => exact ⟨_, hc, he⟩
  | broken a =>
    obtain ⟨e, he⟩ := error_of_compile hc
    cases he

end Compile

/-- Two texts of one tree, each on one line, compile to the same function, unless one of them is
nested too deep. A tree of more than 262143 names, constants and operators may be refused, in both
texts and for one reason. -/
theorem same_of_written {tree : Tree} {chunk source source' : Bytes} {ts ts' ws ws' : List Token}
    (h : Tree.Written 0 0 tree ws) (h' : Tree.Written 0 0 tree ws') (hts : tokens? source = some ts)
    (hts' : tokens? source' = some ts')
    (hb : ts.map Token.bare = .word .return_ :: ws)
    (hb' : ts'.map Token.bare = .word .return_ :: ws')
    (hplain : Plain source) (hplain' : Plain source')
    (hdeep : ∀ e, compile chunk source = .error (.error e) → e.message ≠ utf8 "C stack overflow")
    (hdeep' : ∀ e, compile chunk source' = .error (.error e) →
    e.message ≠ utf8 "C stack overflow") :
    (∃ p, compile chunk source = .ok p ∧ compile chunk source' = .ok p) ∨
    ¬ tree.Small ∧ ∃ e e', compile chunk source = .error (.error e) ∧
      compile chunk source' = .error (.error e') ∧
      SameError e e' ∧ TooLarge e := by
  have hsame := sameCode_of_written chunk h h' hts hts' hb hb' hplain hplain'
  have hleft : ∀ {f s}, Silent f → mainFunction (initial { chunk } source) ≠ .error f s :=
    fun h hm => by
    obtain ⟨e, he, hmessage⟩ := silent_compile h hm
    exact hdeep e he hmessage
  have hright : ∀ {f s}, Silent f → mainFunction (initial { chunk } source') ≠ .error f s :=
    fun h hm => by
    obtain ⟨e, he, hmessage⟩ := silent_compile h hm
    exact hdeep' e he hmessage
  unfold compile run
  generalize mainFunction (initial { chunk } source) = r at hsame hleft
  generalize mainFunction (initial { chunk } source') = r' at hsame hright
  cases hsame with
  | @ok s s' hf hs =>
    left
    refine ⟨s.fn.prototype s.lexer.source, rfl, ?_⟩
    dsimp only
    rw [hf, hs]
  | error h hl => exact .inr ⟨hl.1, _, _, rfl, rfl, h, hl.2⟩
  | left h => exact absurd rfl (hleft h)
  | right h => exact absurd rfl (hright h)

/-- A chunk that returns an expression, once with parentheses around every operation and once with
those that the binding powers ask for, compiles to one function. -/
theorem compile_grouping (tree : Tree) (chunk source source' : Bytes) (ts ts' : List Token)
    (hts : tokens? source = some ts) (hts' : tokens? source' = some ts')
    (hfull : ts.map Token.bare = .word .return_ :: tree.full)
    (hminimal : ts'.map Token.bare = .word .return_ :: tree.minimal)
    (hplain : Plain source) (hplain' : Plain source')
    (hdeep : ∀ e, compile chunk source = .error (.error e) → e.message ≠ utf8 "C stack overflow")
    (hdeep' : ∀ e, compile chunk source' = .error (.error e) →
    e.message ≠ utf8 "C stack overflow") :
    (∃ p, compile chunk source = .ok p ∧ compile chunk source' = .ok p) ∨
    ¬ tree.Small ∧ ∃ e e', compile chunk source = .error (.error e) ∧
      compile chunk source' = .error (.error e') ∧
      SameError e e' ∧ TooLarge e :=
  same_of_written (tree.written_full 0 0) (tree.written_minimal 0 0 (by decide) tree.fits_zero) hts
    hts' hfull hminimal
    hplain hplain' hdeep hdeep'

/-- The tree of `true - -nil ^ nil .. false`. -/
def sampleTree : Tree :=
  .binary ⟨.concat, .symbol .concat, rfl⟩
    (.binary ⟨.arith .sub, .char '-', rfl⟩ .true_
      (.unary .minus (.binary ⟨.arith .pow, .char '^', rfl⟩ .nil .nil)))
    .false_

theorem compile_grouping_sample :
    ∃ p, compile (utf8 "a") (utf8 "return ((true-(-(nil^nil)))..false)") = .ok p ∧
      compile (utf8 "a") (utf8 "return true - -nil ^ nil .. false") = .ok p := by
  have hok : (compile (utf8 "a") (utf8 "return ((true-(-(nil^nil)))..false)")).toOption.isSome =
      true := by
    unfold compile run initial Lexer.start
    rw [Interner.reservedIndex_markAll]
    decide +kernel
  have hok' : (compile (utf8 "a") (utf8 "return true - -nil ^ nil .. false")).toOption.isSome =
      true := by
    unfold compile run initial Lexer.start
    rw [Interner.reservedIndex_markAll]
    decide +kernel
  have hdeep : ∀ source : Bytes, (compile (utf8 "a") source).toOption.isSome = true →
      ∀ e, compile (utf8 "a") source = .error (.error e) → e.message ≠ utf8 "C stack overflow" := by
    intro source h e he
    rw [he] at h
    cases h
  have hts : (tokens? (utf8 "return ((true-(-(nil^nil)))..false)")).map (List.map Token.bare) =
      some (.word .return_ :: sampleTree.full) := by
    decide +kernel
  have hts' : (tokens? (utf8 "return true - -nil ^ nil .. false")).map (List.map Token.bare) =
      some (.word .return_ :: sampleTree.minimal) := by
    decide +kernel
  obtain ⟨ts, hts, hb⟩ := Option.map_eq_some_iff.1 hts
  obtain ⟨ts', hts', hb'⟩ := Option.map_eq_some_iff.1 hts'
  have hsmall : sampleTree.Small := by
    unfold Tree.Small
    decide
  refine (compile_grouping sampleTree _ _ _ ts ts' hts hts' hb hb' ?_ ?_ (hdeep _ hok)
    (hdeep _ hok')).resolve_right
    fun h => h.1 hsmall
  · unfold Plain
    decide +kernel
  · unfold Plain
    decide +kernel

end LuaChunk
