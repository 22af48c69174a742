import LuaChunk.Compile.Statement
import LuaChunk.Proofs.Parallel.Scope
import LuaChunk.Proofs.Syntax.Coding

set_option autoImplicit false

namespace LuaChunk.Compile

open LuaChunk

variable {keeps semantic : Bool} {α β : Type}

theorem coding_modify {u : State → State}
    (hu : ∀ (s : State) (l : Lexer) (n : Progress), u (s.withStream l n) = (u s).withStream l n) :
    Coding false semantic (modify u : M PUnit) := .modify hu fun h => by cases h

theorem coding_modifyFn (u : Builder → Builder) : Coding false semantic (modifyFn u) :=
  coding_modify fun _ _ _ => rfl

instance coding_declare (name : Option Bytes) (kind : VarKind) (declaredAt : Option Nat)
    (control : Bool) :
    Coding false semantic (declare name kind declaredAt control) := by
  unfold declare
  refine .seq (coding_modify fun _ _ _ => rfl) fun _ => .get (fun s => inferInstance) fun _ _ _ _ =>
    rfl

instance coding_modifyVariable (i : Nat) (change : Variable → Variable) :
    Coding false semantic (modifyVariable i change) := by
  have h : Coding false semantic
      (modify fun s : State => { s with vars := s.vars.modify i change }) :=
    coding_modify fun _ _ _ => rfl
  unfold modifyVariable
  exact .get (fun s => inferInstance) fun _ _ _ _ => rfl

instance coding_registerLocal (v : Variable) (reg : Nat) :
    Coding keeps semantic (registerLocal v reg) := by
  have h : ∀ x : Builder → Span,
      Coding keeps semantic (modifyFn fun f => { f with locals := f.locals.push (x f) }) :=
    fun _ => .modifyFn fun _ => rfl
  unfold registerLocal
  refine .seq inferInstance fun _ => .seq (h _) fun _ => ?_
  cases v.name <;> infer_instance

instance coding_modifyLocal (i : Nat) (change : Span → Span) :
    Coding keeps semantic (modifyLocal i change) := by
  have h : Coding keeps semantic
      (modifyFn fun f => { f with locals := f.locals.modify i change }) := .modifyFn fun _ => rfl
  unfold modifyLocal
  infer_instance

instance coding_activateFrom (n level : Nat) : Coding false semantic (activateFrom n level) := by
  have h : Coding false semantic (modifyFn fun f => { f with active := f.active + 1 }) :=
    coding_modifyFn _
  induction n generalizing level with
  | zero =>
    unfold activateFrom
    infer_instance
  | succ n ih =>
    unfold activateFrom
    exact .get (fun s => inferInstance) fun _ _ _ _ => rfl

instance coding_activate (n : Nat) : Coding false semantic (activate n) := by
  unfold activate
  infer_instance

instance coding_activateUnplaced (n : Nat) : Coding keeps semantic (activateUnplaced n) :=
  .modifyFn fun _ => rfl

instance coding_endScopes (n : Nat) : Coding keeps semantic (endScopes n) := by
  have h : Coding keeps semantic (modifyFn fun f => { f with active := f.active - 1 }) :=
    .modifyFn fun _ => rfl
  induction n with
  | zero =>
    unfold endScopes
    infer_instance
  | succ n ih =>
    unfold endScopes
    exact .seq inferInstance fun _ => .get (fun s => inferInstance) fun _ _ _ _ => rfl

instance coding_removeVariables (level : Nat) : Coding false semantic (removeVariables level) := by
  have h : ∀ n : Nat, Coding false semantic
      (modify fun s : State => { s with vars := s.vars.shrink (s.vars.size - n) }) :=
    fun n => coding_modify fun _ _ _ => rfl
  unfold removeVariables
  refine .get (fun s => .seq inferInstance fun _ => .get (fun t => inferInstance) fun _ _ _ _ =>
    rfl) fun _ _ _ _ => rfl

instance coding_closeFirst (p : Block → Bool) (change : Block → Block) :
    Coding keeps semantic (closeFirst p change) := by
  have h : ∀ blocks : List Block,
      Coding keeps semantic (modifyFn fun f => { f with blocks, needClose := true }) :=
    fun blocks => .modifyFn fun _ => rfl
  unfold closeFirst
  refine .seq inferInstance fun blocks => ?_
  split <;> infer_instance

instance coding_markCaptured (index : Nat) : Coding keeps semantic (markCaptured index) :=
  coding_closeFirst ..

instance coding_markToClose : Coding keeps semantic markToClose := coding_closeFirst ..

instance coding_noteMeaning (name : Bytes) (m : Meaning) :
    Coding keeps semantic (noteMeaning name m) :=
  .modify (fun _ _ _ => rfl) fun _ _ => ⟨rfl, rfl, rfl, rfl⟩

instance coding_noteCapture (u : Upvalue) : Coding keeps semantic (noteCapture u) :=
  .modify (fun _ _ _ => rfl) fun _ _ => ⟨rfl, rfl, rfl, rfl⟩

instance coding_addUpvalue (u : Upvalue) : Coding false semantic (addUpvalue u) := by
  have h : Coding false semantic (modifyFn fun f => { f with upvalues := f.upvalues.push u }) :=
    coding_modifyFn _
  unfold addUpvalue
  cases u.name <;> infer_instance

instance coding_findUpvalue? (name : Bytes) : Coding keeps semantic (findUpvalue? name) := by
  unfold findUpvalue?
  refine .seq inferInstance fun ups => ?_
  split <;> infer_instance

instance coding_inEnclosing (m : M α) [h : Coding false semantic m] :
    Coding false semantic (inEnclosing m) := by
  refine ⟨fun s l n hl => ?_⟩
  cases ho : s.outer with
  | nil =>
    rw [inEnclosing_nil ho, inEnclosing_nil (s := s.withStream l n) ho]
    exact .error (.broken _)
  | cons b rest =>
    have hrun := h.sameRun { s with fn := b, outer := rest } l n hl
    rw [inEnclosing_cons ho, inEnclosing_cons (s := s.withStream l n) ho]
    dsimp only [State.withStream] at hrun ⊢
    generalize m { s with fn := b, outer := rest } = r at hrun
    generalize m _ = r' at hrun
    cases hrun with
    | ok ht hb _ => exact .ok ht hb nofun
    | error h => exact .error h

instance coding_resolveFrom (name : Bytes) (enclosing : Nat) (isBase : Bool) (d : Declared) :
    Coding false semantic (resolveFrom name enclosing isBase d) := by
  induction enclosing generalizing isBase d with
  | zero =>
    unfold resolveFrom
    refine .get (fun s => ?_) fun _ _ _ _ => rfl
    split
    · infer_instance
    · infer_instance
    · refine .seq inferInstance fun i? => ?_
      split <;> infer_instance
    · infer_instance
  | succ n ih =>
    unfold resolveFrom
    refine .get (fun s => ?_) fun _ _ _ _ => rfl
    split
    · infer_instance
    · infer_instance
    · refine .seq inferInstance fun i? => ?_
      split
      · infer_instance
      · dsimp only
        refine .seq inferInstance fun m => ?_
        split <;> infer_instance
    · infer_instance

instance coding_resolve (name : Bytes) : Coding false semantic (resolve name) := by
  unfold resolve
  exact .get (fun s => inferInstance) fun _ _ _ _ => rfl

instance coding_globalAccess (name : Bytes) : Coding false true (globalAccess name) := by
  unfold globalAccess
  refine .seq inferInstance fun m => .seq inferInstance fun _ => ?_
  dsimp only
  split <;> infer_instance

instance coding_variableExp (name : Bytes) : Coding false true (variableExp name) := by
  unfold variableExp
  refine .seq inferInstance fun m => .seq inferInstance fun _ => ?_
  dsimp only
  split <;> infer_instance

instance coding_readOnlyName? (e : Exp) : Coding keeps semantic (readOnlyName? e) := by
  have hglobal : ∀ a : GlobalAccess, Coding keeps semantic (do
      if a.readOnly then
        match a.name with
        | some k =>
          match (← MonadState.get).fn.pool.values[k.index]? with
          | some (.str s) => return some s
          | _ => broken .indexInRange
        | none => broken .indexInRange
      else return none : M (Option Bytes)) := by
    intro a
    split
    · split
      · refine .get (fun s => ?_) fun _ _ _ _ => rfl
        split <;> infer_instance
      · infer_instance
    · infer_instance
  unfold readOnlyName?
  dsimp only
  split
  case h_3 =>
    refine .get (fun s => ?_) fun _ _ _ _ => rfl
    split <;> infer_instance
  all_goals first | exact hglobal _ | infer_instance

instance coding_noteTarget (name : Option Bytes) : Coding keeps semantic (noteTarget name) :=
  .modify (fun _ _ _ => rfl) fun _ _ => ⟨rfl, rfl, rfl, rfl⟩

instance coding_readVariable (name : Bytes) : Coding false true (readVariable name) := by
  unfold readVariable
  infer_instance

instance coding_unaryExp (op : UnaryOp) (e : Exp) (line : Nat) :
    Coding keeps semantic (unaryExp op e line) := by
  unfold unaryExp
  infer_instance

instance coding_binaryExp (op : BinaryOp) (e₁ e₂ : Exp) (line : Nat) :
    Coding keeps semantic (binaryExp op e₁ e₂ line) := by
  unfold binaryExp
  infer_instance

instance coding_noteWrite (e : Exp) : Coding keeps semantic (noteWrite e) := by
  unfold noteWrite
  refine .seq inferInstance fun refused => ?_
  refine .get (fun s => .get (fun t => ?_) fun _ _ _ _ => rfl) fun _ _ _ _ => rfl
  exact .modify (fun _ _ _ => rfl) fun _ _ => ⟨rfl, rfl, rfl, rfl⟩

instance coding_checkReadOnly (e : Exp) : Coding keeps true (checkReadOnly e) := by
  unfold checkReadOnly
  refine .seq inferInstance fun name? => ?_
  split <;> infer_instance

instance coding_addGoto (name : Bytes) (line : Nat) :
    Coding false semantic (addGoto name line) := by
  unfold addGoto
  exact .seq inferInstance fun pc => .seq inferInstance fun _ => coding_modify fun _ _ _ => rfl

instance coding_currentBlock : Coding keeps semantic currentBlock := by
  unfold currentBlock
  refine .seq inferInstance fun blocks => ?_
  split <;> infer_instance

instance coding_addLabel (name : Bytes) (line : Nat) (isLast : Bool) :
    Coding keeps semantic (addLabel name line isLast) := by
  have h : ∀ (pc level : Nat), Coding keeps semantic
      (modify fun s : State => { s with labels := s.labels.push ⟨name, pc, line, level, false⟩ }) :=
    fun pc level => .modify (fun _ _ _ => rfl) fun _ _ => ⟨rfl, rfl, rfl, rfl⟩
  unfold addLabel
  dsimp only
  infer_instance

instance coding_jumpIntoScope (g : Label) : Coding keeps true (jumpIntoScope g : M α) := by
  unfold jumpIntoScope
  infer_instance

instance coding_spliceClose (pc level : Nat) : Coding keeps true (spliceClose pc level) := by
  unfold spliceClose
  infer_instance

instance coding_resolveGoto (g label : Label) (captured : Bool) :
    Coding keeps true (resolveGoto g label captured) := by
  unfold resolveGoto
  dsimp only
  infer_instance

instance coding_resolveGotos (b : Block) (gotos : List Label) :
    Coding keeps true (resolveGotos b gotos) := by
  induction gotos with
  | nil =>
    unfold resolveGotos
    infer_instance
  | cons g rest ih =>
    unfold resolveGotos
    refine .get (fun s => ?_) fun _ _ _ _ => rfl
    split <;> infer_instance

instance coding_solveGotos (b : Block) : Coding false true (solveGotos b) := by
  have hwaiting : Coding false true
      (modifyGet fun s => ((s.gotos.extract b.firstGoto s.gotos.size).toList, s) :
      M (List Label)) :=
    ⟨fun _ _ _ _ => .ok rfl rfl nofun⟩
  have hleft : ∀ left : List Label,
      Coding false true (modify fun s : State => { s with gotos := s.gotos ++ left.toArray }) :=
    fun left => coding_modify fun _ _ _ => rfl
  have hshrink : Coding false true
      (modify fun s : State => { s with gotos := s.gotos.shrink b.firstGoto }) :=
    coding_modify fun _ _ _ => rfl
  have hlabels : Coding false true
      (modify fun s : State => { s with labels := s.labels.shrink b.firstLabel }) :=
    coding_modify fun _ _ _ => rfl
  unfold solveGotos
  exact .seq hwaiting fun _ => .seq hshrink fun _ => .seq inferInstance fun _ =>
    .seq inferInstance fun _ =>
    .get (fun s => inferInstance) fun _ _ _ _ => rfl

instance coding_enterBlock (loop : Loop) : Coding keeps semantic (enterBlock loop) := by
  have h : ∀ b : Block, Coding keeps semantic
      (modifyFn fun f => { f with blocks := b :: f.blocks }) :=
    fun b => .modifyFn fun _ => rfl
  unfold enterBlock
  refine .get (fun s => ?_) fun _ _ _ _ => rfl
  dsimp only
  infer_instance

instance coding_noLabel (g : Label) : Coding keeps true (noLabel g : M α) := by
  unfold noLabel
  infer_instance

instance coding_leaveBlock : Coding false true leaveBlock := by
  have hleave : ∀ rest : List Block,
      Coding false true (modifyFn fun f => { f with blocks := rest }) :=
    fun rest => coding_modifyFn _
  unfold leaveBlock
  refine .get (fun s => ?_) fun _ _ _ _ => rfl
  cases s.fn.blocks with
  | nil => infer_instance
  | cons b rest =>
    dsimp only
    cases rest with
    | nil =>
      simp only [List.isEmpty_nil, Bool.not_true, Bool.false_and, Bool.false_eq_true, if_false,
        if_true]
      refine .seq inferInstance fun level => .seq inferInstance fun _ => ?_
      split
      all_goals
        repeat refine .seq inferInstance fun _ => ?_
        refine .get (fun s => ?_) fun _ _ _ _ => rfl
        split <;> infer_instance
    | cons c rest =>
      simp only [List.isEmpty_cons, Bool.not_false, Bool.true_and, Bool.false_eq_true, if_false]
      infer_instance

instance coding_markBroken : Coding keeps semantic markBroken := by
  have h : ∀ blocks : List Block, Coding keeps semantic (modifyFn fun f => { f with blocks }) :=
    fun blocks => .modifyFn fun _ => rfl
  unfold markBroken
  refine .seq inferInstance fun blocks => ?_
  split <;> infer_instance

instance coding_openFunction : Coding keeps semantic openFunction := by
  unfold openFunction
  refine .get (fun s => inferInstance) fun s l n hl => ?_
  dsimp only [State.withStream]
  rw [hl.source]

instance coding_startNested (line : Nat) : Coding false semantic (startNested line) := by
  have h : ∀ id : Nat, Coding false semantic (modify fun s : State => { s with
      nextId := id + 1
      fn := .start id line s.vars.size s.labels.size
      outer := s.fn :: s.outer }) := fun id => coding_modify fun _ _ _ => rfl
  have hrest : Coding false semantic (do
      let id := (← MonadState.get).nextId
      stored (.nested · id)
      modify fun s => { s with
        nextId := id + 1
        fn := .start id line s.vars.size s.labels.size
        outer := s.fn :: s.outer }
      openFunction) := .get (fun s => inferInstance) fun _ _ _ _ => rfl
  unfold startNested
  dsimp only
  infer_instance

instance coding_finish (marks : ReturnMarks) :
    Coding keeps semantic (onCode fun code => (JumpList.finish marks code).map (·, ())) :=
  coding_onCode _

instance coding_closeFunction : Coding false true closeFunction := by
  have h : Coding false true
      (modify fun s : State => { s with
        closings :=
          s.closings.push ⟨s.fn.code, s.fn.aims, s.fn.locals, s.fn.scopes, s.fn.meant⟩ }) :=
    coding_modify fun _ _ _ => rfl
  unfold closeFunction
  infer_instance

instance coding_attach : Coding false semantic attach := by
  refine ⟨fun s l n hl => ?_⟩
  rw [attach_eq, attach_eq]
  cases ho : s.outer with
  | nil =>
    rw [show (s.withStream l n).outer = [] from ho]
    exact .error (.broken _)
  | cons b rest =>
    rw [show (s.withStream l n).outer = b :: rest from ho]
    dsimp only [State.withStream]
    rw [hl.source]
    exact .ok rfl rfl nofun

instance coding_endNested : Coding false true endNested := by
  rw [endNested_eq]
  infer_instance

instance coding_setVararg (numParams : Nat) : Coding keeps semantic (setVararg numParams) := by
  have h : Coding keeps semantic (modifyFn fun f => { f with isVararg := true }) :=
    .modifyFn fun _ => rfl
  unfold setVararg
  infer_instance

instance coding_emitClosure : Coding false semantic emitClosure := by
  unfold emitClosure
  infer_instance

instance coding_fixLoop (pc distance : Nat) : Coding keeps semantic (fixLoop pc distance) := by
  unfold fixLoop
  infer_instance

instance coding_adjustValues (count : Nat) (list : Nat × Exp) :
    Coding keeps semantic (adjustValues count list) := by
  have h : Coding keeps semantic
      (modifyFn fun f => { f with freeReg := f.freeReg - (list.1 - count) }) :=
    .modifyFn fun _ => rfl
  unfold adjustValues
  infer_instance

instance coding_checkToClose (place : Option Nat) : Coding keeps semantic (checkToClose place) := by
  unfold checkToClose
  split <;> infer_instance

instance coding_noteKnown (value : Value) : Coding keeps semantic (noteKnown value) := by
  unfold noteKnown
  split <;> infer_instance

instance coding_knownValue? (e : Exp) : Coding keeps semantic (knownValue? e) := by
  unfold knownValue?
  split
  · infer_instance
  · split <;> infer_instance

instance coding_checkUndefined (name : Bytes) (line : Nat) :
    Coding false true (checkUndefined name line) := by
  unfold checkUndefined
  refine .seq inferInstance fun e => ?_
  dsimp only
  split <;> infer_instance

instance coding_storeTop (target : Exp) : Coding keeps semantic (storeTop target) := by
  unfold storeTop
  infer_instance

instance coding_copyConflicts (v : Exp) (earlier : List Exp) :
    Coding keeps semantic (copyConflicts v earlier) := by
  unfold copyConflicts
  refine .seq inferInstance fun copy => ?_
  dsimp only
  split
  · split <;> infer_instance
  · infer_instance

instance coding_emitSetList (table stored : Nat) (count : Option Nat) :
    Coding keeps semantic (emitSetList table stored count) := by
  unfold emitSetList
  dsimp only
  infer_instance

instance coding_setTableSize (pc table list records : Nat) :
    Coding keeps semantic (setTableSize pc table list records) := by
  unfold setTableSize
  dsimp only
  infer_instance

instance coding_checkItems (n : Nat) : Coding keeps semantic (checkItems n) := by
  unfold checkItems
  exact .get (fun s => inferInstance) fun _ _ _ _ => rfl

instance coding_closeItem (c : Constructor) (limit : Nat) :
    Coding keeps semantic (closeItem c limit) := by
  unfold closeItem
  infer_instance

instance coding_closeItems (c : Constructor) : Coding keeps semantic (closeItems c) := by
  unfold closeItems
  infer_instance

end LuaChunk.Compile
