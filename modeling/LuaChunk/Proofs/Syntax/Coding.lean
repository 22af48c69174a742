import LuaChunk.Compile.Expression

/-!
The code generator and the token stream. What the code generator does depends on the token stream
only by the lines of its place, and leaves it as it is. It refuses no source because of its syntax:
it fails if the source needs too much of something, and some of it if a name is used in a way that
it must not be.
-/

set_option autoImplicit false

namespace LuaChunk

structure Lexer.SamePlace (l l' : Lexer) : Prop where
  line : l'.line = l.line
  lastLine : l'.lastLine = l.lastLine
  source : l'.source = l.source

namespace Compile

/-- What is wrong with a jump that is too long. -/
def tooLong : Bytes := utf8 "control structure too long"

/-- Whether the code generator may report the error; `semantic` allows the misuse of names. -/
def Reportable (semantic : Bool) (e : CompileError) : Prop :=
  e.kind = .limit ∨ e.kind = .syntactic ∧ e.message = tooLong ∨ e.kind = .semantic ∧ semantic = true

/-- Errors that differ at most in the token they were found at. -/
structure SameError (e e' : CompileError) : Prop where
  kind : e'.kind = e.kind
  source : e'.source = e.source
  line : e'.line = e.line
  message : e'.message = e.message

theorem SameError.symm {e e' : CompileError} (h : SameError e e') : SameError e' e :=
  ⟨h.kind.symm, h.source.symm, h.line.symm, h.message.symm⟩

theorem SameError.trans {e e' e'' : CompileError} (h : SameError e e') (h' : SameError e' e'') :
    SameError e e'' :=
  ⟨h'.kind.trans h.kind, h'.source.trans h.source, h'.line.trans h.line, h'.message.trans h.message⟩

/-- Failures that differ at most in the token they were found at. -/
inductive SameFailure (semantic : Bool) : Failure → Failure → Prop
  | error {e e' : CompileError} (h : SameError e e') (hr : Reportable semantic e) : SameFailure
    semantic (.error e) (.error e')
  | broken (a : Assertion) : SameFailure semantic (.broken a) (.broken a)

/-- What the parser keeps to itself: the bound for its loops, and how deep it is and has been. -/
structure Progress where
  bound : Nat
  depth : Nat
  deepest : Nat

def State.progress (s : State) : Progress := ⟨s.bound, s.depth, s.deepest⟩

/-- The state with another token stream, at another place of the parser. -/
def State.withStream (s : State) (l : Lexer) (n : Progress) : State :=
  { s with lexer := l, bound := n.bound, depth := n.depth, deepest := n.deepest }

/-- States with the same declarations, upvalues and gotos. -/
structure State.SameNames (s t : State) : Prop where
  vars : t.vars = s.vars
  outer : t.outer = s.outer
  upvalues : t.fn.upvalues = s.fn.upvalues
  gotos : t.gotos = s.gotos

namespace State.SameNames

variable {s t u : State}

theorem refl (s : State) : s.SameNames s := ⟨rfl, rfl, rfl, rfl⟩

theorem trans (h : s.SameNames t) (h' : t.SameNames u) : s.SameNames u :=
  ⟨h'.vars.trans h.vars, h'.outer.trans h.outer, h'.upvalues.trans h.upvalues,
    h'.gotos.trans h.gotos⟩

end State.SameNames

variable {keeps semantic : Bool} {α β : Type}

/-- The results of an action in a state and in the same state with another token stream. -/
inductive SameRun (keeps semantic : Bool) (s : State) (l : Lexer) (n : Progress) :
    (r r' : EStateM.Result Failure State α) → Prop
  | ok {a : α} {t : State} (hl : t.lexer = s.lexer) (hb : t.progress = s.progress)
    (hk : keeps = true → s.SameNames t) :
    SameRun keeps semantic s l n (.ok a t) (.ok a (t.withStream l n))
  | error {e e' : Failure} {t t' : State} (h : SameFailure semantic e e') : SameRun keeps semantic s
    l n (.error e t) (.error e' t')

/-- An action of the code generator. `keeps` says that it keeps declarations, upvalues and gotos,
and `semantic` that it may report the misuse of a name. -/
class Coding (keeps semantic : Bool) (m : M α) : Prop where
  sameRun : ∀ (s : State) (l : Lexer) (n : Progress), s.lexer.SamePlace l →
    SameRun keeps semantic s l n (m s) (m (s.withStream l n))

namespace Coding

variable {m m' : M α} {f : α → M β}

instance bind [h : Coding keeps semantic m] [hf : ∀ a, Coding keeps semantic (f a)] :
    Coding keeps semantic (m >>= f) := by
  refine ⟨fun s l n hl => ?_⟩
  have hm := h.sameRun s l n hl
  show SameRun keeps semantic s l n (EStateM.bind m f s) (EStateM.bind m f (s.withStream l n))
  unfold EStateM.bind
  generalize m s = r at hm
  generalize m (s.withStream l n) = r' at hm
  cases hm with
  | error h => exact .error h
  | @ok a t ht hb hk =>
    have ha := (hf a).sameRun t l n (ht ▸ hl)
    dsimp only
    generalize f a t = r at ha
    generalize f a (t.withStream l n) = r' at ha
    cases ha with
    | error h => exact .error h
    | ok ht' hb' hk' => exact .ok (ht'.trans ht) (hb'.trans hb) fun h => (hk h).trans (hk' h)

theorem seq (h : Coding keeps semantic m) (hf : ∀ a, Coding keeps semantic (f a)) :
    Coding keeps semantic (m >>= f) := bind

instance pure (a : α) : Coding keeps semantic (Pure.pure a : M α) :=
  ⟨fun s _ _ _ => .ok rfl rfl fun _ => .refl s⟩

instance map {g : α → β} [h : Coding keeps semantic m] : Coding keeps semantic (g <$> m) := by
  rw [map_eq_pure_bind]
  exact bind

instance discard [h : Coding keeps semantic m] : Coding keeps semantic (discard m) := map

instance ite {c : Prop} [Decidable c] [h : Coding keeps semantic m]
    [h' : Coding keeps semantic m'] :
    Coding keeps semantic (if c then m else m') := by
  split
  · exact h
  · exact h'

instance optional {c : Prop} [Decidable c] {rest : M β} [hm : Coding keeps semantic m]
    [h : Coding keeps semantic rest] : Coding keeps semantic
    (if c then m >>= fun _ => rest else rest) := by
  split
  · exact hm.seq fun _ => h
  · exact h

instance broken (a : Assertion) : Coding keeps semantic (broken a : M α) :=
  ⟨fun _ _ _ _ => .error (.broken a)⟩

theorem failure {kind : ErrorKind} {message : Bytes}
    (hr : ∀ source line near, Reportable semantic ⟨kind, source, line, message, near⟩) :
    Coding keeps semantic (do fail kind message (← currentNear) : M α) :=
  ⟨fun _ _ _ hl => .error (.error ⟨rfl, hl.source, hl.line, rfl⟩ (hr _ _ _))⟩

instance limitFailure (message : Bytes) :
    Coding keeps semantic (do fail .limit message (← currentNear) : M α) :=
  failure fun _ _ _ => .inl rfl

instance tooLongError : Coding keeps semantic
    (syntaxError (utf8 "control structure too long") : M α) :=
  failure fun _ _ _ => .inr (.inl ⟨rfl, rfl⟩)

instance semanticError (message : Bytes) : Coding keeps true (semanticError message : M α) :=
  ⟨fun _ _ _ hl => .error (.error ⟨rfl, hl.source, hl.line, rfl⟩ (.inr (.inr ⟨rfl, rfl⟩)))⟩

instance limitError (limit : Int) (what : String) :
    Coding keeps semantic (limitError limit what : M α) :=
  ⟨fun _ _ _ hl => .error (.error ⟨rfl, hl.source, hl.line, rfl⟩ (.inl rfl))⟩

theorem get {f : State → M β} (hf : ∀ s, Coding keeps semantic (f s))
    (hr : ∀ (s : State) (l : Lexer) (n : Progress), s.lexer.SamePlace l →
    f (s.withStream l n) = f s) :
    Coding keeps semantic (MonadState.get >>= f) := by
  refine ⟨fun s l n hl => ?_⟩
  show SameRun keeps semantic s l n (f s s) (f (s.withStream l n) (s.withStream l n))
  rw [hr s l n hl]
  exact (hf s).sameRun s l n hl

theorem modify {u : State → State}
    (hu : ∀ (s : State) (l : Lexer) (n : Progress), u (s.withStream l n) = (u s).withStream l n)
    (hk : keeps = true → ∀ s : State, s.SameNames (u s)) : Coding keeps semantic
    (modify u : M PUnit) := by
  refine ⟨fun s l n _ => ?_⟩
  show SameRun keeps semantic s l n (.ok _ (u s)) (.ok _ (u (s.withStream l n)))
  have hself : u s = (u s).withStream s.lexer s.progress := hu s s.lexer s.progress
  rw [hu s l n]
  exact .ok (by rw [hself]; rfl) (by rw [hself]; rfl) fun h => hk h s

instance ofFn (g : Builder → α) : Coding keeps semantic (ofFn g) :=
  ⟨fun s _ _ _ => .ok rfl rfl fun _ => .refl s⟩

theorem modifyFn {u : Builder → Builder} (hu : ∀ f, (u f).upvalues = f.upvalues) :
    Coding keeps semantic (modifyFn u) :=
  modify (fun _ _ _ => rfl) fun _ s => ⟨rfl, rfl, hu s.fn, rfl⟩

end Coding

instance coding_stored (event : Nat → Store) : Coding keeps semantic (stored event) :=
  .modify (fun _ _ _ => rfl) fun _ _ => ⟨rfl, rfl, rfl, rfl⟩

instance coding_noteFits (fits : Bool) : Coding keeps semantic (noteFits fits) :=
  .modify (fun _ _ _ => rfl) fun _ _ => ⟨rfl, rfl, rfl, rfl⟩

instance coding_noteFloat (x : Double) (keeper : Keeper) :
    Coding keeps semantic (noteFloat x keeper) :=
  .modify (fun _ _ _ => rfl) fun _ _ => ⟨rfl, rfl, rfl, rfl⟩

instance coding_here : Coding keeps semantic here := .ofFn _

instance coding_freeReg : Coding keeps semantic freeReg := .ofFn _

instance coding_setFreeReg (r : Nat) : Coding keeps semantic (setFreeReg r) :=
  .modifyFn fun _ => rfl

instance coding_emit (d : Draft) (meant : List Value) : Coding keeps semantic (emit d meant) := by
  have hpush : ∀ (line : Nat) (places : List (Nat × Option Bytes)), Coding keeps semantic
      (modifyFn fun f => { f with
        code := f.code.push d.word, lines := f.lines.record line, scopes := f.scopes.push places,
        meant := f.meant.push meant }) :=
    fun line places => .modifyFn fun _ => rfl
  unfold emit
  refine .seq inferInstance fun _ =>
    .get (fun s => .get (fun s => inferInstance) fun _ _ _ _ => rfl) fun s l n hl => ?_
  dsimp only [State.withStream]
  rw [hl.lastLine]

instance coding_emitABCk (op : Opcode) (a b c k : Nat) (meant : List Value) :
    Coding keeps semantic (emitABCk op a b c k meant) :=
  coding_emit ..

instance coding_emitABC (op : Opcode) (a b c : Nat) (meant : List Value) :
    Coding keeps semantic (emitABC op a b c meant) :=
  coding_emit ..

instance coding_emitABx (op : Opcode) (a bx : Nat) (meant : List Value) :
    Coding keeps semantic (emitABx op a bx meant) :=
  coding_emit ..

instance coding_fixLine (line : Nat) : Coding keeps semantic (fixLine line) := by
  have h : Coding keeps semantic (modifyFn fun f => { f with lines := f.lines.fixLast line }) :=
    .modifyFn fun _ => rfl
  unfold fixLine
  infer_instance

instance coding_removeLast : Coding keeps semantic removeLast := by
  have h : Coding keeps semantic (modifyFn fun f => { f with
      code := f.code.pop, lines := f.lines.removeLast, scopes := f.scopes.pop,
      meant := f.meant.pop }) :=
    .modifyFn fun _ => rfl
  unfold removeLast
  infer_instance

instance coding_instructionAt (pc : Nat) : Coding keeps semantic (instructionAt pc) := by
  unfold instructionAt
  refine .seq inferInstance fun i => ?_
  cases i <;> infer_instance

instance coding_modifyAt (pc : Nat) (change : Instruction → Instruction) :
    Coding keeps semantic (modifyAt pc change) := by
  have h : Coding keeps semantic (modifyFn fun f => { f with code := f.code.modify pc change }) :=
    .modifyFn fun _ => rfl
  unfold modifyAt
  infer_instance

instance coding_setAt (pc : Nat) (changes : List (Instruction.Field × Nat)) :
    Coding keeps semantic (setAt pc changes) := by
  unfold setAt
  infer_instance

instance coding_replaceAt (pc : Nat) (d : Draft) : Coding keeps semantic (replaceAt pc d) := by
  unfold replaceAt
  infer_instance

instance coding_previous? : Coding keeps semantic previous? := .ofFn _

instance coding_setLast (changes : List (Instruction.Field × Nat)) :
    Coding keeps semantic (setLast changes) := by
  unfold setLast
  infer_instance

instance coding_emitK (reg : Nat) (k : PoolEntry) : Coding keeps semantic (emitK reg k) := by
  unfold emitK
  infer_instance

instance coding_loadNil (start n : Nat) : Coding keeps semantic (loadNil start n) := by
  unfold loadNil
  refine .seq inferInstance fun i => ?_
  cases i.bind (extendNil? start n) <;> infer_instance

instance coding_emitReturn (first : Nat) (count : Option Nat) :
    Coding keeps semantic (emitReturn first count) := by
  unfold emitReturn
  split <;> infer_instance

instance coding_markTarget : Coding keeps semantic markTarget := by
  have h : Coding keeps semantic (modifyFn fun f => { f with lastTarget := f.code.size }) :=
    .modifyFn fun _ => rfl
  unfold markTarget
  infer_instance

instance coding_onCode (act : JumpList.Code → Except JumpList.Fault (JumpList.Code × α)) :
    Coding keeps semantic (onCode act) := by
  have hread : Coding keeps semantic
      (modifyGet fun s => (s.fn.code, { s with fn := { s.fn with code := #[] } }) :
      M JumpList.Code) :=
    ⟨fun _ _ _ _ => .ok rfl rfl fun _ => ⟨rfl, rfl, rfl, rfl⟩⟩
  have hwrite : ∀ code : JumpList.Code, Coding keeps semantic (modifyFn fun f => { f with code }) :=
    fun code => .modifyFn fun _ => rfl
  unfold onCode
  refine .seq hread fun code => ?_
  rcases act code with ((_ | _) | ⟨code, a⟩) <;> infer_instance

instance coding_noteLists (used : List (Option Nat)) : Coding keeps semantic (noteLists used) :=
  .modify (fun _ _ _ => rfl) fun _ _ => ⟨rfl, rfl, rfl, rfl⟩

instance coding_hold (pc : Nat) : Coding keeps semantic (hold pc) := .modifyFn fun _ => rfl

instance coding_giveUp (list : Option Nat) : Coding keeps semantic (giveUp list) :=
  .modifyFn fun _ => rfl

instance coding_jump : Coding keeps semantic jump := by
  unfold jump
  infer_instance

instance coding_appendJumps (first second : Option Nat) :
    Coding keeps semantic (appendJumps first second) := by
  unfold appendJumps
  infer_instance

instance coding_aimJumps (list : Option Nat) (valueTarget : Nat) (reg plainTarget : Option Nat) :
    Coding keeps semantic (aimJumps list valueTarget reg plainTarget) := by
  have h : ∀ aims : List (Nat × Nat),
      Coding keeps semantic (modifyFn fun f => { f with aims := aims ++ f.aims }) :=
    fun aims => .modifyFn fun _ => rfl
  unfold aimJumps
  infer_instance

instance coding_patchList (list : Option Nat) (target : Nat) :
    Coding keeps semantic (patchList list target) := coding_aimJumps ..

instance coding_patchValues (list : Option Nat) (target reg : Nat) (plain : Option Nat) :
    Coding keeps semantic (patchValues list target reg plain) := by
  unfold patchValues
  infer_instance

instance coding_patchToHere (list : Option Nat) : Coding keeps semantic (patchToHere list) := by
  unfold patchToHere
  infer_instance

instance coding_jumpTo (target : Nat) : Coding keeps semantic (jumpTo target) := by
  unfold jumpTo
  infer_instance

instance coding_testJump (op : Opcode) (a b c k : Nat) (meant : List Value) :
    Coding keeps semantic (testJump op a b c k meant) := by
  unfold testJump
  infer_instance

instance coding_needsValue (list : Option Nat) : Coding keeps semantic (needsValue list) := by
  unfold needsValue
  infer_instance

instance coding_removeValues (list : Option Nat) : Coding keeps semantic (removeValues list) := by
  unfold removeValues
  infer_instance

instance coding_registerLevel (n : Nat) : Coding keeps semantic (registerLevel n) := by
  unfold registerLevel
  refine .get (fun s => ?_) fun _ _ _ _ => rfl
  cases registersOf s.vars s.fn.firstVar n <;> infer_instance

instance coding_activeRegisters : Coding keeps semantic activeRegisters := by
  unfold activeRegisters
  infer_instance

instance coding_checkStack (n : Nat) : Coding keeps semantic (checkStack n) := by
  have h : ∀ size : Nat, Coding keeps semantic (modifyFn fun f => { f with maxStack := size }) :=
    fun size => .modifyFn fun _ => rfl
  unfold checkStack
  dsimp only
  infer_instance

instance coding_reserve (n : Nat) : Coding keeps semantic (reserve n) := by
  have h : Coding keeps semantic (modifyFn fun f => { f with freeReg := f.freeReg + n }) :=
    .modifyFn fun _ => rfl
  unfold reserve
  infer_instance

instance coding_freeRegister (reg : Nat) : Coding keeps semantic (freeRegister reg) := by
  unfold freeRegister
  infer_instance

instance coding_freeRegisters (r₁ r₂ : Nat) : Coding keeps semantic (freeRegisters r₁ r₂) := by
  unfold freeRegisters
  infer_instance

instance coding_placeConstant (key : PoolKey) (v : Value) :
    Coding keeps semantic (placeConstant key v) := by
  have hpush : Coding keeps semantic (modifyFn fun f => { f with pool := f.pool.push key v }) :=
    .modifyFn fun _ => rfl
  unfold placeConstant
  refine .seq inferInstance fun k? => ?_
  cases k? with
  | some k => infer_instance
  | none => cases v <;> infer_instance

instance coding_addConstant (key : PoolKey) (v : Value) :
    Coding keeps semantic (addConstant key v) := by
  unfold addConstant
  refine .seq inferInstance fun k => ?_
  split <;> infer_instance

instance coding_stringK (s : Bytes) : Coding keeps semantic (stringK s) := coding_addConstant ..

instance coding_intK (n : Int64) : Coding keeps semantic (intK n) := coding_addConstant ..

instance coding_floatK (x : Double) : Coding keeps semantic (floatK x) := coding_addConstant ..

instance coding_boolK (b : Bool) : Coding keeps semantic (boolK b) := coding_addConstant ..

instance coding_nilK : Coding keeps semantic nilK := coding_addConstant ..

instance coding_variableAt (i : Nat) : Coding keeps semantic (variableAt i) := by
  unfold variableAt
  refine .get (fun s => ?_) fun _ _ _ _ => rfl
  cases s.vars[i]? <;> infer_instance

instance coding_ownVariable (i : Nat) : Coding keeps semantic (ownVariable i) := by
  unfold ownVariable
  exact .get (fun s => inferInstance) fun _ _ _ _ => rfl

instance coding_freeExp (e : Exp) : Coding keeps semantic (freeExp e) := by
  unfold freeExp
  split <;> infer_instance

instance coding_freeExps (e₁ e₂ : Exp) : Coding keeps semantic (freeExps e₁ e₂) := by
  unfold freeExps
  split <;> infer_instance

instance coding_setReturns (e : Exp) (count : Option Nat) :
    Coding keeps semantic (setReturns e count) := by
  unfold setReturns
  dsimp only
  split <;> infer_instance

instance coding_setOneReturn (e : Exp) : Coding keeps semantic (setOneReturn e) := by
  unfold setOneReturn
  split <;> infer_instance

instance coding_dischargeVars (e : Exp) : Coding keeps semantic (dischargeVars e) := by
  unfold dischargeVars
  dsimp only
  split <;> infer_instance

instance coding_loadInt (reg : Nat) (n : Int64) : Coding keeps semantic (loadInt reg n) := by
  unfold loadInt
  infer_instance

instance coding_loadFloat (reg : Nat) (x : Double) : Coding keeps semantic (loadFloat reg x) := by
  unfold loadFloat
  dsimp only
  split <;> infer_instance

instance coding_dischargeTo (e : Exp) (reg : Nat) : Coding keeps semantic (dischargeTo e reg) := by
  unfold dischargeTo
  refine .seq inferInstance fun e => ?_
  dsimp only
  split <;> infer_instance

instance coding_dischargeToAny (e : Exp) : Coding keeps semantic (dischargeToAny e) := by
  unfold dischargeToAny
  split <;> infer_instance

instance coding_loadBool (reg : Nat) (op : Opcode) : Coding keeps semantic (loadBool reg op) := by
  unfold loadBool
  infer_instance

instance coding_loadBools (e : Exp) (reg : Nat) : Coding keeps semantic (loadBools e reg) := by
  unfold loadBools
  refine .seq inferInstance fun first => ?_
  cases e.kind <;> dsimp only <;> split <;> infer_instance

instance coding_toRegister (e : Exp) (reg : Nat) : Coding keeps semantic (toRegister e reg) := by
  unfold toRegister
  refine .seq inferInstance fun e => ?_
  have hjumps : ∀ e : Exp, Coding keeps semantic (do
      let (ifFalse, ifTrue) ← loadBools e reg
      let final ← markTarget
      patchValues e.whenFalse final reg ifFalse
      patchValues e.whenTrue final reg ifTrue) :=
    fun e => .seq inferInstance fun (ifFalse, ifTrue) => inferInstance
  dsimp only
  split <;> infer_instance

instance coding_toNextRegister (e : Exp) : Coding keeps semantic (toNextRegister e) := by
  unfold toNextRegister
  infer_instance

instance coding_toAnyRegister (e : Exp) : Coding keeps semantic (toAnyRegister e) := by
  unfold toAnyRegister
  refine .seq inferInstance fun e => ?_
  split <;> infer_instance

instance coding_toRegisterOrUpvalue (e : Exp) : Coding keeps semantic (toRegisterOrUpvalue e) := by
  unfold toRegisterOrUpvalue
  split <;> infer_instance

instance coding_toValue (e : Exp) : Coding keeps semantic (toValue e) := by
  unfold toValue
  infer_instance

instance coding_toConstant? (e : Exp) : Coding keeps semantic (toConstant? e) := by
  unfold toConstant?
  dsimp only
  split
  · infer_instance
  · split <;> exact .seq inferInstance fun index? => by cases index? <;> infer_instance

instance coding_toOperand (e : Exp) : Coding keeps semantic (toOperand e) := by
  unfold toOperand
  refine .seq inferInstance fun k? => ?_
  cases k? <;> infer_instance

instance coding_emitWithOperand (op : Opcode) (a b : Nat) (e : Exp) (meant : List Value) :
    Coding keeps semantic (emitWithOperand op a b e meant) := by
  unfold emitWithOperand
  infer_instance

instance coding_storeTo (v e : Exp) : Coding keeps semantic (storeTo v e) := by
  unfold storeTo
  split <;> infer_instance

instance coding_emitSelf (e : Exp) (name : Bytes) : Coding keeps semantic (emitSelf e name) := by
  unfold emitSelf
  infer_instance

instance coding_shortKey? (k : Exp) : Coding keeps semantic (shortKey? k) := by
  unfold shortKey?
  split
  · split
    · infer_instance
    · exact .seq inferInstance fun v? => by cases v? <;> infer_instance
  · infer_instance

instance coding_noteLoad (key : Exp) : Coding keeps semantic (noteLoad key) := by
  unfold noteLoad
  split
  · exact .modify (fun _ _ _ => rfl) fun _ _ => ⟨rfl, rfl, rfl, rfl⟩
  · infer_instance

instance coding_index (t k : Exp) : Coding keeps semantic (index t k) := by
  unfold index
  dsimp only
  repeat' first
    | infer_instance
    | refine .seq inferInstance fun _ => ?_
    | split

instance coding_negateCondition (pc : Nat) : Coding keeps semantic (negateCondition pc) := by
  unfold negateCondition
  infer_instance

instance coding_jumpOn (e : Exp) (cond : Bool) : Coding keeps semantic (jumpOn e cond) := by
  unfold jumpOn
  dsimp only
  split
  · refine .seq inferInstance fun i => ?_
    split
    · infer_instance
    · exact .seq inferInstance fun e => .seq inferInstance fun _ => by
        cases e.register? <;> infer_instance
  · exact .seq inferInstance fun e => .seq inferInstance fun _ => by
      cases e.register? <;> infer_instance

instance coding_goIfTrue (e : Exp) : Coding keeps semantic (goIfTrue e) := by
  unfold goIfTrue
  refine .seq inferInstance fun e => ?_
  dsimp only
  split <;> infer_instance

instance coding_goIfFalse (e : Exp) : Coding keeps semantic (goIfFalse e) := by
  unfold goIfFalse
  refine .seq inferInstance fun e => ?_
  dsimp only
  split <;> infer_instance

instance coding_emitNot (e : Exp) : Coding keeps semantic (emitNot e) := by
  unfold emitNot
  dsimp only
  split
  case h_9 | h_10 =>
    refine .seq inferInstance fun v => .seq inferInstance fun _ => ?_
    cases v.register? <;> infer_instance
  all_goals infer_instance

instance coding_emitUnary (op : Opcode) (e : Exp) (line : Nat) :
    Coding keeps semantic (emitUnary op e line) := by
  unfold emitUnary
  infer_instance

instance coding_applyUnary (op : UnaryOp) (e : Exp) (line : Nat) :
    Coding keeps semantic (applyUnary op e line) := by
  unfold applyUnary
  refine .seq inferInstance fun e => ?_
  dsimp only
  split
  · split <;> infer_instance
  · split <;> infer_instance
  · infer_instance
  · infer_instance

instance coding_emitArith (op : Opcode) (e₁ e₂ : Exp) (operand : Nat) (flip : Bool) (line : Nat)
    (fallback : Opcode)
    (event : Event) (meant : List Value) : Coding keeps semantic
    (emitArith op e₁ e₂ operand flip line fallback event meant) := by
  unfold emitArith
  infer_instance

instance coding_emitArithRegisters (op : ArithOp) (e₁ e₂ : Exp) (line : Nat) :
    Coding keeps semantic (emitArithRegisters op e₁ e₂ line) := by
  unfold emitArithRegisters
  infer_instance

instance coding_emitArithInteger (op : Opcode) (e₁ e₂ : Exp) (n : Int64) (flip : Bool) (line : Nat)
    (event : Event) :
    Coding keeps semantic (emitArithInteger op e₁ e₂ n flip line event) := coding_emitArith ..

instance coding_emitArithNegated? (op : Opcode) (e₁ e₂ : Exp) (line : Nat) (event : Event) :
    Coding keeps semantic (emitArithNegated? op e₁ e₂ line event) := by
  unfold emitArithNegated?
  split <;> infer_instance

instance coding_emitArithConstant (op : ArithOp) (e₁ e₂ : Exp) (useConstant flip : Bool)
    (line : Nat) :
    Coding keeps semantic (emitArithConstant op e₁ e₂ useConstant flip line) := by
  unfold emitArithConstant
  dsimp only
  split <;> refine .seq inferInstance fun constant? => ?_
  all_goals cases constant? <;> cases arithConstantOpcode? op <;> infer_instance

instance coding_emitCommutative (op : ArithOp) (e₁ e₂ : Exp) (line : Nat) :
    Coding keeps semantic (emitCommutative op e₁ e₂ line) := by
  unfold emitCommutative
  dsimp only
  split <;> infer_instance

instance coding_emitBitwise (op : ArithOp) (e₁ e₂ : Exp) (line : Nat) :
    Coding keeps semantic (emitBitwise op e₁ e₂ line) := coding_emitArithConstant ..

instance coding_emitConcat (r₁ r₂ line : Nat) : Coding keeps semantic (emitConcat r₁ r₂ line) := by
  unfold emitConcat
  dsimp only
  refine .seq inferInstance fun prev? => ?_
  cases prev? <;> infer_instance

instance coding_emitOrder (orEqual : Bool) (e₁ e₂ : Exp) :
    Coding keeps semantic (emitOrder orEqual e₁ e₂) := by
  unfold emitOrder
  dsimp only
  split <;> infer_instance

instance coding_emitEqual (equal : Bool) (e₁ e₂ : Exp) :
    Coding keeps semantic (emitEqual equal e₁ e₂) := by
  unfold emitEqual
  dsimp only
  split <;> refine .seq inferInstance fun r => ?_
  all_goals
    split
    · infer_instance
    · exact .seq inferInstance fun o => by cases o <;> infer_instance

instance coding_prepareLeft (op : BinaryOp) (e : Exp) :
    Coding keeps semantic (prepareLeft op e) := by
  unfold prepareLeft
  refine .seq inferInstance fun e => ?_
  split <;> infer_instance

instance coding_emitShiftLeft (e₁ e₂ : Exp) (line : Nat) :
    Coding keeps semantic (emitShiftLeft e₁ e₂ line) := by
  unfold emitShiftLeft
  split
  · infer_instance
  · exact .seq inferInstance fun e? => by cases e? <;> infer_instance

instance coding_emitArithmetic (op : ArithOp) (e₁ e₂ : Exp) (line : Nat) :
    Coding keeps semantic (emitArithmetic op e₁ e₂ line) := by
  unfold emitArithmetic
  split
  case h_3 => exact .seq inferInstance fun e? => by cases e? <;> infer_instance
  case h_8 => split <;> infer_instance
  all_goals infer_instance

instance coding_applyBinary (op : BinaryOp) (e₁ e₂ : Exp) (line : Nat) :
    Coding keeps semantic (applyBinary op e₁ e₂ line) := by
  unfold applyBinary
  refine .seq inferInstance fun e₂ => ?_
  split
  · split <;> infer_instance
  case h_4 => exact .seq inferInstance fun r₂ => by cases e₁.register? <;> infer_instance
  all_goals infer_instance

end Compile

end LuaChunk
