import LuaChunk.Proofs.Action.Scope

set_option autoImplicit false

namespace LuaChunk.Compile

open LuaChunk

/-- The parsers of a deeper level are built in the same way. -/
class NestedActs (deep : outParam Nat) (r : Nested) : Prop where
  subExpr : ∀ limit : Nat, Acts (some deep) (r.subExpr limit)
  statement : Acts (some deep) r.statement
  assign : ∀ (target : Exp) (earlier : List Exp) [Good target] [Good earlier],
    Acts (some deep) (r.assign target earlier)
  initGlobals : ∀ (count line : Nat) (names : List Bytes),
    Acts (some deep) (r.initGlobals count line names)

attribute [instance] NestedActs.subExpr NestedActs.statement NestedActs.assign
  NestedActs.initGlobals

section

variable {levels : Option Nat} {α : Type} [Regularity α]

instance (k : TokenKind) : Acts levels (testNext k) := by
  unfold testNext
  infer_instance

instance (k : TokenKind) : Acts levels (errorExpected k : M α) :=
  inferInstanceAs (Acts levels (syntaxError _))

instance (k : TokenKind) : Acts levels (check k) := by
  unfold check
  infer_instance

instance (k : TokenKind) : Acts levels (checkNext k) := by
  unfold checkNext
  infer_instance

instance (what who : TokenKind) (line : Nat) : Acts levels (checkMatch what who line) := by
  unfold checkMatch
  infer_instance

instance : Acts levels takeName := by
  unfold takeName
  refine .seq inferInstance fun t _ => ?_
  split <;> infer_instance

instance : Acts levels takeDeclared := by
  unfold takeDeclared
  refine .get fun s _ => .seq inferInstance fun t _ => ?_
  split <;> infer_instance

instance (name : Bytes) : Acts levels (readVariable name) := by
  unfold readVariable
  infer_instance

instance : Acts levels takeVariable := by
  unfold takeVariable
  refine .seq inferInstance fun t _ => ?_
  split
  · exact .get fun _ _ => inferInstance
  · infer_instance

instance (withUntil : Bool) : Acts levels (blockEnds withUntil) := by
  unfold blockEnds
  refine .seq inferInstance fun k _ => ?_
  split <;> infer_instance

end

variable {deep : Nat} (r : Nested) [NestedActs deep r]

instance : Acts (some deep) (statements r) := by
  unfold statements
  refine .turns inferInstance fun _ _ => .seq inferInstance fun _ _ => ?_
  split <;> infer_instance

instance : Acts (some deep) (expression r) := by
  unfold expression
  infer_instance

instance : Acts (some deep) (expressionList r) := by
  unfold expressionList
  refine .seq inferInstance fun first _ => .turns inferInstance fun list _ => ?_
  refine .seq inferInstance fun _ _ => ?_
  split <;> infer_instance

instance : Acts (some deep) parameters := by
  have hturn (n : Nat) : Acts (some deep) (show M (Turn Nat (Nat × Bool)) from do
      match ← currentToken with
      | .name _ =>
        let (name, number) ← takeDeclared
        discard (declare (some name) .regular (some number))
        return if ← testNext (.char ',') then .again (n + 1) else .done (n + 1, false)
      | .symbol .dots =>
        next
        return .done (n, true)
      | _ => syntaxError (utf8 "<name> or '...' expected")) := by
    refine .seq inferInstance fun t _ => ?_
    split <;> infer_instance
  have hparams (n : Nat) : Acts (some deep) (modifyFn fun f => { f with numParams := n }) :=
    .modifyFn
  unfold parameters
  dsimp only at hturn ⊢
  refine .seq inferInstance fun k _ => ?_
  split <;> exact .seq inferInstance fun _ _ => .seq inferInstance fun _ _ => inferInstance

/-- The body of a nested function once it is started, up to its last instruction. -/
def nestedBody (isMethod : Bool) (line : Nat) : M Exp := do
  enterBlock .none
  checkNext (.char '(')
  if isMethod then
    declareHidden "self"
    activate 1
  parameters
  checkNext (.char ')')
  statements r
  let last ← currentLine
  modifyFn fun f => { f with lastLineDefined := last }
  checkMatch (.word .end_) (.word .function_) line
  let e ← emitClosure
  closeFunction
  return e

omit [NestedActs deep r] in
theorem functionBody_eq (isMethod : Bool) (line : Nat) : functionBody r isMethod line = do
    let n ← ofFn (·.nested.size)
    if Instruction.maxBx ≤ n then limitError Instruction.maxBx "functions"
    nest line
    let e ← nestedBody r isMethod line
    attach
    return e := by
  have hstart (rest : Unit → M Exp) : (do
      let s ← MonadState.get
      stored (.nested · s.nextId)
      modify fun t => { t with
        nextId := s.nextId + 1, fn := .start s.nextId line t.vars.size t.labels.size,
        outer := t.fn :: t.outer }
      let s ← MonadState.get
      stored (.source · s.lexer.source)
      enterBlock .none >>= rest : M Exp) = (do
      nest line
      enterBlock .none >>= rest) := rfl
  unfold functionBody startNested openFunction nestedBody endNested
  refine bind_assoc .. |>.trans (bind_congr fun n => ?_)
  split
  · rfl
  · simp only [bind_assoc]
    rw [hstart]
    cases isMethod <;> simp only [bind_assoc, pure_bind, if_true, Bool.false_eq_true, if_false]

instance (isMethod : Bool) (line : Nat) : Acts (some deep) (nestedBody r isMethod line) := by
  have hlast (last : Nat) : Acts (some deep)
      (modifyFn fun f => { f with lastLineDefined := last }) := .modifyFn
  unfold nestedBody
  dsimp only
  refine .seq inferInstance fun _ _ => .seq inferInstance fun _ _ => ?_
  split
  · exact .seq inferInstance fun _ _ => .seq inferInstance fun _ _ => .seq inferInstance fun _ _ =>
      .seq inferInstance fun _ _ => inferInstance
  · exact .seq inferInstance fun _ _ => .seq inferInstance fun _ _ => inferInstance

instance (isMethod : Bool) (line : Nat) : Acts (some deep) (functionBody r isMethod line) := by
  have hnested : Acts (some deep) (do
      nest line
      let e ← nestedBody r isMethod line
      attach
      return e) := ⟨.nested line Acts.built⟩
  rw [functionBody_eq]
  dsimp only
  infer_instance

section

variable {levels : Option Nat}

instance (table stored : Nat) (count : Option Nat) :
    Acts levels (emitSetList table stored count) := by
  unfold emitSetList
  dsimp only
  infer_instance

instance (pc table list records : Nat) : Acts levels (setTableSize pc table list records) := by
  unfold setTableSize
  dsimp only
  infer_instance

instance (n : Nat) : Acts levels (checkItems n) := by
  unfold checkItems
  exact .get fun _ _ => inferInstance

instance (c : Constructor) [Good c] (limit : Nat) : Acts levels (closeItem c limit) := by
  unfold closeItem
  infer_instance

instance (c : Constructor) [Good c] : Acts levels (closeItems c) := by
  unfold closeItems
  infer_instance

end

variable (c : Constructor) [Good c]

instance : Acts (some deep) (listItem r c) := by
  unfold listItem
  dsimp only
  infer_instance

instance : Acts (some deep) (bracketed r) := by
  unfold bracketed
  infer_instance

instance : Acts (some deep) (recordItem r c) := by
  unfold recordItem
  refine .seq inferInstance fun top _ => .seq inferInstance fun t _ => ?_
  dsimp only
  split <;> exact .seq inferInstance fun _ _ => .seq inferInstance fun _ _ =>
    .seq inferInstance fun _ _ => .seq inferInstance fun _ _ => inferInstance

instance : Acts (some deep) (constructorItem r c) := by
  unfold constructorItem
  refine .seq inferInstance fun k _ => ?_
  split <;> infer_instance

instance : Acts (some deep) (constructor r) := by
  unfold constructor
  refine .seq inferInstance fun _ _ => .seq inferInstance fun _ _ => .seq inferInstance fun _ _ =>
    .seq inferInstance fun _ _ => .seq inferInstance fun _ _ => .seq inferInstance fun _ _ =>
    .seq inferInstance fun free _ => ?_
  dsimp only
  refine .seq (.turns inferInstance fun c _ => .seq inferInstance fun k _ => ?_) fun c _ =>
    inferInstance
  split
  · infer_instance
  · exact .seq inferInstance fun _ _ => .seq inferInstance fun _ _ => inferInstance

instance (e : Exp) [Good e] : Acts (some deep) (fieldOf e) := by
  unfold fieldOf
  infer_instance

instance (base line : Nat) : Acts (some deep) (callArguments r base line) := by
  have hcall (args : Exp) [Good args] : Acts (some deep) (do
      let operand ←
        if args.isMulti then pure 0
        else do
          if !args.isVoid then discard (toNextRegister args)
          pure ((← freeReg) - base)
      let pc ← emitABC .call base operand 2
      fixLine line
      setFreeReg (base + 1)
      noteTarget none
      return (⟨.call pc, none, none⟩ : Exp)) := by
    have hrest (operand : Nat) : Acts (some deep) (do
        let pc ← emitABC .call base operand 2
        fixLine line
        setFreeReg (base + 1)
        noteTarget none
        return (⟨.call pc, none, none⟩ : Exp)) :=
      .seq inferInstance fun _ _ => inferInstance
    dsimp only
    split
    · infer_instance
    · split <;> infer_instance
  unfold callArguments
  dsimp only at hcall ⊢
  refine .seq inferInstance fun t _ => ?_
  split
  · infer_instance
  split
  · refine .seq inferInstance fun _ _ => .seq inferInstance fun k _ => ?_
    split
    · exact .seq inferInstance fun _ _ => .seq inferInstance fun _ _ => inferInstance
    · refine .seq inferInstance fun list _ => ?_
      split
      · exact .seq inferInstance fun _ _ => .seq inferInstance fun _ _ =>
          .seq inferInstance fun _ _ => inferInstance
      · exact .seq inferInstance fun _ _ => .seq inferInstance fun _ _ => inferInstance
  · infer_instance

instance : Acts (some deep) (primary r) := by
  unfold primary
  refine .seq inferInstance fun t _ => ?_
  split <;> infer_instance

instance : Acts (some deep) (suffixed r) := by
  unfold suffixed
  refine .seq inferInstance fun _ _ => .seq inferInstance fun _ _ =>
    .turns inferInstance fun e _ => .seq inferInstance fun k _ => ?_
  split
  · infer_instance
  split
  · exact .seq inferInstance fun _ _ => .seq inferInstance fun _ _ => inferInstance
  split
  · exact .seq inferInstance fun _ _ => .seq inferInstance fun _ _ => inferInstance
  · infer_instance

instance : Acts (some deep) (simpleExpression r) := by
  unfold simpleExpression
  refine .seq inferInstance fun t ht => ?_
  dsimp only
  split
  case h_1 x raw =>
    have : Good x := ⟨ht.regular⟩
    infer_instance
  all_goals infer_instance

instance (op : UnaryOp) (e : Exp) [Good e] (line : Nat) : Acts (some deep)
    (unaryExp op e line) := by
  unfold unaryExp
  infer_instance

instance (op : BinaryOp) (e₁ e₂ : Exp) [Good e₁] [Good e₂] (line : Nat) : Acts (some deep)
    (binaryExp op e₁ e₂ line) := by
  unfold binaryExp
  infer_instance

instance (limit : Nat) : Acts (some deep) (subExpression r limit) := by
  have hturn (p : Exp × Option BinaryOp) [Good p] : Acts (some deep) (do
      match p.2 with
      | none => return .done (p.1, none)
      | some op =>
        if op.priority.1 ≤ limit then return .done (p.1, some op)
        let line ← currentLine
        next
        let left ← prepareLeft op p.1
        let (right, after) ← r.subExpr op.priority.2
        return .again (← binaryExp op left right line, after) : M
          (Turn (Exp × Option BinaryOp) (Exp × Option BinaryOp))) := by
    split
    · infer_instance
    split
    · infer_instance
    · exact .seq inferInstance fun _ _ => .seq inferInstance fun _ _ =>
        .seq inferInstance fun _ _ => inferInstance
  unfold subExpression
  refine .seq inferInstance fun k _ => ?_
  dsimp only
  split
  · exact .seq inferInstance fun _ _ => .seq inferInstance fun _ _ => .seq inferInstance fun _ _ =>
      .seq inferInstance fun _ _ => inferInstance
  · infer_instance

end LuaChunk.Compile
