import LuaChunk.Proofs.Parallel.Scope
import LuaChunk.Compile.Expression

set_option autoImplicit false

namespace LuaChunk.Compile

open LuaChunk

variable {ρ : Renaming} {α β : Type} {L : Like β}

/-- The parsers of a deeper level do the same in both runs. -/
class NestedFollows (r : Nested) : Prop where
  subExpr : ∀ (ρ : Renaming) (limit : Nat), Follows ρ .same (r.subExpr limit) (r.subExpr limit)
  statement : ∀ ρ : Renaming, Follows ρ .same r.statement r.statement
  assign : ∀ (ρ : Renaming) (target : Exp) (earlier : List Exp),
    Follows ρ .same (r.assign target earlier) (r.assign target earlier)
  initGlobals : ∀ (ρ : Renaming) (count line line' : Nat) (names : List Bytes),
    Follows ρ .same (r.initGlobals count line names) (r.initGlobals count line' names)

attribute [instance] NestedFollows.subExpr NestedFollows.statement NestedFollows.assign
  NestedFollows.initGlobals

instance follows_testNext (k : TokenKind) : Follows ρ .same (testNext k) (testNext k) := by
  unfold testNext
  infer_instance

instance follows_check (k : TokenKind) : Follows ρ .same (check k) (check k) := by
  unfold check
  infer_instance

instance follows_checkNext (k : TokenKind) : Follows ρ .same (checkNext k) (checkNext k) := by
  unfold checkNext
  infer_instance

/-- A token that is missing is an error of one kind, whether or not it is expected on the same
line. -/
instance follows_checkMatch (what who : TokenKind) (line line' : Nat) :
    Follows ρ .same (checkMatch what who line) (checkMatch what who line') := by
  unfold checkMatch
  refine .seq inferInstance fun taken => ?_
  split
  · exact .seqAny inferInstance fun l l' => by split <;> split <;> exact .syntaxError _ _
  · infer_instance

instance follows_blockEnds (withUntil : Bool) : Follows ρ .same (blockEnds withUntil)
    (blockEnds withUntil) := by
  unfold blockEnds
  refine .seq inferInstance fun k => ?_
  split <;> infer_instance

variable (r : Nested) [NestedFollows r]

instance follows_statements : Follows ρ .same (statements r) (statements r) := by
  unfold statements
  infer_instance

instance follows_expression : Follows ρ .same (expression r) (expression r) := by
  unfold expression
  infer_instance

instance follows_expressionList : Follows ρ .same (expressionList r) (expressionList r) := by
  unfold expressionList
  infer_instance

theorem follows_declareTaken {p p' : Bytes × Nat} (h : Like.declared.rel ρ p p') (kind : VarKind)
    (hk : ρ.declaration.isSome → kind.isGlobal = false) (control : Bool := false) :
    Follows ρ .same (declare (some p.1) kind (some p.2) control)
      (declare (some p'.1) kind (some p'.2) control) := by
  rw [h.1]
  exact follows_declare h.2 fun hi => hk hi.some

instance follows_setParams (n : Nat) : Follows ρ .same (modifyFn fun f => { f with numParams := n })
    (modifyFn fun f => { f with numParams := n }) :=
  .modifyFn (v := fun f => { f with numParams := n }) (fun _ => rfl) (fun _ => rfl) fun _ => rfl

instance follows_parameters : Follows ρ .same parameters parameters := by
  have hturn : ∀ (ρ : Renaming) (n : Nat), Follows ρ .same
      (show M (Turn Nat (Nat × Bool)) from do
        match ← currentToken with
        | .name _ =>
          let (name, number) ← takeDeclared
          discard (declare (some name) .regular (some number))
          return if ← testNext (.char ',') then .again (n + 1) else .done (n + 1, false)
        | .symbol .dots =>
          next
          return .done (n, true)
        | _ => syntaxError (utf8 "<name> or '...' expected"))
      (do
        match ← currentToken with
        | .name _ =>
          let (name, number) ← takeDeclared
          discard (declare (some name) .regular (some number))
          return if ← testNext (.char ',') then .again (n + 1) else .done (n + 1, false)
        | .symbol .dots =>
          next
          return .done (n, true)
        | _ => syntaxError (utf8 "<name> or '...' expected")) := by
    intro ρ n
    refine follows_token (fun t => by cases t <;> rfl) (fun t => by cases t <;> rfl) fun ρ t => ?_
    split
    · refine .bind follows_takeDeclared fun ρ p p' h => ?_
      have := follows_declareTaken h .regular fun _ => rfl
      infer_instance
    all_goals infer_instance
  unfold parameters
  dsimp only
  repeat' first
    | infer_instance
    | refine .seq inferInstance fun _ => ?_

instance follows_setLastLine (line line' : Nat) :
    Follows ρ .same (modifyFn fun f => { f with lastLineDefined := line })
    (modifyFn fun f => { f with lastLineDefined := line' }) :=
  .modifyFn (v := id) (fun _ => rfl) (fun _ => rfl) fun _ => rfl

instance follows_functionBody (isMethod : Bool) (line line' : Nat) :
    Follows ρ .same (functionBody r isMethod line) (functionBody r isMethod line') := by
  have hself := fun ρ => follows_declareHidden (ρ := ρ) (.inl rfl)
  unfold functionBody
  dsimp only
  repeat' first
    | infer_instance
    | refine .seq inferInstance fun _ => ?_
    | refine .seqAny inferInstance fun _ _ => ?_
    | split

instance follows_emitSetList (table stored : Nat) (count : Option Nat) :
    Follows ρ .same (emitSetList table stored count) (emitSetList table stored count) := by
  unfold emitSetList
  dsimp only
  split <;> infer_instance

instance follows_setTableSize (pc table list records : Nat) :
    Follows ρ .same (setTableSize pc table list records) (setTableSize pc table list records) := by
  unfold setTableSize
  infer_instance

instance follows_checkItems (n : Nat) : Follows ρ .same (checkItems n) (checkItems n) := by
  unfold checkItems
  refine .get (·.maxItems) (K := .same) (fun _ _ _ h => h.items) fun ρ s s' h => ?_
  rw [show s'.maxItems = s.maxItems from h]
  infer_instance

instance follows_closeItem (c : Constructor) (limit : Nat) : Follows ρ .same (closeItem c limit)
    (closeItem c limit) := by
  unfold closeItem
  infer_instance

instance follows_closeItems (c : Constructor) : Follows ρ .same (closeItems c) (closeItems c) := by
  unfold closeItems
  infer_instance

instance follows_listItem (c : Constructor) : Follows ρ .same (listItem r c) (listItem r c) := by
  unfold listItem
  infer_instance

instance follows_bracketed : Follows ρ .same (bracketed r) (bracketed r) := by
  unfold bracketed
  infer_instance

instance follows_recordItem (c : Constructor) : Follows ρ .same (recordItem r c)
    (recordItem r c) := by
  unfold recordItem
  refine .seq inferInstance fun top =>
    follows_token (fun t => by cases t <;> rfl) (fun t => by cases t <;> rfl) fun ρ t => ?_
  dsimp only
  split
  all_goals
    repeat' first
      | infer_instance
      | refine .seq inferInstance fun _ => ?_

instance follows_constructorItem (c : Constructor) : Follows ρ .same (constructorItem r c)
    (constructorItem r c) := by
  unfold constructorItem
  refine .seq inferInstance fun k => ?_
  split <;> infer_instance

instance follows_constructor : Follows ρ .same (constructor r) (constructor r) := by
  unfold constructor
  repeat' first
    | infer_instance
    | refine .seq (.turns (fun _ => inferInstance) _) fun _ => ?_
    | refine .seq inferInstance fun _ => ?_
    | refine .seqAny inferInstance fun _ _ => ?_

instance follows_fieldOf (e : Exp) : Follows ρ .same (fieldOf e) (fieldOf e) := by
  unfold fieldOf
  infer_instance

instance follows_callArguments (base line line' : Nat) :
    Follows ρ .same (callArguments r base line) (callArguments r base line') := by
  unfold callArguments
  refine follows_token (fun t => by cases t <;> rfl) (fun t => by cases t <;> rfl) fun ρ t => ?_
  dsimp only
  repeat' first
    | infer_instance
    | refine .seq inferInstance fun _ => ?_
    | split

instance follows_primary : Follows ρ .same (primary r) (primary r) := by
  unfold primary
  refine follows_token (fun t => by cases t <;> rfl) (fun t => by cases t <;> rfl) fun ρ t => ?_
  split <;> infer_instance

instance follows_suffixed : Follows ρ .same (suffixed r) (suffixed r) := by
  unfold suffixed
  refine .seqAny inferInstance fun line line' => .seq inferInstance fun first =>
    .turns (fun e => ?_) _
  exact .seq inferInstance fun k => inferInstance

instance follows_isVararg : Follows ρ .same (ofFn (·.isVararg)) (ofFn (·.isVararg)) :=
  .ofFn fun _ => rfl

instance follows_simpleExpression : Follows ρ .same (simpleExpression r) (simpleExpression r) := by
  unfold simpleExpression
  refine follows_token (fun t => by cases t <;> rfl) (fun t => by cases t <;> rfl) fun ρ t => ?_
  dsimp only
  split <;> infer_instance

instance follows_unaryExp (op : UnaryOp) (e : Exp) {line line' : Nat} :
    Follows ρ .same (unaryExp op e line) (unaryExp op e line') := by
  unfold unaryExp
  infer_instance

instance follows_binaryExp (op : BinaryOp) (e₁ e₂ : Exp) {line line' : Nat} :
    Follows ρ .same (binaryExp op e₁ e₂ line) (binaryExp op e₁ e₂ line') := by
  unfold binaryExp
  infer_instance

instance follows_subExpression (limit : Nat) : Follows ρ .same (subExpression r limit)
    (subExpression r limit) := by
  have hrest : ∀ (ρ : Renaming) (e : Exp), Follows ρ .same
      (do
        let op := binaryOp? (← currentKind)
        repeatTurn (fun (e, op?) => do
          match op? with
          | none => return .done (e, none)
          | some op =>
            if op.priority.1 ≤ limit then return .done (e, some op)
            let line ← currentLine
            next
            let left ← prepareLeft op e
            let (right, after) ← r.subExpr op.priority.2
            return .again (← binaryExp op left right line, after)) (e, op))
      (do
        let op := binaryOp? (← currentKind)
        repeatTurn (fun (e, op?) => do
          match op? with
          | none => return .done (e, none)
          | some op =>
            if op.priority.1 ≤ limit then return .done (e, some op)
            let line ← currentLine
            next
            let left ← prepareLeft op e
            let (right, after) ← r.subExpr op.priority.2
            return .again (← binaryExp op left right line, after)) (e, op)) := by
    intro ρ e
    refine .seq inferInstance fun k => .turns (fun (e, op?) => ?_) _
    cases op? <;> infer_instance
  unfold subExpression
  refine .seq inferInstance fun k => ?_
  dsimp only
  split <;> infer_instance

end LuaChunk.Compile
