import LuaChunk.Proofs.Parallel.Expression
import LuaChunk.Compile.Statement

set_option autoImplicit false

namespace LuaChunk.Compile

open LuaChunk

variable {ρ : Renaming} {α β : Type} {L : Like β} (r : Nested) [NestedFollows r]

instance follows_block : Follows ρ .same (block r) (block r) := by
  unfold block
  infer_instance

instance follows_condition : Follows ρ .same (condition r) (condition r) := by
  unfold condition
  infer_instance

instance follows_testThenBlock (escape : Option Nat) : Follows ρ .same (testThenBlock r escape)
    (testThenBlock r escape) := by
  unfold testThenBlock
  exact .seq inferInstance fun _ => .seq inferInstance fun _ => .seq inferInstance fun _ =>
    inferInstance

instance follows_ifStatement (line line' : Nat) : Follows ρ .same (ifStatement r line)
    (ifStatement r line') := by
  unfold ifStatement
  infer_instance

instance follows_whileStatement (line line' : Nat) : Follows ρ .same (whileStatement r line)
    (whileStatement r line') := by
  unfold whileStatement
  exact .seq inferInstance fun _ => .seq inferInstance fun _ => .seq inferInstance fun _ =>
    .seq inferInstance fun _ => inferInstance

instance follows_repeatStatement (line line' : Nat) : Follows ρ .same (repeatStatement r line)
    (repeatStatement r line') := by
  unfold repeatStatement
  refine .seq inferInstance fun _ => .seq inferInstance fun _ => .seq inferInstance fun _ =>
    .seq inferInstance fun _ => .seq inferInstance fun _ => .seq inferInstance fun _ =>
    .seq inferInstance fun _ => .seq inferInstance fun scope => ?_
  dsimp only
  split
  · exact .seq inferInstance fun _ => .seq inferInstance fun _ => .seq inferInstance fun _ =>
      inferInstance
  · infer_instance

instance follows_expressionToRegister : Follows ρ .same (expressionToRegister r)
    (expressionToRegister r) := by
  unfold expressionToRegister
  infer_instance

instance follows_fixLoop (pc distance : Nat) : Follows ρ .same (fixLoop pc distance)
    (fixLoop pc distance) := by
  unfold fixLoop
  infer_instance

instance follows_loopBody (base line line' numVars : Nat) (code : LoopCode) :
    Follows ρ .same (loopBody r base line numVars code) (loopBody r base line' numVars code) := by
  unfold loopBody
  exact .seq inferInstance fun _ => .seq inferInstance fun _ => .seq inferInstance fun _ =>
    .seq inferInstance fun _ => .seq inferInstance fun _ => .seq inferInstance fun _ =>
    .seq inferInstance fun _ => inferInstance

theorem follows_loopState : Follows ρ .same (declareHidden loopStateName)
    (declareHidden loopStateName) :=
  follows_declareHidden (.inr rfl)

theorem follows_numericFor {p p' : Bytes × Nat} (h : Like.declared.rel ρ p p') (line line' : Nat) :
    Follows ρ .same (numericFor r p.1 p.2 line) (numericFor r p'.1 p'.2 line') := by
  have hstate := @follows_loopState
  have hdeclare := follows_declareTaken h .const (fun _ => rfl) true
  unfold numericFor
  exact .seq inferInstance fun _ => .seq inferInstance fun _ => .seq inferInstance fun _ =>
    .seq inferInstance fun _ => .seq inferInstance fun _ => .seq inferInstance fun _ =>
    .seq inferInstance fun _ => .seq inferInstance fun _ => .seq inferInstance fun _ =>
    inferInstance

instance follows_adjustFree (n : Nat) :
    Follows ρ .same (modifyFn fun f => { f with freeReg := f.freeReg - n })
    (modifyFn fun f => { f with freeReg := f.freeReg - n }) :=
  .modifyFn (v := fun f => { f with freeReg := f.freeReg - n }) (fun _ => rfl) (fun _ => rfl)
    fun _ => rfl

instance follows_adjustValues (count : Nat) (list : Nat × Exp) :
    Follows ρ .same (adjustValues count list) (adjustValues count list) := by
  unfold adjustValues
  dsimp only
  infer_instance

instance follows_loopName (n : Nat) : Follows ρ .same
    (do
      let (name, number) ← takeDeclared
      discard (declare (some name) .regular (some number))
      return Turn.again (n + 1) : M (Turn Nat Nat))
    (do
      let (name, number) ← takeDeclared
      discard (declare (some name) .regular (some number))
      return Turn.again (n + 1)) :=
  .bind follows_takeDeclared fun ρ p p' h => by
    have hdeclare := follows_declareTaken h .regular fun _ => rfl
    infer_instance

theorem follows_genericFor {p p' : Bytes × Nat} (h : Like.declared.rel ρ p p') :
    Follows ρ .same (genericFor r p.1 p.2) (genericFor r p'.1 p'.2) := by
  have hstate := @follows_loopState
  have hdeclare := follows_declareTaken h .const (fun _ => rfl) true
  unfold genericFor
  exact .seq inferInstance fun _ => .seq inferInstance fun _ => .seq inferInstance fun _ =>
    .seq inferInstance fun _ => .seq inferInstance fun _ => .seq inferInstance fun _ =>
    .seq inferInstance fun _ => .seq inferInstance fun _ => inferInstance

instance follows_forStatement (line line' : Nat) : Follows ρ .same (forStatement r line)
    (forStatement r line') := by
  unfold forStatement
  refine .seq inferInstance fun _ => .seq inferInstance fun _ =>
    .bind follows_takeDeclared fun ρ p p' h => ?_
  have hnumeric := follows_numericFor r h line line'
  have hgeneric := follows_genericFor r h
  infer_instance

instance follows_modifyScopes (pc : Nat)
    (change : List (Nat × Option Bytes) → List (Nat × Option Bytes)) :
    Follows ρ .same (modifyFn fun f => { f with scopes := f.scopes.modify pc change })
      (modifyFn fun f => { f with scopes := f.scopes.modify pc change }) :=
  .modifyFn (v := id) (fun _ => rfl) (fun _ => rfl) fun _ => rfl

instance follows_functionName : Follows ρ .same functionName functionName := by
  unfold functionName
  infer_instance

instance follows_functionStatement (line line' : Nat) :
    Follows ρ .same (functionStatement r line) (functionStatement r line') := by
  unfold functionStatement
  refine .seq inferInstance fun _ => .seq inferInstance fun (target, isMethod) => ?_
  infer_instance

instance follows_localFunction : Follows ρ .same (localFunction r) (localFunction r) := by
  unfold localFunction
  refine .seq inferInstance fun place => .bind follows_takeDeclared fun ρ p p' h => ?_
  have hdeclare := follows_declareTaken h .regular fun _ => rfl
  refine .seq inferInstance fun _ => .seq inferInstance fun _ =>
    .seqAny inferInstance fun line line' => ?_
  refine .seq inferInstance fun _ => .bind (follows_ownVariable place) fun ρ v v' h => ?_
  rw [h.debug]
  infer_instance

instance follows_optionalAttribute (fallback : VarKind) :
    Follows ρ .same (optionalAttribute fallback) (optionalAttribute fallback) := by
  unfold optionalAttribute
  infer_instance

instance follows_globalAttribute (fallback : VarKind) :
    Follows ρ .same (globalAttribute fallback) (globalAttribute fallback) := by
  unfold globalAttribute
  refine .seq inferInstance fun k => ?_
  split <;> infer_instance

def Renaming.Allows (kind : VarKind) (ρ : Renaming) : Prop := ρ.declaration.isSome →
  kind.isGlobal = false

def Like.localKind : Like VarKind := ⟨fun ρ k k' => k' = k ∧ ρ.Allows k, fun _ => ⟨rfl, nofun⟩⟩

theorem follows_localAttribute {fallback : VarKind} (h : ρ.Allows fallback) :
    Follows ρ .localKind (optionalAttribute fallback) (optionalAttribute fallback) := by
  unfold optionalAttribute
  refine .bindIf (Renaming.Allows fallback) nofun h (follows_testNext _) fun ρ taken taken' hρ ht =>
    ?_
  cases ht
  split
  · exact .pure ⟨rfl, hρ⟩
  · refine .seq inferInstance fun name => .seq inferInstance fun _ => ?_
    split
    · exact .pure ⟨rfl, fun _ => rfl⟩
    · split
      · exact .pure ⟨rfl, fun _ => rfl⟩
      · exact .semanticError _ _

instance follows_checkToClose (place : Option Nat) : Follows ρ .same (checkToClose place)
    (checkToClose place) := by
  unfold checkToClose
  cases place <;> infer_instance

instance follows_knownValue? (e : Exp) : Follows ρ .same (knownValue? e) (knownValue? e) := by
  have hvalue : ∀ (ρ : Renaming) (i : Nat),
      Follows ρ .same (return some (← variableAt i).value : M (Option Value))
      (return some (← variableAt i).value) := fun ρ i =>
    .bind (follows_variableAt i) fun ρ v v' h => by
      rw [h.value]
      infer_instance
  unfold knownValue?
  split
  · infer_instance
  · split <;> infer_instance

def declareLocal (n : Nat) (toClose : Option Nat) (p : Bytes × Nat) (kind : VarKind) :
    M (Turn (Nat × Option Nat) (Nat × Nat × Option Nat)) := do
  let place ← declare (some p.1) kind (some p.2)
  let toClose ←
    if kind = .toClose then
      if toClose.isSome then
        semanticError (utf8 "multiple to-be-closed variables in local list")
      else pure (some ((← ofFn (·.active)) + n))
    else pure toClose
  if ← testNext (.char ',') then return .again (n + 1, toClose)
  else return .done (n + 1, place, toClose)

theorem localNames_eq (fallback : VarKind) :
    localNames fallback = repeatTurn (fun (n, toClose) => do
    let p ← takeDeclared
    let kind ← optionalAttribute fallback
    declareLocal n toClose p kind) ((0 : Nat), (none : Option Nat)) := rfl

theorem follows_declareLocal (n : Nat) (toClose : Option Nat) {p p' : Bytes × Nat} {kind : VarKind}
    (hp : Like.declared.rel ρ p p') (hk : ρ.Allows kind) :
    Follows ρ .same (declareLocal n toClose p kind) (declareLocal n toClose p' kind) := by
  have hdeclare := follows_declareTaken hp kind hk
  unfold declareLocal
  infer_instance

theorem follows_localNames {fallback : VarKind} (h : ρ.Allows fallback) :
    Follows ρ .same (localNames fallback) (localNames fallback) := by
  have hev : ∀ n toClose p kind, Evolving (declareLocal n toClose p kind) := fun n toClose p kind =>
    (follows_declareLocal (ρ := .none) n toClose (Like.declared.refl p) nofun).evolving
  rw [localNames_eq]
  refine .turns (fun (n, toClose) => ?_) _
  refine .bindIf (Renaming.Allows fallback) nofun h follows_takeDeclared fun ρ p p' hρ hp => ?_
  refine .bind_of (follows_localAttribute hρ) (hev n toClose p) (hev n toClose p') fun k k' hk => ?_
  rw [hk.1]
  exact follows_declareLocal n toClose hp hk.2

instance follows_firstVar : Follows ρ .same (ofFn (·.firstVar)) (ofFn (·.firstVar)) :=
  .ofFn fun _ => rfl

instance follows_setKnown (i : Nat) (value : Value) : Follows ρ .same
    (modifyVariable i fun v => { v with kind := .compileTime, value })
    (modifyVariable i fun v => { v with kind := .compileTime, value }) :=
  follows_modifyVariable i fun _ _ _ h =>
    { h with kind := rfl, value := rfl, isLocal := fun _ => rfl }

instance follows_noteKnown (value : Value) : Follows ρ .same (noteKnown value)
    (noteKnown value) := by
  unfold noteKnown
  split <;> infer_instance

def activateLocals (n last : Nat) (toClose : Option Nat) (values : Nat × Exp)
    (known : Option Value) : M Unit := do
  match known with
  | some value =>
    noteKnown value
    modifyVariable ((← ofFn (·.firstVar)) + last) fun v => { v with kind := .compileTime, value }
    activate (n - 1)
    activateUnplaced 1
  | none =>
    adjustValues n values
    activate n
  checkToClose toClose

def initLocals (n last : Nat) (toClose : Option Nat) (values : Nat × Exp) : M Unit := do
  let v ← ownVariable last
  let known ← if n = values.1 && v.kind = .const then knownValue? values.2 else pure none
  activateLocals n last toClose values known

omit [NestedFollows r] in
theorem localStatement_eq : localStatement r = (do
    let fallback ← optionalAttribute .regular
    let (n, last, toClose) ← localNames fallback
    let values ← if ← testNext (.char '=') then expressionList r else pure (0, Exp.void)
    initLocals n last toClose values) := rfl

instance follows_activateLocals (n last : Nat) (toClose : Option Nat) (values : Nat × Exp)
    (known : Option Value) :
    Follows ρ .same (activateLocals n last toClose values known)
      (activateLocals n last toClose values known) := by
  unfold activateLocals
  cases known <;> infer_instance

instance follows_initLocals (n last : Nat) (toClose : Option Nat) (values : Nat × Exp) :
    Follows ρ .same (initLocals n last toClose values) (initLocals n last toClose values) := by
  unfold initLocals
  refine .bind (follows_ownVariable last) fun ρ v v' h => ?_
  have hkind : v'.kind = v.kind := h.kind
  rw [hkind]
  infer_instance

instance follows_localStatement : Follows ρ .same (localStatement r) (localStatement r) := by
  rw [localStatement_eq]
  refine .bind (follows_localAttribute fun _ => rfl) fun ρ k k' hk => ?_
  rw [hk.1]
  refine .seq (follows_localNames hk.2) fun (n, last, toClose) => ?_
  infer_instance

instance follows_checkUndefined (name : Bytes) (line line' : Nat) :
    Follows ρ .same (checkUndefined name line) (checkUndefined name line') := by
  unfold checkUndefined
  refine .seq inferInstance fun e => ?_
  dsimp only
  split <;> infer_instance

instance follows_storeTop (target : Exp) : Follows ρ .same (storeTop target) (storeTop target) := by
  unfold storeTop
  infer_instance

instance follows_initGlobals (count line line' : Nat) (names : List Bytes) :
    Follows ρ .same (initGlobals r count line names) (initGlobals r count line' names) := by
  unfold initGlobals
  cases names <;> infer_instance

theorem follows_declareGlobal {name name' : Bytes} (h : Like.kept.rel ρ name name')
    (kind : VarKind) :
    Follows ρ .same (declare (some name) kind) (declare (some name') kind) := by
  rw [h.1]
  exact follows_declareKept _ kind fun hd he => h.2 hd (Option.some.inj he)

instance follows_globalNames (fallback : VarKind) : Follows ρ .same (globalNames r fallback)
    (globalNames r fallback) := by
  unfold globalNames
  refine .seq (.turns (fun names => ?_) _) fun names => by infer_instance
  refine .bind follows_takeName fun ρ name name' h => ?_
  obtain rfl : name' = name := h.1
  refine .bindIf (fun ρ => Like.kept.rel ρ name' name') (Like.kept.refl _) h (K := .same)
    inferInstance
    fun ρ kind kind' h hk => ?_
  cases hk
  have hdeclare := follows_declareGlobal h kind
  infer_instance

instance follows_globalStatement : Follows ρ .same (globalStatement r) (globalStatement r) := by
  have hall := fun ρ kind => follows_declareKept (ρ := ρ) none kind nofun
  unfold globalStatement
  infer_instance

instance follows_globalFunction (line line' : Nat) :
    Follows ρ .same (globalFunction r line) (globalFunction r line') := by
  unfold globalFunction
  refine .bind follows_takeName fun ρ name name' h => ?_
  have hdeclare := follows_declareGlobal h .global
  rw [h.1] at hdeclare ⊢
  exact .seq inferInstance fun _ => inferInstance

instance follows_labelStatement (name : Bytes) (line line' : Nat) :
    Follows ρ .same (labelStatement r name line) (labelStatement r name line') := by
  unfold labelStatement
  refine .seq inferInstance fun _ => .seq inferInstance fun _ => ?_
  refine .get (fun s => findLabel? s.labels s.fn.firstLabel name) (K := .isSome)
    (fun ρ s s' h => ?_) fun ρ s s' h => ?_
  · have hfirst : s'.fn.firstLabel = s.fn.firstLabel := h.same (·.firstLabel) fun _ => rfl
    have hfound := congrArg Option.isSome (h.findLabel? s.fn.firstLabel name)
    rw [Option.isSome_map, Option.isSome_map] at hfound
    rw [hfirst]
    exact hfound
  · replace h : (findLabel? s'.labels s'.fn.firstLabel name).isSome =
      (findLabel? s.labels s.fn.firstLabel name).isSome := h
    cases hf : findLabel? s.labels s.fn.firstLabel name <;>
      cases hf' : findLabel? s'.labels s'.fn.firstLabel name <;> rw [hf, hf'] at h
    case some.some => exact .semanticError _ _
    case none.none => infer_instance
    all_goals cases h

instance follows_breakStatement (line line' : Nat) : Follows ρ .same (breakStatement line)
    (breakStatement line') := by
  unfold breakStatement
  infer_instance

instance follows_returnStatement : Follows ρ .same (returnStatement r) (returnStatement r) := by
  unfold returnStatement
  refine .seq inferInstance fun first => .seq inferInstance fun ends => .seq inferInstance fun k =>
    ?_
  dsimp only
  split
  · infer_instance
  · refine .seq inferInstance fun (n, e) => ?_
    dsimp only
    split
    · refine .seq inferInstance fun _ => ?_
      split <;> infer_instance
    · infer_instance

instance follows_copyConflicts (v : Exp) (earlier : List Exp) :
    Follows ρ .same (copyConflicts v earlier) (copyConflicts v earlier) := by
  unfold copyConflicts
  refine .seq inferInstance fun copy => ?_
  dsimp only
  split
  · split <;> infer_instance
  · infer_instance

instance follows_assignRest (target : Exp) (earlier : List Exp) :
    Follows ρ .same (assignRest r target earlier) (assignRest r target earlier) := by
  unfold assignRest
  have hlater : ∀ (ρ : Renaming) (later : Exp) (targets : List Exp), Follows ρ .same
      (do
        match ← r.assign later targets with
        | target :: earlier =>
          storeTop target
          return earlier
        | [] => broken .indexInRange)
      (do
        match ← r.assign later targets with
        | target :: earlier =>
          storeTop target
          return earlier
        | [] => broken .indexInRange) :=
    fun ρ later targets => .seq inferInstance fun targets => by cases targets <;> infer_instance
  dsimp only
  refine .optional inferInstance (.seq inferInstance fun _ => .seq inferInstance fun _ =>
    .seq inferInstance fun another => ?_)
  split
  · exact .seq inferInstance fun _ => inferInstance
  · exact .seq inferInstance fun _ => .seq inferInstance fun _ => inferInstance

instance follows_expressionStatement : Follows ρ .same (expressionStatement r)
    (expressionStatement r) := by
  unfold expressionStatement
  refine .seq inferInstance fun e => .seq inferInstance fun k => ?_
  split
  · infer_instance
  · split <;> infer_instance

instance follows_statementBody (line line' : Nat) : Follows ρ .same (statementBody r line)
    (statementBody r line') := by
  unfold statementBody
  refine .seq inferInstance fun k => ?_
  split <;> infer_instance

instance follows_statement : Follows ρ .same (statement r) (statement r) := by
  unfold statement
  refine .seqAny inferInstance fun line line' => .seq inferInstance fun _ => ?_
  refine .get (fun s => (s.fn.maxStack, s.fn.freeReg)) (K := .same) (fun ρ s s' h => ?_)
    fun ρ s s' h => ?_
  · exact Prod.ext (h.same (·.maxStack) fun _ => rfl) (h.same (·.freeReg) fun _ => rfl)
  · obtain ⟨hmax, hfree⟩ := Prod.mk.inj
      (show (s'.fn.maxStack, s'.fn.freeReg) = (s.fn.maxStack, s.fn.freeReg) from h)
    dsimp only
    rw [hmax, hfree]
    infer_instance

end LuaChunk.Compile
