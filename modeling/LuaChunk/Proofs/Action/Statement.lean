import LuaChunk.Proofs.Action.Expression
import LuaChunk.Compile.Chunk

set_option autoImplicit false

namespace LuaChunk.Compile

open LuaChunk

variable {levels : Option Nat} {deep : Nat} (r : Nested) [NestedActs deep r]

instance : Acts (some deep) (block r) := by
  unfold block
  infer_instance

instance : Acts (some deep) (condition r) := by
  have htest (e : Exp) [Good e] : Acts (some deep) (do return (← goIfTrue e).whenFalse) :=
    inferInstance
  unfold condition
  refine .seq inferInstance fun e _ => ?_
  dsimp only
  split <;> infer_instance

instance (escape : Option Nat) : Acts (some deep) (testThenBlock r escape) := by
  unfold testThenBlock
  dsimp only
  exact .seq inferInstance fun _ _ => .seq inferInstance fun _ _ => .seq inferInstance fun _ _ =>
    .seq inferInstance fun _ _ => inferInstance

instance (line : Nat) : Acts (some deep) (ifStatement r line) := by
  unfold ifStatement
  dsimp only
  infer_instance

instance (line : Nat) : Acts (some deep) (whileStatement r line) := by
  unfold whileStatement
  exact .seq inferInstance fun _ _ => .seq inferInstance fun _ _ => .seq inferInstance fun _ _ =>
    .seq inferInstance fun _ _ => .seq inferInstance fun _ _ => inferInstance

instance (line : Nat) : Acts (some deep) (repeatStatement r line) := by
  unfold repeatStatement
  dsimp only
  refine .seq inferInstance fun _ _ => .seq inferInstance fun _ _ => .seq inferInstance fun _ _ =>
    .seq inferInstance fun _ _ => .seq inferInstance fun _ _ => .seq inferInstance fun _ _ =>
    .seq inferInstance fun _ _ => .seq inferInstance fun _ _ => ?_
  split
  · exact .seq inferInstance fun _ _ => .seq inferInstance fun _ _ => .seq inferInstance fun _ _ =>
      inferInstance
  · infer_instance

instance : Acts (some deep) (expressionToRegister r) := by
  unfold expressionToRegister
  infer_instance

instance (pc distance : Nat) : Acts levels (fixLoop pc distance) := by
  unfold fixLoop
  infer_instance

instance (base line numVars : Nat) (code : LoopCode) : Acts (some deep)
    (loopBody r base line numVars code) := by
  unfold loopBody
  dsimp only
  exact .seq inferInstance fun _ _ => .seq inferInstance fun _ _ => .seq inferInstance fun _ _ =>
    .seq inferInstance fun _ _ => .seq inferInstance fun _ _ => .seq inferInstance fun _ _ =>
    .seq inferInstance fun _ _ => inferInstance

instance (name : Bytes) (number line : Nat) : Acts (some deep) (numericFor r name number line) := by
  unfold numericFor
  dsimp only
  exact .seq inferInstance fun _ _ => .seq inferInstance fun _ _ => .seq inferInstance fun _ _ =>
    .seq inferInstance fun _ _ => .seq inferInstance fun _ _ => .seq inferInstance fun _ _ =>
    .seq inferInstance fun _ _ => .seq inferInstance fun _ _ => .seq inferInstance fun _ _ =>
    inferInstance

instance (count : Nat) (list : Nat × Exp) [Good list] : Acts levels (adjustValues count list) := by
  have hfree : Acts levels (modifyFn fun f => { f with freeReg := f.freeReg - (list.1 - count) }) :=
    .modifyFn
  unfold adjustValues
  dsimp only
  infer_instance

instance (name : Bytes) (number : Nat) : Acts (some deep) (genericFor r name number) := by
  unfold genericFor
  dsimp only
  exact .seq inferInstance fun _ _ => .seq inferInstance fun _ _ => .seq inferInstance fun _ _ =>
    .seq inferInstance fun _ _ => .seq inferInstance fun _ _ => .seq inferInstance fun _ _ =>
    .seq inferInstance fun _ _ => .seq inferInstance fun _ _ => inferInstance

instance (line : Nat) : Acts (some deep) (forStatement r line) := by
  unfold forStatement
  dsimp only
  exact .seq inferInstance fun _ _ => .seq inferInstance fun _ _ => .seq inferInstance fun _ _ =>
    inferInstance

instance : Acts (some deep) functionName := by
  unfold functionName
  exact .seq inferInstance fun _ _ => inferInstance

instance (line : Nat) : Acts (some deep) (functionStatement r line) := by
  unfold functionStatement
  exact .seq inferInstance fun _ _ => inferInstance

instance : Acts (some deep) (localFunction r) := by
  have hstart (i pc : Nat) : Acts (some deep) (modifyLocal i fun x => { x with start := pc }) :=
    acts_modifyLocal i
  have hscopes (pc : Nat) : Acts (some deep)
      (modifyFn fun f => { f with scopes := f.scopes.modify (pc - 1) List.dropLast }) := .modifyFn
  unfold localFunction
  exact .seq inferInstance fun _ _ => .seq inferInstance fun _ _ => .seq inferInstance fun _ _ =>
    inferInstance

instance (fallback : VarKind) : Acts levels (optionalAttribute fallback) := by
  unfold optionalAttribute
  infer_instance

instance (fallback : VarKind) : Acts levels (globalAttribute fallback) := by
  unfold globalAttribute
  refine .seq inferInstance fun k _ => ?_
  split <;> infer_instance

instance (place : Option Nat) : Acts levels (checkToClose place) := by
  unfold checkToClose
  split <;> infer_instance

instance (e : Exp) [he : Good e] : Acts levels (knownValue? e) := by
  have hnumeral : Good (e.numeral?.map Value.num) := by
    refine ⟨fun v hv => ?_⟩
    obtain ⟨n, hn, rfl⟩ := Option.map_eq_some_iff.1 hv
    exact Exp.regular_numeral he.regular hn
  unfold knownValue?
  split
  · infer_instance
  · split <;> infer_instance

instance (value : Value) [h : Good value] : Acts levels (noteKnown value) := by
  unfold noteKnown
  split
  · rename_i x
    refine .of_single (.update (g := fun _ => ())
      (h := fun s => { s with floats := s.floats.push ⟨x, .declaration (.num (.float x))⟩ })
        (fun _ _ => trivial)
      (fun s hs => ⟨{ hs with floats := hs.floats.imp_right fun hkept u hu => ?_ },
        .of_core rfl rfl⟩)
      (fun _ _ _ => rfl) fun _ _ _ => rfl)
    rcases Array.mem_push.1 hu with hu | rfl
    · exact hkept u hu
    · exact ⟨h.regular, rfl⟩
  · infer_instance

instance (fallback : VarKind) : Acts levels (localNames fallback) := by
  unfold localNames
  refine .turns inferInstance fun list _ => .seq inferInstance fun _ _ =>
    .seq inferInstance fun _ _ =>
    .seq inferInstance fun _ _ => ?_
  dsimp only
  split
  · split <;> infer_instance
  · infer_instance

instance : Acts (some deep) (localStatement r) := by
  have hvalue (place : Nat) (value : Value) [h : Good value] :
      Acts (some deep) (modifyVariable place fun v => { v with kind := .compileTime, value }) :=
    acts_modifyVariable place fun _ _ => h.regular
  have hrest (n last : Nat) (toClose : Option Nat) (values : Nat × Exp) [Good values]
      (known : Option Value) [hk : Good known] :
      Acts (some deep) (do
        match known with
        | some value =>
          noteKnown value
          modifyVariable ((← ofFn (·.firstVar)) + last) fun v =>
            { v with kind := .compileTime, value }
          activate (n - 1)
          activateUnplaced 1
        | none =>
          adjustValues n values
          activate n
        checkToClose toClose) := by
    cases known with
    | none => infer_instance
    | some value =>
      have : Good value := ⟨hk.regular value rfl⟩
      infer_instance
  unfold localStatement
  dsimp only at hrest ⊢
  exact .seq inferInstance fun _ _ => .seq inferInstance fun _ _ => .seq inferInstance fun _ _ =>
    inferInstance

instance (name : Bytes) (line : Nat) : Acts levels (checkUndefined name line) := by
  unfold checkUndefined
  refine .seq inferInstance fun e he => ?_
  dsimp only
  split
  case h_1 hk =>
    have := GlobalAccess.goodEntry (ExpKind.good_of_indexed (Exp.goodKind he hk))
    infer_instance
  case h_2 hk =>
    have := GlobalAccess.goodEntry (ExpKind.good_of_indexUp (Exp.goodKind he hk)).2
    infer_instance
  case h_3 hk =>
    have := GlobalAccess.goodEntry (ExpKind.good_of_indexStr (Exp.goodKind he hk)).2
    infer_instance
  case h_4 => infer_instance

instance (target : Exp) [Good target] : Acts levels (storeTop target) := by
  unfold storeTop
  infer_instance

instance (count line : Nat) (names : List Bytes) : Acts (some deep)
    (initGlobals r count line names) := by
  cases names <;> unfold initGlobals <;> infer_instance

instance (fallback : VarKind) : Acts (some deep) (globalNames r fallback) := by
  unfold globalNames
  dsimp only
  exact .seq inferInstance fun _ _ => inferInstance

instance : Acts (some deep) (globalStatement r) := by
  unfold globalStatement
  infer_instance

instance (line : Nat) : Acts (some deep) (globalFunction r line) := by
  unfold globalFunction
  exact .seq inferInstance fun _ _ => .seq inferInstance fun _ _ => inferInstance

instance (name : Bytes) (line : Nat) : Acts (some deep) (labelStatement r name line) := by
  unfold labelStatement
  refine .seq inferInstance fun _ _ => .seq inferInstance fun _ _ => .get fun s _ => ?_
  split <;> infer_instance

instance (line : Nat) : Acts (some deep) (breakStatement line) := by
  unfold breakStatement
  infer_instance

instance : Acts (some deep) (returnStatement r) := by
  have hcall (e : Exp) (n first : Nat) : Acts (some deep) (do
      match e.kind with
      | .call pc =>
        if n = 1 && !(← currentBlock).insideToClose then
          setAt pc [(.opcode, Opcode.tailCall.number)]
      | _ => pure ()
      emitReturn first none
      discard (testNext (.char ';'))) := by
    dsimp only
    split <;> infer_instance
  unfold returnStatement
  dsimp only at hcall ⊢
  exact .seq inferInstance fun _ _ => .seq inferInstance fun _ _ => .seq inferInstance fun _ _ =>
    inferInstance

theorem Exp.regular_withCopy {target v : Exp} (h : regular target) (copy : Nat) :
    regular (target.withCopy v copy).1 := by
  unfold withCopy
  split
  · split
    · have hk := ExpKind.good_of_indexUp (Exp.goodKind ⟨h⟩ ‹_›)
      exact ⟨hk.1.regular, hk.2.regular⟩
    · exact h
  · split
    · trivial
    · exact h
  · split
    · have hk := ExpKind.good_of_indexStr (Exp.goodKind ⟨h⟩ ‹_›)
      exact ⟨hk.1.regular, hk.2.regular⟩
    · exact h
  · exact (ExpKind.good_of_indexed (Exp.goodKind ⟨h⟩ ‹_›)).regular
  · exact h

instance (v : Exp) (earlier : List Exp) [h : Good earlier] :
    Acts levels (copyConflicts v earlier) := by
  have hchanged (copy : Nat) : Good ((earlier.map fun t => t.withCopy v copy).map (·.1)) := by
    refine ⟨fun e he => ?_⟩
    rw [List.map_map] at he
    obtain ⟨t, ht, rfl⟩ := List.mem_map.1 he
    exact Exp.regular_withCopy (h.regular t ht) copy
  unfold copyConflicts
  refine .seq inferInstance fun copy _ => ?_
  dsimp only
  split
  · split <;> infer_instance
  · infer_instance

instance (target : Exp) (earlier : List Exp) [Good target] [Good earlier] : Acts (some deep)
    (assignRest r target earlier) := by
  have hassign (later : Exp) (targets : List Exp) [Good later] [Good targets] : Acts (some deep) (do
      match ← r.assign later targets with
      | target :: earlier =>
        storeTop target
        return earlier
      | [] => broken .indexInRange) := by
    refine .seq inferInstance fun targets ht => ?_
    cases targets with
    | nil => infer_instance
    | cons target earlier =>
      have : Good target := ⟨ht.regular target (List.mem_cons_self ..)⟩
      have : Good earlier := ⟨fun e he => ht.regular e (List.mem_cons_of_mem _ he)⟩
      infer_instance
  unfold assignRest
  dsimp only
  refine Acts.optional (h := .seq inferInstance fun _ _ => .seq inferInstance fun _ _ =>
    .seq inferInstance fun _ _ => ?_)
  split
  · exact .seq inferInstance fun _ _ => inferInstance
  · exact .seq inferInstance fun _ _ => .seq inferInstance fun _ _ => inferInstance

instance : Acts (some deep) (expressionStatement r) := by
  unfold expressionStatement
  refine .seq inferInstance fun e _ => .seq inferInstance fun k _ => ?_
  split
  · infer_instance
  · split <;> infer_instance

instance (line : Nat) : Acts (some deep) (statementBody r line) := by
  unfold statementBody
  refine .seq inferInstance fun k _ => ?_
  split <;> infer_instance

instance : Acts (some deep) (statement r) := by
  unfold statement
  exact .seq inferInstance fun line _ => .seq inferInstance fun _ _ => .get fun s _ => by
    dsimp only; infer_instance

instance {α : Type} [Regularity α] : Acts levels (tooDeep : M α) := by
  unfold tooDeep
  infer_instance

instance nested_acts (deep : Nat) : NestedActs deep (nested deep) := by
  induction deep with
  | zero =>
    unfold nested
    exact ⟨fun _ => inferInstanceAs (Acts (some 0) tooDeep),
      inferInstanceAs (Acts (some 0) tooDeep),
      fun _ _ => inferInstanceAs (Acts (some 0) tooDeep),
        fun _ _ _ => inferInstanceAs (Acts (some 0) tooDeep)⟩
  | succ n ih =>
    unfold nested
    exact ⟨fun limit => inferInstanceAs (Acts (some (n + 1)) (metered (subExpression _ limit))),
      inferInstanceAs (Acts (some (n + 1)) (metered (statement _))),
      fun target earlier => inferInstanceAs
        (Acts (some (n + 1)) (metered (assignRest _ target earlier))),
      fun count line names => inferInstanceAs
        (Acts (some (n + 1)) (metered (initGlobals _ count line names)))⟩

/-- The compilation of a main function, once its source is stored. -/
def mainBody : M Unit := do
  enterBlock .none
  setVararg 0
  discard (addUpvalue ⟨some envName, true, 0, VarKind.regular.number⟩)
  next
  statements (nested maxNesting)
  check .eos
  closeFunction

theorem mainFunction_built : mainFunction = (do
    intern envName
    intern breakName
    let s ← MonadState.get
    stored (.source · s.lexer.source)
    mainBody) := rfl

instance : Acts (some maxNesting) mainBody := by
  unfold mainBody
  exact .seq inferInstance fun _ _ => .seq inferInstance fun _ _ => inferInstance

def State.started (s : State) : State :=
  { s with
    lexer := { s.lexer with noted := (s.lexer.noted.push envName).push breakName }
    stores := s.stores.push (.source s.fn.id s.lexer.source) }

theorem mainFunction_started (s : State) : mainFunction s = mainBody s.started := by
  rw [mainFunction_built]
  rfl

end LuaChunk.Compile
