import LuaChunk.Proofs.Parallel.Run

set_option autoImplicit false

namespace LuaChunk.Compile

open LuaChunk

variable {ρ : Renaming} {α β : Type} {L : Like β}

theorem Follows.onLexer {act act' : Lexer.M α} {K : Like α}
    (he : ∀ l : Lexer, l.Extends (Lexer.after act l))
    (he' : ∀ l : Lexer, l.Extends (Lexer.after act' l))
    (h : ∀ l l', Lexer.Twin ρ l l' → ∃ a a' t t', act l = .ok a t ∧ act' l' = .ok a' t' ∧
    K.rel ρ a a' ∧
      Lexer.Twin ρ t t') :
    Follows ρ K (onLexer act) (onLexer act') := by
  have hev : ∀ {act : Lexer.M α}, (∀ l : Lexer, l.Extends (Lexer.after act l)) →
      Evolving (Compile.onLexer act) := by
    intro act he s
    have hs := he s.lexer
    unfold Lexer.after at hs
    unfold Compile.onLexer
    dsimp only
    cases hm : act s.lexer with
    | ok a l =>
      rw [hm] at hs
      exact ⟨id, hs⟩
    | error e l =>
      rw [hm] at hs
      exact ⟨id, hs⟩
  refine ⟨hev he, hev he', fun s s' ht _ _ => ?_⟩
  obtain ⟨a, a', t, t', hm, hm', ha, hl⟩ := h _ _ ht.lexer
  unfold Compile.onLexer
  dsimp only
  rw [hm, hm']
  exact .ok ha { ht with lexer := hl }

instance follows_next : Follows ρ .same next next :=
  .onLexer Lexer.extends_next Lexer.extends_next fun _ _ h =>
    have ⟨t, t', hm, hm', ht⟩ := h.next
    ⟨(), (), t, t', hm, hm', rfl, ht⟩

instance follows_lookahead : Follows ρ .same lookahead lookahead :=
  .onLexer Lexer.extends_lookahead Lexer.extends_lookahead fun _ _ h =>
    have ⟨k, t, t', hm, hm', ht⟩ := h.lookahead
    ⟨k, k, t, t', hm, hm', rfl, ht⟩

instance follows_intern (s s' : Bytes) : Follows ρ .same (intern s) (intern s') :=
  .onLexer (Lexer.extends_note s) (Lexer.extends_note s') fun _ _ h =>
    ⟨(), (), _, _, rfl, rfl, rfl, h.note s s'⟩

instance follows_currentKind : Follows ρ .same currentKind currentKind :=
  .get (·.lexer.token.kind) (K := .same) (fun _ _ _ h => h.lexer.kind) fun _ _ _ h => .pure h

instance follows_currentLine : Follows ρ .any currentLine currentLine :=
  .get (·.lexer.line) (K := .any) (fun _ _ _ _ => trivial) fun _ _ _ _ => .pure trivial

instance follows_currentNear : Follows ρ .any currentNear currentNear :=
  .get (·.lexer.token.near) (K := .any) (fun _ _ _ _ => trivial) fun _ _ _ _ => .pure trivial

instance follows_stored (event event' : Nat → Store) : Follows ρ .same (stored event)
    (stored event') :=
  .modify (fun _ => .of_eq rfl rfl) (fun _ => .of_eq rfl rfl) fun _ _ h => { h with }

instance follows_noteFits (fits fits' : Bool) : Follows ρ .same (noteFits fits) (noteFits fits') :=
  .modify (fun _ => .of_eq rfl rfl) (fun _ => .of_eq rfl rfl) fun _ _ h => { h with }

instance follows_here : Follows ρ .same here here := .ofFn fun _ => rfl

instance follows_freeReg : Follows ρ .same freeReg freeReg := .ofFn fun _ => rfl

instance follows_active : Follows ρ .same (ofFn (·.active)) (ofFn (·.active)) := .ofFn fun _ => rfl

instance follows_maxStack : Follows ρ .same (ofFn (·.maxStack)) (ofFn (·.maxStack)) :=
  .ofFn fun _ => rfl

instance follows_instruction (pc : Nat) : Follows ρ .same (ofFn (·.code[pc]?))
    (ofFn (·.code[pc]?)) := .ofFn fun _ => rfl

instance follows_constant (k : Nat) : Follows ρ .same (ofFn (·.pool.values[k]?))
    (ofFn (·.pool.values[k]?)) :=
  .ofFn fun _ => rfl

instance follows_setFreeReg (r : Nat) : Follows ρ .same (setFreeReg r) (setFreeReg r) :=
  .modifyFn (v := fun f => { f with freeReg := r }) (fun _ => rfl) (fun _ => rfl) fun _ => rfl

instance follows_setMaxStack (n : Nat) :
    Follows ρ .same (modifyFn fun f => { f with maxStack := n })
    (modifyFn fun f => { f with maxStack := n }) :=
  .modifyFn (v := fun f => { f with maxStack := n }) (fun _ => rfl) (fun _ => rfl) fun _ => rfl

instance follows_addFree (n : Nat) :
    Follows ρ .same (modifyFn fun f => { f with freeReg := f.freeReg + n })
    (modifyFn fun f => { f with freeReg := f.freeReg + n }) :=
  .modifyFn (v := fun f => { f with freeReg := f.freeReg + n }) (fun _ => rfl) (fun _ => rfl)
    fun _ => rfl

/-- An instruction has a line and variables in scope, which do not count. -/
instance follows_push (i : Instruction) (line line' : Int)
    (places places' : List (Nat × Option Bytes)) (meant : List Value) :
    Follows ρ .same
      (modifyFn fun f => { f with
        code := f.code.push i, lines := f.lines.record line, scopes := f.scopes.push places,
        meant := f.meant.push meant })
      (modifyFn fun f => { f with
        code := f.code.push i, lines := f.lines.record line', scopes := f.scopes.push places',
        meant := f.meant.push meant }) :=
  .modifyFn (v := fun f => { f with code := f.code.push i, meant := f.meant.push meant })
    (fun _ => rfl) (fun _ => rfl) fun _ => rfl

instance follows_emit (d : Draft) (meant : List Value) : Follows ρ .same (emit d meant)
    (emit d meant) := by
  unfold emit
  refine .bind (K := .same) inferInstance fun ρ _ _ _ => ?_
  refine .get (·.lexer.lastLine) (K := .any) (fun _ _ _ _ => trivial) fun _ _ _ _ => ?_
  exact .get (·.places) (K := .any) (fun _ _ _ _ => trivial) fun _ _ _ _ => inferInstance

instance follows_emitABCk (op : Opcode) (a b c k : Nat) (meant : List Value) :
    Follows ρ .same (emitABCk op a b c k meant) (emitABCk op a b c k meant) := follows_emit ..

instance follows_emitABC (op : Opcode) (a b c : Nat) (meant : List Value) :
    Follows ρ .same (emitABC op a b c meant) (emitABC op a b c meant) := follows_emit ..

instance follows_emitABx (op : Opcode) (a bx : Nat) (meant : List Value) :
    Follows ρ .same (emitABx op a bx meant) (emitABx op a bx meant) := follows_emit ..

instance follows_fixLine (line line' : Nat) : Follows ρ .same (fixLine line) (fixLine line') := by
  have h : Follows ρ .same (modifyFn fun f => { f with lines := f.lines.fixLast line })
      (modifyFn fun f => { f with lines := f.lines.fixLast line' }) :=
    .modifyFn (v := id) (fun _ => rfl) (fun _ => rfl) fun _ => rfl
  exact follows_checked

instance follows_removeLast : Follows ρ .same removeLast removeLast := by
  have h : Follows ρ .same
      (modifyFn fun f => { f with
        code := f.code.pop, lines := f.lines.removeLast, scopes := f.scopes.pop,
        meant := f.meant.pop })
      (modifyFn fun f => { f with
        code := f.code.pop, lines := f.lines.removeLast, scopes := f.scopes.pop,
        meant := f.meant.pop }) :=
    .modifyFn (v := fun f => { f with code := f.code.pop, meant := f.meant.pop }) (fun _ => rfl)
      (fun _ => rfl) fun _ => rfl
  exact follows_checked

instance follows_instructionAt (pc : Nat) : Follows ρ .same (instructionAt pc)
    (instructionAt pc) := by
  unfold instructionAt
  refine .seq inferInstance fun i => ?_
  cases i <;> infer_instance

instance follows_modifyCode (pc : Nat) (change : Instruction → Instruction) : Follows ρ .same
    (modifyFn fun f => { f with code := f.code.modify pc change })
    (modifyFn fun f => { f with code := f.code.modify pc change }) :=
  .modifyFn (v := fun f => { f with code := f.code.modify pc change }) (fun _ => rfl) (fun _ => rfl)
    fun _ => rfl

instance follows_modifyAt (pc : Nat) (change : Instruction → Instruction) :
    Follows ρ .same (modifyAt pc change) (modifyAt pc change) := by
  unfold modifyAt
  infer_instance

instance follows_setAt (pc : Nat) (changes : List (Instruction.Field × Nat)) :
    Follows ρ .same (setAt pc changes) (setAt pc changes) := by
  unfold setAt
  infer_instance

instance follows_replaceAt (pc : Nat) (d : Draft) : Follows ρ .same (replaceAt pc d)
    (replaceAt pc d) := by
  unfold replaceAt
  infer_instance

instance follows_previous? : Follows ρ .same previous? previous? := .ofFn fun _ => rfl

instance follows_setLast (changes : List (Instruction.Field × Nat)) :
    Follows ρ .same (setLast changes) (setLast changes) := by
  unfold setLast
  infer_instance

instance follows_emitK (reg : Nat) (k : PoolEntry) : Follows ρ .same (emitK reg k)
    (emitK reg k) := by
  unfold emitK
  infer_instance

instance follows_loadNil (start n : Nat) : Follows ρ .same (loadNil start n) (loadNil start n) := by
  unfold loadNil
  refine .seq inferInstance fun i => ?_
  cases i.bind (extendNil? start n) <;> infer_instance

instance follows_emitReturn (first : Nat) (count : Option Nat) :
    Follows ρ .same (emitReturn first count) (emitReturn first count) := by
  unfold emitReturn
  split <;> infer_instance

instance follows_markTarget : Follows ρ .same markTarget markTarget := by
  have h : Follows ρ .same (modifyFn fun f => { f with lastTarget := f.code.size })
      (modifyFn fun f => { f with lastTarget := f.code.size }) :=
    .modifyFn (v := fun f => { f with lastTarget := f.code.size }) (fun _ => rfl) (fun _ => rfl)
      fun _ => rfl
  unfold markTarget
  infer_instance

/-- The code is the same in both runs, and so is what an operation makes of it. -/
instance follows_onCode (act : JumpList.Code → Except JumpList.Fault (JumpList.Code × α)) :
    Follows ρ .same (onCode act) (onCode act) := by
  have hread : Follows ρ .same
      (modifyGet fun s => (s.fn.code, { s with fn := { s.fn with code := #[] } }) : M JumpList.Code)
      (modifyGet fun s => (s.fn.code, { s with fn := { s.fn with code := #[] } })) :=
    ⟨fun _ => .of_eq rfl rfl, fun _ => .of_eq rfl rfl, fun s s' ht _ _ => .ok ht.code
      (ht.setFn (congrArg (fun f : Builder => { f with code := #[] }) ht.fn) ht.distinct_fn)⟩
  have hwrite : ∀ code : JumpList.Code, Follows ρ .same (modifyFn fun f => { f with code })
      (modifyFn fun f => { f with code }) :=
    fun code => .modifyFn (v := fun f => { f with code }) (fun _ => rfl) (fun _ => rfl) fun _ => rfl
  unfold onCode
  refine .seq hread fun code => ?_
  rcases act code with ((_ | _) | ⟨code, a⟩) <;> infer_instance

instance follows_noteLists (used : List (Option Nat)) : Follows ρ .same (noteLists used)
    (noteLists used) :=
  .modify (fun _ => .of_eq rfl rfl) (fun _ => .of_eq rfl rfl) fun _ _ h => { h with }

instance follows_hold (pc : Nat) : Follows ρ .same (hold pc) (hold pc) :=
  .modifyFn (v := fun f => { f with openLists := fun p => f.openLists p ∨ p = pc }) (fun _ => rfl)
    (fun _ => rfl) fun _ => rfl

instance follows_giveUp (list : Option Nat) : Follows ρ .same (giveUp list) (giveUp list) :=
  .modifyFn (v := fun f => { f with openLists := fun p => f.openLists p ∧ list ≠ some p })
    (fun _ => rfl) (fun _ => rfl) fun _ => rfl

instance follows_jump : Follows ρ .same jump jump := by
  unfold jump
  infer_instance

instance follows_appendJumps (first second : Option Nat) :
    Follows ρ .same (appendJumps first second) (appendJumps first second) := by
  unfold appendJumps
  infer_instance

instance follows_aimJumps (list : Option Nat) (valueTarget : Nat) (reg plainTarget : Option Nat) :
    Follows ρ .same (aimJumps list valueTarget reg plainTarget)
      (aimJumps list valueTarget reg plainTarget) := by
  have h : ∀ aims : List (Nat × Nat),
      Follows ρ .same (modifyFn fun f => { f with aims := aims ++ f.aims })
      (modifyFn fun f => { f with aims := aims ++ f.aims }) :=
    fun aims => .modifyFn (v := fun f => { f with aims := aims ++ f.aims }) (fun _ => rfl)
      (fun _ => rfl) fun _ => rfl
  unfold aimJumps
  infer_instance

instance follows_patchList (list : Option Nat) (target : Nat) :
    Follows ρ .same (patchList list target) (patchList list target) :=
  follows_aimJumps ..

instance follows_patchValues (list : Option Nat) (target reg : Nat) (plain : Option Nat) :
    Follows ρ .same (patchValues list target reg plain) (patchValues list target reg plain) := by
  unfold patchValues
  infer_instance

instance follows_patchToHere (list : Option Nat) : Follows ρ .same (patchToHere list)
    (patchToHere list) := by
  unfold patchToHere
  infer_instance

instance follows_jumpTo (target : Nat) : Follows ρ .same (jumpTo target) (jumpTo target) := by
  unfold jumpTo
  infer_instance

instance follows_testJump (op : Opcode) (a b c k : Nat) (meant : List Value) :
    Follows ρ .same (testJump op a b c k meant) (testJump op a b c k meant) := by
  unfold testJump
  infer_instance

instance follows_needsValue (list : Option Nat) : Follows ρ .same (needsValue list)
    (needsValue list) := by
  unfold needsValue
  infer_instance

instance follows_removeValues (list : Option Nat) : Follows ρ .same (removeValues list)
    (removeValues list) := by
  unfold removeValues
  infer_instance

theorem VarsLike.registersOf {vars vars' : Array Variable} (h : VarsLike ρ vars vars')
    (firstVar n : Nat) :
    Compile.registersOf vars' firstVar n = Compile.registersOf vars firstVar n := by
  induction n with
  | zero => rfl
  | succ n ih =>
    unfold Compile.registersOf
    rcases h.get (firstVar + n) with ⟨hv, hv'⟩ | ⟨v, v', hv, hv', hl⟩
    · rw [hv, hv']
    · rw [hv, hv']
      simp only [hl.kind, hl.reg, ih]

instance follows_registerLevel (n : Nat) : Follows ρ .same (registerLevel n) (registerLevel n) := by
  unfold registerLevel
  refine .get (fun s => registersOf s.vars s.fn.firstVar n) (K := .same) (fun _ s s' h => ?_)
    fun _ s s' h => ?_
  · show registersOf s'.vars s'.fn.firstVar n = registersOf s.vars s.fn.firstVar n
    rw [h.vars.registersOf, h.firstVar]
  · rw [show registersOf s'.vars s'.fn.firstVar n = registersOf s.vars s.fn.firstVar n from h]
    cases registersOf s.vars s.fn.firstVar n <;> infer_instance

instance follows_activeRegisters : Follows ρ .same activeRegisters activeRegisters := by
  unfold activeRegisters
  infer_instance

instance follows_checkStack (n : Nat) : Follows ρ .same (checkStack n) (checkStack n) := by
  unfold checkStack
  dsimp only
  infer_instance

instance follows_reserve (n : Nat) : Follows ρ .same (reserve n) (reserve n) := by
  unfold reserve
  infer_instance

instance follows_freeRegister (reg : Nat) : Follows ρ .same (freeRegister reg)
    (freeRegister reg) := by
  unfold freeRegister
  infer_instance

instance follows_freeRegisters (r₁ r₂ : Nat) : Follows ρ .same (freeRegisters r₁ r₂)
    (freeRegisters r₁ r₂) := by
  unfold freeRegisters
  infer_instance

instance follows_placeConstant (key : PoolKey) (v : Value) : Follows ρ .same (placeConstant key v)
    (placeConstant key v) := by
  have hfind : Follows ρ .same (ofFn (·.pool.find? key v)) (ofFn (·.pool.find? key v)) :=
    .ofFn fun _ => rfl
  have hsize : Follows ρ .same (ofFn (·.pool.values.size)) (ofFn (·.pool.values.size)) :=
    .ofFn fun _ => rfl
  have hpush : Follows ρ .same (modifyFn fun f => { f with pool := f.pool.push key v })
      (modifyFn fun f => { f with pool := f.pool.push key v }) :=
    .modifyFn (v := fun f => { f with pool := f.pool.push key v }) (fun _ => rfl) (fun _ => rfl)
      fun _ => rfl
  unfold placeConstant
  refine .seq hfind fun k? => ?_
  cases k? with
  | some k => infer_instance
  | none => cases v <;> infer_instance

instance follows_noteFloat (x : Double) (keeper : Keeper) : Follows ρ .same (noteFloat x keeper)
    (noteFloat x keeper) :=
  .modify (fun _ => .of_eq rfl rfl) (fun _ => .of_eq rfl rfl) fun _ _ h => { h with }

instance follows_addConstant (key : PoolKey) (v : Value) : Follows ρ .same (addConstant key v)
    (addConstant key v) := by
  unfold addConstant
  refine .seq inferInstance fun k => ?_
  split <;> infer_instance

instance follows_stringK (s : Bytes) : Follows ρ .same (stringK s) (stringK s) :=
  follows_addConstant ..

instance follows_intK (n : Int64) : Follows ρ .same (intK n) (intK n) := follows_addConstant ..

instance follows_floatK (x : Double) : Follows ρ .same (floatK x) (floatK x) :=
  follows_addConstant ..

instance follows_boolK (b : Bool) : Follows ρ .same (boolK b) (boolK b) := follows_addConstant ..

instance follows_nilK : Follows ρ .same nilK nilK := follows_addConstant ..

end LuaChunk.Compile
