import LuaChunk.Proofs.Parallel.Emit

set_option autoImplicit false

namespace LuaChunk.Compile

open LuaChunk

variable {ρ : Renaming} {α β : Type} {L : Like β}

/-- Declarations that differ at most in the name. -/
def Like.variable : Like Variable := ⟨fun ρ v v' => v.Like ρ v', .of_none⟩

theorem variableAt_step (i : Nat) (s : State) : variableAt i s = (match s.vars[i]? with
    | some v => pure v
    | none => broken .indexInRange : M Variable) s := rfl

theorem evolving_variableAt (i : Nat) : Evolving (variableAt i) := by
  intro s
  rw [variableAt_step]
  cases s.vars[i]? <;> exact .refl s

instance follows_variableAt (i : Nat) : Follows ρ .variable (variableAt i) (variableAt i) := by
  refine ⟨evolving_variableAt i, evolving_variableAt i, fun s s' ht => ?_⟩
  rw [variableAt_step, variableAt_step]
  rcases ht.vars.get i with ⟨hv, hv'⟩ | ⟨v, v', hv, hv', hl⟩
  · rw [hv, hv']
    exact fun hl => (hl trivial).elim
  · rw [hv, hv']
    exact fun _ _ => .ok hl ht

instance follows_ownVariable (i : Nat) : Follows ρ .variable (ownVariable i) (ownVariable i) := by
  unfold ownVariable
  refine .get (·.fn.firstVar) (K := .same) (fun _ s s' h => h.firstVar) fun _ s s' h => ?_
  rw [show s'.fn.firstVar = s.fn.firstVar from h]
  infer_instance

instance follows_freeExp (e : Exp) : Follows ρ .same (freeExp e) (freeExp e) := by
  unfold freeExp
  split <;> infer_instance

instance follows_freeExps (e₁ e₂ : Exp) : Follows ρ .same (freeExps e₁ e₂) (freeExps e₁ e₂) := by
  unfold freeExps
  split <;> infer_instance

instance follows_setReturns (e : Exp) (count : Option Nat) : Follows ρ .same (setReturns e count)
    (setReturns e count) := by
  unfold setReturns
  dsimp only
  split <;> infer_instance

instance follows_setOneReturn (e : Exp) : Follows ρ .same (setOneReturn e) (setOneReturn e) := by
  unfold setOneReturn
  split <;> infer_instance

instance follows_dischargeVars (e : Exp) : Follows ρ .same (dischargeVars e) (dischargeVars e) := by
  unfold dischargeVars
  dsimp only
  split
  · refine .bind (follows_variableAt _) fun ρ v v' h => ?_
    rw [h.value]
    infer_instance
  all_goals infer_instance

instance follows_loadInt (reg : Nat) (n : Int64) : Follows ρ .same (loadInt reg n)
    (loadInt reg n) := by
  unfold loadInt
  infer_instance

instance follows_loadFloat (reg : Nat) (x : Double) : Follows ρ .same (loadFloat reg x)
    (loadFloat reg x) := by
  unfold loadFloat
  dsimp only
  split <;> infer_instance

instance follows_dischargeTo (e : Exp) (reg : Nat) : Follows ρ .same (dischargeTo e reg)
    (dischargeTo e reg) := by
  unfold dischargeTo
  refine .seq inferInstance fun e => ?_
  dsimp only
  split <;> infer_instance

instance follows_dischargeToAny (e : Exp) : Follows ρ .same (dischargeToAny e)
    (dischargeToAny e) := by
  unfold dischargeToAny
  split <;> infer_instance

instance follows_loadBool (reg : Nat) (op : Opcode) : Follows ρ .same (loadBool reg op)
    (loadBool reg op) := by
  unfold loadBool
  infer_instance

instance follows_loadBools (e : Exp) (reg : Nat) : Follows ρ .same (loadBools e reg)
    (loadBools e reg) := by
  unfold loadBools
  refine .seq inferInstance fun first => ?_
  cases e.kind <;> dsimp only <;> split <;> infer_instance

instance follows_toRegister (e : Exp) (reg : Nat) : Follows ρ .same (toRegister e reg)
    (toRegister e reg) := by
  unfold toRegister
  refine .seq inferInstance fun e => ?_
  have hjumps : ∀ (ρ : Renaming) (e : Exp), Follows ρ .same
      (do
        let (ifFalse, ifTrue) ← loadBools e reg
        let final ← markTarget
        patchValues e.whenFalse final reg ifFalse
        patchValues e.whenTrue final reg ifTrue)
      (do
        let (ifFalse, ifTrue) ← loadBools e reg
        let final ← markTarget
        patchValues e.whenFalse final reg ifFalse
        patchValues e.whenTrue final reg ifTrue) :=
    fun ρ e => .seq inferInstance fun (ifFalse, ifTrue) => inferInstance
  dsimp only
  split <;> infer_instance

instance follows_toNextRegister (e : Exp) : Follows ρ .same (toNextRegister e)
    (toNextRegister e) := by
  unfold toNextRegister
  infer_instance

instance follows_toAnyRegister (e : Exp) : Follows ρ .same (toAnyRegister e) (toAnyRegister e) := by
  unfold toAnyRegister
  refine .seq inferInstance fun e => ?_
  split <;> infer_instance

instance follows_toRegisterOrUpvalue (e : Exp) : Follows ρ .same (toRegisterOrUpvalue e)
    (toRegisterOrUpvalue e) := by
  unfold toRegisterOrUpvalue
  split <;> infer_instance

instance follows_toValue (e : Exp) : Follows ρ .same (toValue e) (toValue e) := by
  unfold toValue
  infer_instance

instance follows_toConstant? (e : Exp) : Follows ρ .same (toConstant? e) (toConstant? e) := by
  unfold toConstant?
  dsimp only
  split
  · infer_instance
  · split <;> exact .seq inferInstance fun index? => by cases index? <;> infer_instance

instance follows_toOperand (e : Exp) : Follows ρ .same (toOperand e) (toOperand e) := by
  unfold toOperand
  refine .seq inferInstance fun k? => ?_
  cases k? <;> infer_instance

instance follows_emitWithOperand (op : Opcode) (a b : Nat) (e : Exp) (meant : List Value) :
    Follows ρ .same (emitWithOperand op a b e meant) (emitWithOperand op a b e meant) := by
  unfold emitWithOperand
  infer_instance

instance follows_storeTo (v e : Exp) : Follows ρ .same (storeTo v e) (storeTo v e) := by
  unfold storeTo
  split <;> infer_instance

instance follows_emitSelf (e : Exp) (name : Bytes) : Follows ρ .same (emitSelf e name)
    (emitSelf e name) := by
  unfold emitSelf
  infer_instance

instance follows_shortKey? (k : Exp) : Follows ρ .same (shortKey? k) (shortKey? k) := by
  unfold shortKey?
  split
  · split
    · infer_instance
    · exact .seq inferInstance fun v? => by cases v? <;> infer_instance
  · infer_instance

instance follows_noteLoad (key : Exp) : Follows ρ .same (noteLoad key) (noteLoad key) := by
  unfold noteLoad
  split
  · exact .modify (fun _ => .of_eq rfl rfl) (fun _ => .of_eq rfl rfl) fun _ _ h => { h with }
  · infer_instance

instance follows_index (t k : Exp) : Follows ρ .same (index t k) (index t k) := by
  unfold index
  dsimp only
  repeat' first
    | infer_instance
    | refine .seq inferInstance fun _ => ?_
    | split

instance follows_control (pc : Nat) : Follows ρ .same (ofFn fun f => JumpList.control f.code pc)
    (ofFn fun f => JumpList.control f.code pc) := .ofFn fun _ => rfl

instance follows_negateCondition (pc : Nat) : Follows ρ .same (negateCondition pc)
    (negateCondition pc) := by
  unfold negateCondition
  infer_instance

instance follows_jumpOn (e : Exp) (cond : Bool) : Follows ρ .same (jumpOn e cond)
    (jumpOn e cond) := by
  unfold jumpOn
  dsimp only
  split
  · refine .seq inferInstance fun i => ?_
    split
    · infer_instance
    · exact .seq inferInstance fun e => .seq inferInstance fun _ => by
        cases e.register? <;> infer_instance
  · exact .seq inferInstance fun e => .seq inferInstance fun _ => by
      cases e.register? <;> infer_instance

instance follows_goIfTrue (e : Exp) : Follows ρ .same (goIfTrue e) (goIfTrue e) := by
  unfold goIfTrue
  refine .seq inferInstance fun e => ?_
  dsimp only
  split <;> infer_instance

instance follows_goIfFalse (e : Exp) : Follows ρ .same (goIfFalse e) (goIfFalse e) := by
  unfold goIfFalse
  refine .seq inferInstance fun e => ?_
  dsimp only
  split <;> infer_instance

instance follows_emitNot (e : Exp) : Follows ρ .same (emitNot e) (emitNot e) := by
  unfold emitNot
  dsimp only
  split
  case h_9 | h_10 =>
    refine .seq inferInstance fun v => .seq inferInstance fun _ => ?_
    cases v.register? <;> infer_instance
  all_goals infer_instance

variable (line line' : Nat)

instance follows_emitUnary (op : Opcode) (e : Exp) : Follows ρ .same (emitUnary op e line)
    (emitUnary op e line') := by
  unfold emitUnary
  infer_instance

instance follows_applyUnary (op : UnaryOp) (e : Exp) :
    Follows ρ .same (applyUnary op e line) (applyUnary op e line') := by
  unfold applyUnary
  refine .seq inferInstance fun e => ?_
  dsimp only
  split
  · split <;> infer_instance
  · split <;> infer_instance
  · infer_instance
  · infer_instance

instance follows_emitArith (op : Opcode) (e₁ e₂ : Exp) (operand : Nat) (flip : Bool)
    (fallback : Opcode)
    (event : Event) (meant : List Value) : Follows ρ .same
    (emitArith op e₁ e₂ operand flip line fallback event meant)
      (emitArith op e₁ e₂ operand flip line' fallback event meant) := by
  unfold emitArith
  infer_instance

instance follows_emitArithRegisters (op : ArithOp) (e₁ e₂ : Exp) :
    Follows ρ .same (emitArithRegisters op e₁ e₂ line) (emitArithRegisters op e₁ e₂ line') := by
  unfold emitArithRegisters
  infer_instance

instance follows_emitArithInteger (op : Opcode) (e₁ e₂ : Exp) (n : Int64) (flip : Bool)
    (event : Event) :
    Follows ρ .same (emitArithInteger op e₁ e₂ n flip line event)
      (emitArithInteger op e₁ e₂ n flip line' event) :=
  follows_emitArith ..

instance follows_emitArithNegated? (op : Opcode) (e₁ e₂ : Exp) (event : Event) :
    Follows ρ .same (emitArithNegated? op e₁ e₂ line event)
      (emitArithNegated? op e₁ e₂ line' event) := by
  unfold emitArithNegated?
  split <;> infer_instance

instance follows_emitArithConstant (op : ArithOp) (e₁ e₂ : Exp) (useConstant flip : Bool) :
    Follows ρ .same (emitArithConstant op e₁ e₂ useConstant flip line)
      (emitArithConstant op e₁ e₂ useConstant flip line') := by
  unfold emitArithConstant
  dsimp only
  split <;> refine .seq inferInstance fun constant? => ?_
  all_goals cases constant? <;> cases arithConstantOpcode? op <;> infer_instance

instance follows_emitCommutative (op : ArithOp) (e₁ e₂ : Exp) :
    Follows ρ .same (emitCommutative op e₁ e₂ line) (emitCommutative op e₁ e₂ line') := by
  unfold emitCommutative
  dsimp only
  split <;> infer_instance

instance follows_emitBitwise (op : ArithOp) (e₁ e₂ : Exp) :
    Follows ρ .same (emitBitwise op e₁ e₂ line) (emitBitwise op e₁ e₂ line') :=
      follows_emitArithConstant ..

instance follows_emitConcat (r₁ r₂ : Nat) : Follows ρ .same (emitConcat r₁ r₂ line)
    (emitConcat r₁ r₂ line') := by
  unfold emitConcat
  dsimp only
  refine .seq inferInstance fun prev? => ?_
  cases prev? <;> infer_instance

instance follows_emitOrder (orEqual : Bool) (e₁ e₂ : Exp) :
    Follows ρ .same (emitOrder orEqual e₁ e₂) (emitOrder orEqual e₁ e₂) := by
  unfold emitOrder
  dsimp only
  split <;> infer_instance

instance follows_emitEqual (equal : Bool) (e₁ e₂ : Exp) :
    Follows ρ .same (emitEqual equal e₁ e₂) (emitEqual equal e₁ e₂) := by
  unfold emitEqual
  dsimp only
  split <;> refine .seq inferInstance fun r => ?_
  all_goals
    split
    · infer_instance
    · exact .seq inferInstance fun o => by cases o <;> infer_instance

instance follows_prepareLeft (op : BinaryOp) (e : Exp) : Follows ρ .same (prepareLeft op e)
    (prepareLeft op e) := by
  unfold prepareLeft
  refine .seq inferInstance fun e => ?_
  split <;> infer_instance

instance follows_emitShiftLeft (e₁ e₂ : Exp) :
    Follows ρ .same (emitShiftLeft e₁ e₂ line) (emitShiftLeft e₁ e₂ line') := by
  unfold emitShiftLeft
  split
  · infer_instance
  · exact .seq inferInstance fun e? => by cases e? <;> infer_instance

instance follows_emitArithmetic (op : ArithOp) (e₁ e₂ : Exp) :
    Follows ρ .same (emitArithmetic op e₁ e₂ line) (emitArithmetic op e₁ e₂ line') := by
  unfold emitArithmetic
  split
  case h_3 => exact .seq inferInstance fun e? => by cases e? <;> infer_instance
  case h_8 => split <;> infer_instance
  all_goals infer_instance

instance follows_applyBinary (op : BinaryOp) (e₁ e₂ : Exp) :
    Follows ρ .same (applyBinary op e₁ e₂ line) (applyBinary op e₁ e₂ line') := by
  unfold applyBinary
  refine .seq inferInstance fun e₂ => ?_
  split
  · split <;> infer_instance
  case h_4 => exact .seq inferInstance fun r₂ => by cases e₁.register? <;> infer_instance
  all_goals infer_instance

end LuaChunk.Compile
