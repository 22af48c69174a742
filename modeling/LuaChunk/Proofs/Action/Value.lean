import LuaChunk.Proofs.Action.Emit

set_option autoImplicit false

namespace LuaChunk.Compile

open LuaChunk

variable {levels : Option Nat}

instance (i : Nat) : Acts levels (variableAt i) := by
  unfold variableAt
  refine .get fun s hs => ?_
  split
  · rename_i v hv
    have : Good v := ⟨hs.vars v (Array.mem_of_getElem? hv)⟩
    infer_instance
  · infer_instance

instance (i : Nat) : Acts levels (ownVariable i) := by
  unfold ownVariable
  exact .get fun _ _ => inferInstance

instance (e : Exp) : Acts levels (freeExp e) := by
  unfold freeExp
  split <;> infer_instance

instance (e₁ e₂ : Exp) : Acts levels (freeExps e₁ e₂) := by
  unfold freeExps
  split <;> infer_instance

instance (e : Exp) (count : Option Nat) : Acts levels (setReturns e count) := by
  unfold setReturns
  dsimp only
  split <;> infer_instance

instance (e : Exp) [Good e] : Acts levels (setOneReturn e) := by
  unfold setOneReturn
  split <;> infer_instance

instance (e : Exp) [he : Good e] : Acts levels (dischargeVars e) := by
  unfold dischargeVars
  dsimp only
  split
  case h_4 hk =>
    have := (ExpKind.good_of_indexUp (Exp.goodKind he hk)).1
    infer_instance
  case h_6 hk =>
    have := (ExpKind.good_of_indexStr (Exp.goodKind he hk)).1
    infer_instance
  all_goals infer_instance

instance (reg : Nat) (n : Int64) : Acts levels (loadInt reg n) := by
  unfold loadInt
  infer_instance

theorem acts_loadWhole {reg : Nat} {x : Double} {n : Int64} (hx : Binary64.Regular x)
    (hn : Binary64.toInt64? x = some n) :
    Acts levels (do
      noteFloat x (.load (Draft.asbx .loadF reg n.toInt).word)
      discard (emit (Draft.asbx .loadF reg n.toInt))) := by
  refine .of_single (.update (g := fun _ => ()) (h := fun s =>
    let load := Draft.asbx .loadF reg n.toInt
    { s with
      floats := s.floats.push ⟨x, .load load.word⟩
      spilled := s.spilled || !load.fits
      fn := { s.fn with
        code := s.fn.code.push load.word, lines := s.fn.lines.record s.lexer.lastLine,
        scopes := s.fn.scopes.push s.places
        meant := s.fn.meant.push [] } })
    (fun _ _ => trivial)
    (fun s hs => ⟨{ hs with fn := hs.fn.of_core rfl (hs.fn.meant.push Good.regular), floats := ?_ },
      .of_core rfl rfl⟩)
    (fun _ _ _ => rfl) fun _ _ _ => rfl)
  by_cases hfits : (Draft.asbx .loadF reg n.toInt).fits = true
  · refine hs.floats.imp (fun h => show (s.spilled || _) = true by rw [h, Bool.true_or])
      fun h u hu => ?_
    rcases Array.mem_push.1 hu with hu | rfl
    · exact h u hu
    · exact ⟨hx, by rw [Keeper.float?, Draft.sbx_asbx hfits, hx.ofInt_toInt64? hn, hx.of_value]⟩
  · exact .inl (by simp [hfits])

instance (reg : Nat) (x : Double) [h : Good x] : Acts levels (loadFloat reg x) := by
  unfold loadFloat
  dsimp only
  split
  · rename_i n hn
    split at hn
    · split at hn
      · cases hn
        exact acts_loadWhole h.regular ‹_›
      · cases hn
    · cases hn
  · infer_instance

instance (e : Exp) [Good e] (reg : Nat) : Acts levels (dischargeTo e reg) := by
  unfold dischargeTo
  refine .seq inferInstance fun e he => ?_
  dsimp only
  split
  case h_5 k hk =>
    have := ExpKind.goodEntry (Exp.goodKind he hk)
    infer_instance
  case h_6 x hk =>
    have := ExpKind.goodFloat (Exp.goodKind he hk)
    infer_instance
  all_goals infer_instance

instance (e : Exp) [Good e] : Acts levels (dischargeToAny e) := by
  unfold dischargeToAny
  split <;> infer_instance

instance (reg : Nat) (op : Opcode) : Acts levels (loadBool reg op) := by
  unfold loadBool
  infer_instance

instance (e : Exp) (reg : Nat) : Acts levels (loadBools e reg) := by
  have hload (past : Option Nat) : Acts levels (do
      let ifFalse ← loadBool reg .lFalseSkip
      let ifTrue ← loadBool reg .loadTrue
      patchToHere past
      return (some ifFalse, some ifTrue) : M (Option Nat × Option Nat)) := inferInstance
  have hjump : Acts levels (match e.kind with
      | .jump _ => do
        let past ← pure none
        let ifFalse ← loadBool reg .lFalseSkip
        let ifTrue ← loadBool reg .loadTrue
        patchToHere past
        return (some ifFalse, some ifTrue)
      | _ => do
        let past ← some <$> jump
        let ifFalse ← loadBool reg .lFalseSkip
        let ifTrue ← loadBool reg .loadTrue
        patchToHere past
        return (some ifFalse, some ifTrue) : M
          (Option Nat × Option Nat)) := by split <;> infer_instance
  unfold loadBools
  dsimp only
  infer_instance

instance (e : Exp) [Good e] (reg : Nat) : Acts levels (toRegister e reg) := by
  unfold toRegister
  refine .seq inferInstance fun e he => ?_
  dsimp only
  split <;> infer_instance

instance (e : Exp) [Good e] : Acts levels (toNextRegister e) := by
  unfold toNextRegister
  infer_instance

instance (e : Exp) [Good e] : Acts levels (toAnyRegister e) := by
  unfold toAnyRegister
  refine .seq inferInstance fun e he => ?_
  split <;> infer_instance

instance (e : Exp) [Good e] : Acts levels (toRegisterOrUpvalue e) := by
  unfold toRegisterOrUpvalue
  split <;> infer_instance

instance (e : Exp) [Good e] : Acts levels (toValue e) := by
  unfold toValue
  infer_instance

instance (e : Exp) [he : Good e] : Acts levels (toConstant? e) := by
  have hlimit (constant? : Allowed (Option PoolEntry)) : Acts levels (match constant?.val with
      | some k => return if k.index ≤ Instruction.maxB then some k else none
      | none => return none : M (Option PoolEntry)) := by
    obtain ⟨_ | k, hk⟩ := constant?
    · infer_instance
    · have : Good k := ⟨hk k rfl⟩
      infer_instance
  unfold toConstant?
  dsimp only
  split
  · infer_instance
  · split
    case h_5 x hk =>
      have := ExpKind.goodFloat (Exp.goodKind he hk)
      infer_instance
    case h_7 k hk =>
      have := ExpKind.goodEntry (Exp.goodKind he hk)
      infer_instance
    all_goals infer_instance

instance (e : Exp) [Good e] : Acts levels (toOperand e) := by
  unfold toOperand
  refine .seq inferInstance fun k hk => ?_
  cases k with
  | none => infer_instance
  | some k =>
    have := hk.of_some
    infer_instance

instance (op : Opcode) (a b : Nat) (e : Exp) [Good e] (meant : List Value) [Good meant] :
    Acts levels (emitWithOperand op a b e meant) := by
  unfold emitWithOperand
  infer_instance

instance (v e : Exp) [hv : Good v] [Good e] : Acts levels (storeTo v e) := by
  unfold storeTo
  split
  case h_3 hk =>
    have := (ExpKind.good_of_indexUp (Exp.goodKind hv hk)).1
    infer_instance
  case h_5 hk =>
    have := (ExpKind.good_of_indexStr (Exp.goodKind hv hk)).1
    infer_instance
  all_goals infer_instance

instance (e : Exp) [Good e] (name : Bytes) : Acts levels (emitSelf e name) := by
  unfold emitSelf
  infer_instance

instance (i : Nat) : Acts levels (ofFn (·.pool.values[i]?)) :=
  .of_single (.update (g := fun s => s.fn.pool.values[i]?) (h := id)
    (fun _ hs v hv => hs.fn.pool v (Array.mem_of_getElem? hv)) (fun s hs => ⟨hs, .refl s⟩)
      (fun _ _ _ => rfl) fun _ _ _ => rfl)

instance (k : Exp) [hk : Good k] : Acts levels (shortKey? k) := by
  unfold shortKey?
  split
  · rename_i hkonst
    have := ExpKind.goodEntry (Exp.goodKind hk hkonst)
    split
    · infer_instance
    · refine .seq inferInstance fun v _ => ?_
      cases v <;> infer_instance
  · infer_instance

instance (key : Exp) : Acts levels (noteLoad key) := by
  have : Acts levels (modify fun s => { s with lateLoad := true } : M Unit) := .modify
  unfold noteLoad
  split <;> infer_instance

theorem acts_access (table : Nat) (k : Exp) [Good k] (short? : Option PoolEntry) [hs : Good short?]
    (access : GlobalAccess)
    [Good access] : Acts levels (match short?, k.integer? with
      | some key, _ => return ⟨.indexStr table key access, none, none⟩
      | none, some n =>
        if 0 ≤ n && n ≤ 255 then return ⟨.indexInt table n.toInt.toNat, none, none⟩
        else return ⟨.indexed table (← toAnyRegister k) access, none, none⟩
      | none, none => return ⟨.indexed table (← toAnyRegister k) access, none, none⟩ : M Exp) := by
  cases short? with
  | some key =>
    have := hs.of_some
    infer_instance
  | none => cases k.integer? <;> infer_instance

instance (t k : Exp) [Good t] [Good k] : Acts levels (index t k) := by
  unfold index
  extract_lets of withKey
  have hkey (k : Exp) (hk : Good k) : Acts levels (withKey k) := by
    dsimp -zeta only [withKey]
    extract_lets withName
    have hname (name? : Option PoolEntry) (hname : Good name?) : Acts levels (withName name?) := by
      refine .seq inferInstance fun short? hshort => ?_
      have haccess (table : Nat) : Acts levels _ := acts_access table k short? ⟨false, name?⟩
      generalize t.kind = kind
      cases short? with
      | some key =>
        have := hshort.of_some
        cases kind <;> infer_instance
      | none =>
        cases kind <;> first
          | exact .seq inferInstance fun table _ => haccess table
          | infer_instance
    split
    · rename_i i hi
      have := ExpKind.goodEntry (Exp.goodKind hk hi)
      refine .seq inferInstance fun v _ => ?_
      rcases v with _ | (_ | _ | _ | _ | _) <;> exact .seq inferInstance hname
    · exact .seq inferInstance hname
  split
  · exact .seq inferInstance fun _ _ => .seq inferInstance hkey
  · exact .seq inferInstance hkey

instance (pc : Nat) : Acts levels (negateCondition pc) := by
  unfold negateCondition
  infer_instance

instance (e : Exp) [Good e] (cond : Bool) : Acts levels (jumpOn e cond) := by
  have hplain : Acts levels (do
      let e ← dischargeToAny e
      freeExp e
      match e.register? with
      | some r => testJump .testSet Instruction.noRegister r 0 cond.toNat
      | none => broken .indexInRange) :=
    .seq inferInstance fun e _ => .seq inferInstance fun _ _ => by
      cases e.register? <;> infer_instance
  unfold jumpOn
  dsimp only
  split <;> infer_instance

instance (e : Exp) [Good e] : Acts levels (goIfTrue e) := by
  unfold goIfTrue
  refine .seq inferInstance fun e _ => ?_
  dsimp only
  split <;> infer_instance

instance (e : Exp) [Good e] : Acts levels (goIfFalse e) := by
  unfold goIfFalse
  refine .seq inferInstance fun e _ => ?_
  dsimp only
  split <;> infer_instance

instance (e : Exp) [Good e] : Acts levels (emitNot e) := by
  unfold emitNot
  dsimp only
  split
  case h_9 | h_10 =>
    refine .seq inferInstance fun v _ => .seq inferInstance fun _ _ => ?_
    cases v.register? <;> infer_instance
  all_goals infer_instance

section

variable (e₁ e₂ : Exp) [Good e₁] [Good e₂] (line : Nat)

instance (op : Opcode) : Acts levels (emitUnary op e₁ line) := by
  unfold emitUnary
  infer_instance

instance (op : UnaryOp) : Acts levels (applyUnary op e₁ line) := by
  unfold applyUnary
  refine .seq inferInstance fun e _ => ?_
  dsimp only
  split
  case h_1 | h_2 =>
    split
    · rename_i hfold
      have : Good _ := ⟨regular_fold hfold⟩
      infer_instance
    · infer_instance
  all_goals infer_instance

instance (op : Opcode) (operand : Nat) (flip : Bool) (fallback : Opcode) (event : Event)
    (meant : List Value) [Good meant] :
    Acts levels (emitArith op e₁ e₂ operand flip line fallback event meant) := by
  unfold emitArith
  infer_instance

instance (op : ArithOp) : Acts levels (emitArithRegisters op e₁ e₂ line) := by
  unfold emitArithRegisters
  infer_instance

instance (op : Opcode) (n : Int64) (flip : Bool) (event : Event) :
    Acts levels (emitArithInteger op e₁ e₂ n flip line event) := by
  unfold emitArithInteger
  infer_instance

instance (op : Opcode) (event : Event) : Acts levels (emitArithNegated? op e₁ e₂ line event) := by
  unfold emitArithNegated?
  split <;> infer_instance

instance (op : ArithOp) (useConstant flip : Bool) :
    Acts levels (emitArithConstant op e₁ e₂ useConstant flip line) := by
  unfold emitArithConstant
  dsimp only
  split <;> refine .seq inferInstance fun constant? hk => ?_
  all_goals
    cases constant? with
    | none => infer_instance
    | some k =>
      have := hk.of_some
      cases arithConstantOpcode? op <;> infer_instance

instance (op : ArithOp) : Acts levels (emitCommutative op e₁ e₂ line) := by
  unfold emitCommutative
  dsimp only
  split <;> infer_instance

instance (op : ArithOp) : Acts levels (emitBitwise op e₁ e₂ line) := by
  unfold emitBitwise
  dsimp only
  infer_instance

instance (r₁ r₂ : Nat) : Acts levels (emitConcat r₁ r₂ line) := by
  unfold emitConcat
  dsimp only
  refine .seq inferInstance fun prev? _ => ?_
  cases prev? <;> infer_instance

instance (orEqual : Bool) : Acts levels (emitOrder orEqual e₁ e₂) := by
  unfold emitOrder
  dsimp only
  split <;> infer_instance

instance (equal : Bool) : Acts levels (emitEqual equal e₁ e₂) := by
  unfold emitEqual
  dsimp only
  split <;> refine .seq inferInstance fun r _ => ?_
  all_goals
    split
    · infer_instance
    · refine .seq inferInstance fun o ho => ?_
      cases o with
      | konst k =>
        have := Operand.goodEntry ho
        infer_instance
      | reg r => infer_instance

instance (op : BinaryOp) : Acts levels (prepareLeft op e₁) := by
  unfold prepareLeft
  refine .seq inferInstance fun e _ => ?_
  split <;> infer_instance

instance : Acts levels (emitShiftLeft e₁ e₂ line) := by
  unfold emitShiftLeft
  split
  · infer_instance
  · refine .seq inferInstance fun e? he => ?_
    cases e? with
    | none => infer_instance
    | some e =>
      have : Good e := ⟨he.regular e rfl⟩
      infer_instance

instance (op : ArithOp) : Acts levels (emitArithmetic op e₁ e₂ line) := by
  unfold emitArithmetic
  split
  case h_3 =>
    refine .seq inferInstance fun e? he => ?_
    cases e? with
    | none => infer_instance
    | some e =>
      have : Good e := ⟨he.regular e rfl⟩
      infer_instance
  case h_8 => split <;> infer_instance
  all_goals infer_instance

instance (op : BinaryOp) : Acts levels (applyBinary op e₁ e₂ line) := by
  unfold applyBinary
  refine .seq inferInstance fun e₂ _ => ?_
  split
  · split
    · rename_i hfold
      have : Good _ := ⟨regular_fold hfold⟩
      infer_instance
    · infer_instance
  case h_4 => exact .seq inferInstance fun r₂ _ => by cases e₁.register? <;> infer_instance
  all_goals infer_instance

end

end LuaChunk.Compile
