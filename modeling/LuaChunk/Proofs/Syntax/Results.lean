import LuaChunk.Proofs.Compile.Value
import LuaChunk.Compile.Expression

set_option autoImplicit false

namespace LuaChunk.Compile

open LuaChunk

variable {α β : Type}

/-- Whatever an action results in satisfies a condition. -/
structure Results (P : α → Prop) (m : M α) : Prop where
  holds : ∀ (s : State) (a : α) (s' : State), m s = .ok a s' → P a

namespace Results

variable {P Q : α → Prop} {m m' : M α} {f : β → M α}

theorem mono (h : Results P m) (hi : ∀ a, P a → Q a) : Results Q m :=
  ⟨fun s a s' hm => hi a (h.holds s a s' hm)⟩

theorem pure {a : α} (h : P a) : Results P (Pure.pure a : M α) := by
  refine ⟨fun s b s' hm => ?_⟩
  cases hm
  exact h

theorem broken (a : Assertion) : Results P (broken a : M α) := ⟨fun _ _ _ hm => by cases hm⟩

theorem fail (kind : ErrorKind) (message near : Bytes) : Results P (fail kind message near : M α) :=
  ⟨fun _ _ _ hm => by cases hm⟩

theorem bind {n : M β} {R : β → Prop} (hn : Results R n) (h : ∀ b, R b → Results P (f b)) :
    Results P (n >>= f) := by
  refine ⟨fun s a s' hm => ?_⟩
  have hm : EStateM.bind n f s = .ok a s' := hm
  unfold EStateM.bind at hm
  cases hb : n s with
  | error e t =>
    rw [hb] at hm
    cases hm
  | ok b t =>
    rw [hb] at hm
    exact (h b (hn.holds s b t hb)).holds t a s' hm

theorem seq {n : M β} (h : ∀ b, Results P (f b)) : Results P (n >>= f) :=
  bind ⟨fun _ _ _ _ => trivial⟩ fun b (_ : True) => h b

theorem map {n : M β} {g : β → α} (h : ∀ b, P (g b)) : Results P (g <$> n) := by
  rw [map_eq_pure_bind]
  exact seq fun b => pure (h b)

theorem ite {c : Prop} [Decidable c] (h : c → Results P m) (h' : ¬ c → Results P m') :
    Results P (if c then m else m') := by
  split
  · exact h ‹_›
  · exact h' ‹_›

theorem bind_congr {g g' : α → M β} (h : Results P m) (hg : ∀ a, P a → g a = g' a) :
    (m >>= g) = m >>= g' := by
  funext s
  show EStateM.bind m g s = EStateM.bind m g' s
  unfold EStateM.bind
  cases hm : m s with
  | error e t => rfl
  | ok a t =>
    dsimp only
    rw [hg a (h.holds s a t hm)]

end Results

/-- Whether an expression is neither a variable nor something with any number of values. -/
structure Exp.IsValue (e : Exp) : Prop where
  notVariable : e.isVariable = false
  notMulti : e.isMulti = false

theorem dischargeVars_value {e : Exp} (h : e.IsValue) : dischargeVars e = pure e := by
  obtain ⟨kind, _, _⟩ := e
  cases kind <;> first
    | rfl
    | exact Bool.noConfusion h.notVariable
    | exact Bool.noConfusion h.notMulti

theorem Exp.isValue_ofValue (v : Value) (t f : Option Nat) : Exp.IsValue ⟨.ofValue v, t, f⟩ := by
  cases v with
  | bool b => cases b <;> exact ⟨rfl, rfl⟩
  | num n => cases n <;> exact ⟨rfl, rfl⟩
  | _ => exact ⟨rfl, rfl⟩

theorem results_dischargeVars (e : Exp) : Results Exp.IsValue (dischargeVars e) := by
  have hone : e.isMulti = true → Results Exp.IsValue (setOneReturn e) := by
    intro h
    obtain ⟨kind, _, _⟩ := e
    cases kind with
    | call pc => exact .seq fun i => .pure ⟨rfl, rfl⟩
    | vararg pc => exact .seq fun _ => .pure ⟨rfl, rfl⟩
    | _ => cases h
  obtain ⟨kind, t, f⟩ := e
  cases kind with
  | constVar i => exact .seq fun v => .pure (Exp.isValue_ofValue _ _ _)
  | upvalue | indexUp => exact .map fun pc => ⟨rfl, rfl⟩
  | indexInt | indexStr | indexed => exact .seq fun _ => .map fun pc => ⟨rfl, rfl⟩
  | call pc => exact hone rfl
  | vararg pc => exact hone rfl
  | _ => exact .pure ⟨rfl, rfl⟩

theorem Exp.isValue_ofNumber (n : Number) : (Exp.ofNumber n).IsValue := by
  cases n <;> exact ⟨rfl, rfl⟩

theorem fold?_isValue {op : ArithOp} {e₁ e₂ e : Exp} (h : fold? op e₁ e₂ = some e) : e.IsValue := by
  have hn : ∃ n, e = .ofNumber n := by
    unfold fold? at h
    grind
  obtain ⟨n, rfl⟩ := hn
  exact Exp.isValue_ofNumber n

theorem results_emitUnary (op : Opcode) (e : Exp) (line : Nat) :
    Results Exp.IsValue (emitUnary op e line) :=
  .seq fun _ => .seq fun _ => .seq fun _ => .seq fun _ => .pure ⟨rfl, rfl⟩

theorem results_emitNot (e : Exp) : Results Exp.IsValue (emitNot e) := by
  have hrest : ∀ kind : ExpKind, (⟨kind, none, none⟩ : Exp).IsValue → Results Exp.IsValue (do
      removeValues e.whenTrue
      removeValues e.whenFalse
      return ⟨kind, e.whenFalse, e.whenTrue⟩) :=
    fun kind h => .seq fun _ => .seq fun _ => .pure ⟨h.notVariable, h.notMulti⟩
  unfold emitNot
  dsimp only
  split
  case h_9 | h_10 =>
    refine .seq fun v => .seq fun _ => ?_
    cases v.register? with
    | none => exact .bind (.broken _) hrest
    | some r => exact .bind (.map fun pc => ⟨rfl, rfl⟩) hrest
  case h_8 => exact .seq fun _ => hrest _ ⟨rfl, rfl⟩
  case h_11 => exact .bind (.broken _) hrest
  all_goals exact hrest _ ⟨rfl, rfl⟩

theorem results_applyUnary (op : UnaryOp) (e : Exp) (line : Nat) :
    Results Exp.IsValue (applyUnary op e line) := by
  refine .seq fun e => ?_
  cases op with
  | minus =>
    dsimp only
    split
    case h_1 e' he => exact .pure (fold?_isValue he)
    · exact results_emitUnary ..
  | bnot =>
    dsimp only
    split
    case h_1 e' he => exact .pure (fold?_isValue he)
    · exact results_emitUnary ..
  | len => exact results_emitUnary ..
  | not => exact results_emitNot _

theorem results_emitArith (op : Opcode) (e₁ e₂ : Exp) (operand : Nat) (flip : Bool) (line : Nat)
    (fallback : Opcode)
    (event : Event) (meant : List Value) : Results Exp.IsValue
    (emitArith op e₁ e₂ operand flip line fallback event meant) :=
  .seq fun _ => .seq fun _ => .seq fun _ => .seq fun _ => .seq fun _ => .seq fun _ =>
    .pure ⟨rfl, rfl⟩

theorem results_emitArithRegisters (op : ArithOp) (e₁ e₂ : Exp) (line : Nat) :
    Results Exp.IsValue (emitArithRegisters op e₁ e₂ line) := .seq fun _ => results_emitArith ..

theorem results_emitArithNegated? (op : Opcode) (e₁ e₂ : Exp) (line : Nat) (event : Event) :
    Results (fun e? => ∀ e, e? = some e → e.IsValue) (emitArithNegated? op e₁ e₂ line event) := by
  unfold emitArithNegated?
  split
  · exact .pure (by rintro _ ⟨⟩)
  · refine .ite (fun _ => ?_) fun _ => .pure (by rintro _ ⟨⟩)
    refine .bind (results_emitArith ..) fun e he => .seq fun _ => .pure ?_
    rintro _ ⟨⟩
    exact he

theorem results_emitArithConstant (op : ArithOp) (e₁ e₂ : Exp) (useConstant flip : Bool)
    (line : Nat) :
    Results Exp.IsValue (emitArithConstant op e₁ e₂ useConstant flip line) := by
  unfold emitArithConstant
  dsimp only
  split <;> refine .seq fun constant? => ?_
  all_goals
    split
    · exact results_emitArith ..
    · exact .ite (fun _ => results_emitArithRegisters ..) fun _ => results_emitArithRegisters ..

theorem results_emitArithmetic (op : ArithOp) (e₁ e₂ : Exp) (line : Nat) :
    Results Exp.IsValue (emitArithmetic op e₁ e₂ line) := by
  have hcommutative : Results Exp.IsValue (emitCommutative op e₁ e₂ line) := by
    unfold emitCommutative
    dsimp only
    split
    · exact results_emitArith ..
    · exact results_emitArithConstant ..
  have hshift : Results Exp.IsValue (emitShiftLeft e₁ e₂ line) := by
    unfold emitShiftLeft
    split
    · exact results_emitArith ..
    · refine .bind (results_emitArithNegated? ..) fun e? he => ?_
      cases e? with
      | some e => exact .pure (he e rfl)
      | none => exact results_emitArithRegisters ..
  have hbitwise : Results Exp.IsValue (emitBitwise op e₁ e₂ line) := results_emitArithConstant ..
  unfold emitArithmetic
  split
  case h_3 =>
    refine .bind (results_emitArithNegated? ..) fun e? he => ?_
    cases e? with
    | some e => exact .pure (he e rfl)
    | none => exact results_emitArithConstant ..
  case h_8 =>
    split
    · exact results_emitArith ..
    · exact results_emitArithRegisters ..
  all_goals
    first | exact hcommutative | exact hbitwise | exact hshift | exact results_emitArithConstant ..

theorem results_emitOrder (orEqual : Bool) (e₁ e₂ : Exp) :
    Results Exp.IsValue (emitOrder orEqual e₁ e₂) := by
  unfold emitOrder
  dsimp only
  split
  · exact .seq fun _ => .seq fun _ => .seq fun _ => .pure ⟨rfl, rfl⟩
  · exact .seq fun _ => .seq fun _ => .seq fun _ => .pure ⟨rfl, rfl⟩
  · exact .seq fun _ => .seq fun _ => .seq fun _ => .seq fun _ => .pure ⟨rfl, rfl⟩

theorem results_emitEqual (equal : Bool) (e₁ e₂ : Exp) :
    Results Exp.IsValue (emitEqual equal e₁ e₂) := by
  unfold emitEqual
  dsimp only
  split <;> refine .seq fun r => ?_
  all_goals
    split
    · exact .seq fun _ => .seq fun _ => .pure ⟨rfl, rfl⟩
    · refine .seq fun o => ?_
      cases o <;> exact .seq fun _ => .seq fun _ => .pure ⟨rfl, rfl⟩

theorem results_emitConcat (r₁ r₂ line : Nat) : Results Exp.IsValue (emitConcat r₁ r₂ line) := by
  unfold emitConcat
  dsimp only
  refine .seq fun prev? => ?_
  split
  · exact .ite (fun _ => .seq fun _ => .seq fun _ => .pure ⟨rfl, rfl⟩) fun _ => .seq fun _ =>
      .pure ⟨rfl, rfl⟩
  · exact .seq fun _ => .pure ⟨rfl, rfl⟩

theorem results_applyBinary (op : BinaryOp) (e₁ e₂ : Exp) (line : Nat) :
    Results Exp.IsValue (applyBinary op e₁ e₂ line) := by
  refine .bind (results_dischargeVars e₂) fun e hv => ?_
  cases op with
  | arith op =>
    dsimp only
    split
    case h_1 e' he => exact .pure (fold?_isValue he)
    · exact results_emitArithmetic ..
  | and => exact .seq fun list => .pure ⟨hv.notVariable, hv.notMulti⟩
  | or => exact .seq fun list => .pure ⟨hv.notVariable, hv.notMulti⟩
  | concat =>
    refine .seq fun r₂ => ?_
    cases e₁.register? with
    | some r₁ => exact results_emitConcat ..
    | none => exact .broken _
  | eq | ne => exact results_emitEqual ..
  | lt | le | gt | ge => exact results_emitOrder ..

theorem Results.noting {P : Exp → Prop} {m : M Exp} (h : Results P m) (name : Option Bytes) :
    Results P (do let e ← m; noteTarget name; return e) :=
  .bind h fun _ he => .seq fun _ => .pure he

theorem results_unaryExp (op : UnaryOp) (e : Exp) (line : Nat) :
    Results Exp.IsValue (unaryExp op e line) :=
  (results_applyUnary ..).noting none

theorem results_binaryExp (op : BinaryOp) (e₁ e₂ : Exp) (line : Nat) :
    Results Exp.IsValue (binaryExp op e₁ e₂ line) :=
  (results_applyBinary ..).noting none

theorem Exp.isMulti_of_isVariable {e : Exp} (h : e.isVariable = true) : e.isMulti = false := by
  obtain ⟨kind, _, _⟩ := e
  cases kind <;> first | rfl | cases h

theorem results_index (t k : Exp) : Results (fun e => e.isVariable = true) (index t k) := by
  unfold index
  dsimp only
  repeat' first
    | exact .pure rfl
    | exact .broken _
    | refine .seq fun _ => ?_
    | split

theorem Exp.isVariable_readOnly (e : Exp) : e.readOnly.isVariable = e.isVariable := by
  obtain ⟨kind, _, _⟩ := e
  cases kind <;> rfl

theorem results_globalAccess (name : Bytes) : Results (fun e => e.isVariable = true)
    (globalAccess name) := by
  unfold globalAccess
  refine .seq fun m => .seq fun _ => ?_
  dsimp only
  split <;> first
    | exact .seq fun _ => results_index ..
    | exact .seq fun _ => .seq fun _ => results_index ..

theorem results_variableExp (name : Bytes) : Results (fun e => e.isVariable = true)
    (variableExp name) := by
  unfold variableExp
  refine .seq fun m => .seq fun _ => ?_
  have hglobal : ∀ place : Nat, Results (fun e => e.isVariable = true) (do
      let e ← globalAccess name
      return if (← variableAt place).kind = .constGlobal then e.readOnly else e) := by
    intro place
    refine .bind (results_globalAccess name) fun e he => .seq fun v => .pure ?_
    split
    · rw [Exp.isVariable_readOnly]
      exact he
    · exact he
  dsimp only
  split
  case h_4 | h_5 => exact hglobal _
  case h_6 => exact .bind (results_globalAccess name) fun e he => .pure he
  case h_7 => exact .fail ..
  all_goals exact .pure rfl

theorem results_readVariable (name : Bytes) : Results (fun e => e.isVariable = true)
    (readVariable name) :=
  (results_variableExp name).noting _

end LuaChunk.Compile
