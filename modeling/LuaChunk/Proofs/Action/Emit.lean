import LuaChunk.Proofs.Action.Built
import LuaChunk.Proofs.Code.Fields

set_option autoImplicit false

namespace LuaChunk.Compile

open LuaChunk

variable {levels : Option Nat}

instance (fits : Bool) : Acts levels (noteFits fits) :=
  .modify (h := fun s => { s with spilled := s.spilled || !fits }) (fun _ => rfl) (fun _ => rfl)
    (fun _ hs => hs.vars) (fun _ => rfl)
    fun s (hs : s.spilled = true) => by rw [hs, Bool.true_or]

instance : Acts levels here := inferInstanceAs (Acts levels (ofFn _))

instance : Acts levels freeReg := inferInstanceAs (Acts levels (ofFn _))

instance (r : Nat) : Acts levels (setFreeReg r) := .modifyFn

instance (d : Draft) (meant : List Value) [h : Good meant] : Acts levels (emit d meant) := by
  have hpush (line : Nat) (places : List (Nat × Option Bytes)) : Acts levels
      (modifyFn fun f => { f with
        code := f.code.push d.word, lines := f.lines.record line, scopes := f.scopes.push places,
        meant := f.meant.push meant }) :=
    .modifyRows fun _ hm => hm.push h.regular
  exact Acts.seq inferInstance fun _ _ => .get fun _ _ => .get fun _ _ => inferInstance

instance (op : Opcode) (a b c k : Nat) (meant : List Value) [Good meant] :
    Acts levels (emitABCk op a b c k meant) :=
  inferInstanceAs (Acts levels (emit _ meant))

instance (op : Opcode) (a b c : Nat) (meant : List Value) [Good meant] :
    Acts levels (emitABC op a b c meant) :=
  inferInstanceAs (Acts levels (emit _ meant))

instance (op : Opcode) (a bx : Nat) (meant : List Value) [Good meant] :
    Acts levels (emitABx op a bx meant) :=
  inferInstanceAs (Acts levels (emit _ meant))

instance (line : Nat) : Acts levels (fixLine line) := by
  have : Acts levels (modifyFn fun f => { f with lines := f.lines.fixLast line }) := .modifyFn
  unfold fixLine
  infer_instance

instance : Acts levels removeLast := by
  have : Acts levels (modifyFn fun f => { f with
      code := f.code.pop, lines := f.lines.removeLast, scopes := f.scopes.pop,
      meant := f.meant.pop }) :=
    .modifyRows fun _ hm => hm.pop
  unfold removeLast
  infer_instance

instance (pc : Nat) : Acts levels (instructionAt pc) := by
  unfold instructionAt
  refine .seq inferInstance fun i _ => ?_
  cases i <;> infer_instance

instance (pc : Nat) (change : Instruction → Instruction) : Acts levels (modifyAt pc change) := by
  have : Acts levels (modifyFn fun f => { f with code := f.code.modify pc change }) := .modifyFn
  unfold modifyAt
  infer_instance

instance (pc : Nat) (changes : List (Instruction.Field × Nat)) :
    Acts levels (setAt pc changes) := by
  unfold setAt
  infer_instance

instance (pc : Nat) (d : Draft) : Acts levels (replaceAt pc d) := by
  unfold replaceAt
  infer_instance

instance : Acts levels previous? := inferInstanceAs (Acts levels (ofFn _))

instance (changes : List (Instruction.Field × Nat)) : Acts levels (setLast changes) := by
  unfold setLast
  infer_instance

instance (reg : Nat) (k : PoolEntry) [Good k] : Acts levels (emitK reg k) := by
  unfold emitK
  infer_instance

instance (start n : Nat) : Acts levels (loadNil start n) := by
  unfold loadNil
  refine .seq inferInstance fun i _ => ?_
  split <;> infer_instance

instance (first : Nat) (count : Option Nat) : Acts levels (emitReturn first count) := by
  unfold emitReturn
  split <;> infer_instance

instance : Acts levels markTarget := by
  have : Acts levels (modifyFn fun f => { f with lastTarget := f.code.size }) := .modifyFn
  unfold markTarget
  infer_instance

section

variable {α : Type} [Regularity α] [Floatless α]

instance (act : JumpList.Code → Except JumpList.Fault (JumpList.Code × α)) :
    Acts levels (onCode act) := by
  have htake : Acts levels (modifyGet fun s =>
      (s.fn.code, { s with fn := { s.fn with code := #[] } }) : M JumpList.Code) :=
    .of_single (.update (g := fun s => s.fn.code)
      (h := fun s => { s with fn := { s.fn with code := #[] } }) (fun _ _ => trivial)
      (fun s hs => ⟨hs.of_core rfl rfl rfl hs.vars rfl id, .of_core rfl rfl⟩) (fun _ _ _ => rfl)
        fun _ _ _ => rfl)
  have hput (code : JumpList.Code) : Acts levels (modifyFn fun f => { f with code }) := .modifyFn
  unfold onCode
  refine .seq htake fun code _ => ?_
  split <;> infer_instance

end

instance (used : List (Option Nat)) : Acts levels (noteLists used) :=
  .modify (h := fun s => { s with moments := fun m => s.moments m ∨ m = s.moment used })

instance (pc : Nat) : Acts levels (hold pc) := .modifyFn

instance (list : Option Nat) : Acts levels (giveUp list) := .modifyFn

instance : Acts levels jump := by
  unfold jump
  infer_instance

instance (first second : Option Nat) : Acts levels (appendJumps first second) := by
  unfold appendJumps
  infer_instance

instance (list : Option Nat) (valueTarget : Nat) (reg plainTarget : Option Nat) :
    Acts levels (aimJumps list valueTarget reg plainTarget) := by
  have haim (aims : List (Nat × Nat)) :
      Acts levels (modifyFn fun f => { f with aims := aims ++ f.aims }) := .modifyFn
  unfold aimJumps
  infer_instance

instance (list : Option Nat) (target : Nat) : Acts levels (patchList list target) :=
  inferInstanceAs (Acts levels (aimJumps list target none (some target)))

instance (list : Option Nat) (target reg : Nat) (plain : Option Nat) :
    Acts levels (patchValues list target reg plain) := by
  unfold patchValues
  infer_instance

instance (list : Option Nat) : Acts levels (patchToHere list) := by
  unfold patchToHere
  infer_instance

instance (target : Nat) : Acts levels (jumpTo target) := by
  unfold jumpTo
  infer_instance

instance (op : Opcode) (a b c k : Nat) (meant : List Value) [Good meant] :
    Acts levels (testJump op a b c k meant) := by
  unfold testJump
  infer_instance

instance (list : Option Nat) : Acts levels (needsValue list) := by
  unfold needsValue
  infer_instance

instance (list : Option Nat) : Acts levels (removeValues list) := by
  unfold removeValues
  infer_instance

instance (n : Nat) : Acts levels (registerLevel n) := by
  unfold registerLevel
  refine .get fun s _ => ?_
  cases registersOf s.vars s.fn.firstVar n <;> infer_instance

instance : Acts levels activeRegisters := by
  unfold activeRegisters
  infer_instance

instance (n : Nat) : Acts levels (checkStack n) := by
  have hset (size : Nat) : Acts levels (modifyFn fun f => { f with maxStack := size }) := .modifyFn
  unfold checkStack
  infer_instance

instance (n : Nat) : Acts levels (reserve n) := by
  have : Acts levels (modifyFn fun f => { f with freeReg := f.freeReg + n }) := .modifyFn
  unfold reserve
  infer_instance

instance (reg : Nat) : Acts levels (freeRegister reg) := by
  unfold freeRegister
  infer_instance

instance (r₁ r₂ : Nat) : Acts levels (freeRegisters r₁ r₂) := by
  unfold freeRegisters
  infer_instance

def State.pooled (s : State) (key : PoolKey) (v : Value) : State :=
  { s with
    fn := { s.fn with pool := s.fn.pool.push key v }
    stores := match v with
      | .str t => s.stores.push (.text s.fn.id t)
      | _ => s.stores }

def State.keep (s : State) (k : Nat) : Value → State
  | .num (.float x) => { s with floats := s.floats.push ⟨x, .entry s.fn.pool.values[k]?⟩ }
  | _ => s

theorem placeConstant_eq (key : PoolKey) (v : Value) (s : State) : placeConstant key v s =
    match s.fn.pool.find? key v with
    | some k => .ok k s
    | none =>
      if Instruction.maxAx ≤ s.fn.pool.values.size then limitError Instruction.maxAx "constants" s
      else .ok s.fn.pool.values.size (s.pooled key v) := by
  have hread {α β : Type} (g : Builder → α) (f : α → M β) (s : State) :
      (ofFn g >>= f) s = f (g s.fn) s := rfl
  have hlimit {α β : Type} (f : α → M β) :
      ((limitError Instruction.maxAx "constants" : M α) >>= f) s
    = limitError Instruction.maxAx "constants" s := rfl
  unfold placeConstant
  rw [hread]
  cases s.fn.pool.find? key v with
  | some k => rfl
  | none =>
    dsimp only
    rw [hread]
    split
    · exact hlimit _
    · cases v <;> rfl

theorem addConstant_eq (key : PoolKey) (v : Value) (s : State) : addConstant key v s =
    match placeConstant key v s with
    | .ok k t => .ok ⟨k, v⟩ (t.keep k v)
    | .error e t => .error e t := by
  unfold addConstant
  show EStateM.bind _ _ _ = _
  unfold EStateM.bind
  cases placeConstant key v s with
  | error e t => rfl
  | ok k t =>
    rcases v with _ | _ | (_ | _) | _ | _
    all_goals rfl

theorem ConstantPool.find?_exact {p : ConstantPool} {key : PoolKey} {x : Double} {k : Nat}
    (hp : ∀ v ∈ p.values, v.Regular)
    (hx : Binary64.Regular x) (h : p.find? key (.num (.float x)) = some k) : p.values[k]? =
    some (.num (.float x)) := by
  obtain ⟨w, hw, hsame⟩ := ConstantPool.find?_sound h
  have hr := hp w (Array.mem_of_getElem? hw)
  unfold ConstantPool.sameConstant at hsame
  obtain ⟨htag, hraw⟩ := Bool.and_eq_true_iff.1 hsame
  rcases w with _ | (_ | _) | (_ | y) | _ | t
  case num.float => rw [hw, hr.eq_of_beq hx hraw]
  case unknown => exact hr.elim
  all_goals cases hraw

theorem State.Clean.keep {s : State} (hs : s.Clean) {k : Nat} {v : Value} (hv : v.Regular)
    (hk : ∀ x, v = .num (.float x) → s.fn.pool.values[k]? = some v) : (s.keep k v).Clean ∧
    Touches s (s.keep k v) := by
  rcases v with _ | _ | (_ | x) | _ | _
  case num.float =>
    have hkept : FloatUse.Kept ⟨x, .entry s.fn.pool.values[k]?⟩ := ⟨hv, by rw [hk x rfl]; rfl⟩
    refine ⟨{ hs with floats := hs.floats.imp_right fun h u hu => ?_ }, .of_core rfl rfl⟩
    rcases Array.mem_push.1 hu with hu | rfl
    · exact h u hu
    · exact hkept
  all_goals exact ⟨hs, .refl s⟩

theorem State.Clean.pooled {s : State} (hs : s.Clean) (key : PoolKey) {v : Value} (hv : v.Regular) :
    (s.pooled key v).Clean ∧ Touches s (s.pooled key v) := by
  refine ⟨{ hs with fn := ⟨fun w hw => ?_, hs.fn.nested, hs.fn.meant⟩ }, rfl, rfl, rfl, rfl, rfl,
    ⟨rfl, rfl⟩, v.text?.toList, ?_, textsOf_constant ..⟩
  · rcases Array.mem_push.1 hw with hw | rfl
    · exact hs.fn.pool w hw
    · exact hv
  · cases v
    case str t => exact Array.toList_push
    all_goals exact (List.append_nil _).symm

theorem single_addConstant {key : PoolKey} {v : Value} (hv : v.Regular) :
    Single (regular : PoolEntry → Prop) (addConstant key v) where
  ok s k t hs h := by
    rw [addConstant_eq, placeConstant_eq] at h
    split at h
    · rename_i k' t' hplace
      cases h
      split at hplace
      · rename_i hfind
        cases hplace
        refine ⟨hv, hs.keep hv fun x hx => ?_⟩
        subst hx
        exact ConstantPool.find?_exact hs.fn.pool hv hfind
      · split at hplace
        · cases hplace
        · cases hplace
          obtain ⟨hplaced, hstep⟩ := hs.pooled key hv
          obtain ⟨hkept, hstep'⟩ := hplaced.keep (k := s.fn.pool.values.size) hv fun x _ =>
            Array.getElem?_push_size
          exact ⟨hv, hkept, hstep.trans hstep'⟩
    · cases h
  error s e t _ h := by
    rw [addConstant_eq, placeConstant_eq] at h
    split at h
    · cases h
    · rename_i hplace
      cases h
      split at hplace
      · cases hplace
      · split at hplace
        · cases hplace
          exact ⟨.refl s, nofun⟩
        · cases hplace
  continued s x k := by
    have hplace : placeConstant key v (s.continued x k) = inState (·.continued x k)
        (placeConstant key v s) := by
      rw [placeConstant_eq, placeConstant_eq, show (s.continued x k).fn = s.fn from rfl]
      cases s.fn.pool.find? key v with
      | some n => rfl
      | none =>
        by_cases hfull : Instruction.maxAx ≤ s.fn.pool.values.size <;>
          simp only [hfull, if_true, if_false] <;> rfl
    have hkeep (s : State) (n : Nat) : (s.continued x k).keep n v = (s.keep n v).continued x k := by
      rcases v with _ | _ | (_ | _) | _ | _ <;> rfl
    rw [addConstant_eq, addConstant_eq, hplace]
    cases placeConstant key v s with
    | ok n t => exact congrArg (EStateM.Result.ok _) (hkeep t n)
    | error e t => rfl

instance (key : PoolKey) (v : Value) [h : Good v] : Acts levels (addConstant key v) :=
  .of_single (single_addConstant h.regular)

instance (s : Bytes) : Acts levels (stringK s) := inferInstanceAs (Acts levels (addConstant _ _))

instance (n : Int64) : Acts levels (intK n) := inferInstanceAs (Acts levels (addConstant _ _))

instance (x : Double) [Good x] : Acts levels (floatK x) :=
  inferInstanceAs (Acts levels (addConstant _ _))

instance (b : Bool) : Acts levels (boolK b) := inferInstanceAs (Acts levels (addConstant _ _))

instance : Acts levels nilK := inferInstanceAs (Acts levels (addConstant _ _))

end LuaChunk.Compile
