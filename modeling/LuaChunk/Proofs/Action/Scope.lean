import LuaChunk.Proofs.Action.Value
import LuaChunk.Compile.Statement

set_option autoImplicit false

namespace LuaChunk.Compile

open LuaChunk

variable {levels : Option Nat} {α β : Type}

theorem single_declare {v : Variable} (hv : v.value.Regular) :
    Single (fun _ : Unit => True) (modify fun s => { s with vars := s.vars.push v } : M Unit) := by
  refine .update (g := fun _ => ()) (h := fun s => { s with vars := s.vars.push v })
    (fun _ _ => trivial)
    (fun s hs => ⟨{ hs with vars := fun w hw => ?_ }, .of_core rfl rfl⟩) (fun _ _ _ => rfl)
      fun _ _ _ => rfl
  rcases Array.mem_push.1 hw with hw | rfl
  · exact hs.vars w hw
  · exact hv

instance (name : Option Bytes) (kind : VarKind) (declaredAt : Option Nat) (control : Bool) :
    Acts levels (declare name kind declaredAt control) := by
  have hpush : Acts levels (modify fun s =>
      { s with vars := s.vars.push { kind, name, declaredAt, control } } : M Unit) :=
    .of_single (single_declare trivial)
  exact hpush.seq fun _ _ => .get fun _ _ => inferInstance

instance (name : String) : Acts levels (declareHidden name) := by
  unfold declareHidden
  infer_instance

theorem acts_modifyVariable (i : Nat) {change : Variable → Variable}
    (h : ∀ v, v.value.Regular → (change v).value.Regular) : Acts levels
    (modifyVariable i change) := by
  have hset : Acts levels (modify fun s => { s with vars := s.vars.modify i change } : M Unit) := by
    refine .modify (h := fun s => { s with vars := s.vars.modify i change }) (fun _ => rfl)
      (fun _ => rfl) fun s hs v hv => ?_
    obtain ⟨k, hk, rfl⟩ := Array.mem_iff_getElem.1 hv
    rw [Array.getElem_modify]
    split
    · exact h _ (hs.vars _ (Array.getElem_mem _))
    · exact hs.vars _ (Array.getElem_mem _)
  unfold modifyVariable
  exact .get fun _ _ => inferInstance

theorem single_name {add : Builder → Builder} {name : Option Bytes} (hid : ∀ f, (add f).id = f.id)
    (hnested : ∀ f, (add f).nested = f.nested) (hpool : ∀ f, (add f).pool = f.pool)
    (hmeant : ∀ f, (add f).meant = f.meant)
    (htexts : ∀ f, (add f).texts.Perm (f.texts ++ name.toList)) :
    Single (fun _ : Unit => True) (do
      modifyFn add
      match name with
      | some s => stored (.text · s)
      | none => pure ()) := by
  have heq : (do
      modifyFn add
      match name with
      | some s => stored (.text · s)
      | none => pure () : M Unit) = fun s => .ok () { s with
        fn := add s.fn,
        stores := s.stores ++ (name.toList.map (Store.text (add s.fn).id)).toArray } := by
    funext s
    cases name with
    | none => exact congrArg (EStateM.Result.ok ()) (by simp)
    | some t => exact congrArg (EStateM.Result.ok ()) (by simp)
  rw [heq]
  refine .update (g := fun _ => ()) (fun _ _ => trivial) (fun s hs => ⟨{ hs with fn := ?_ }, ?_⟩)
    (fun _ _ _ => rfl) fun _ _ _ => rfl
  · exact ⟨by rw [show (add s.fn).pool = _ from hpool s.fn]; exact hs.fn.pool,
      by rw [show (add s.fn).nested = _ from hnested s.fn]; exact hs.fn.nested,
      by rw [show (add s.fn).meant = _ from hmeant s.fn]; exact hs.fn.meant⟩
  · refine ⟨rfl, rfl, rfl, hid s.fn, hnested s.fn, ⟨rfl, rfl⟩, name.toList, ?_, htexts s.fn⟩
    rw [hid]
    exact Array.toList_append

theorem acts_name [Regularity α] [Floatless α] {add : Builder → Builder} {name : Option Bytes}
    {a : α}
    (htexts : ∀ f, (add f).texts.Perm (f.texts ++ name.toList))
    (hid : ∀ f, (add f).id = f.id := by intros; rfl)
    (hnested : ∀ f, (add f).nested = f.nested := by intros; rfl)
    (hpool : ∀ f, (add f).pool = f.pool := by intros; rfl)
    (hmeant : ∀ f, (add f).meant = f.meant := by intros; rfl) : Acts levels (do
      modifyFn add
      match name with
      | some s => stored (.text · s)
      | none => pure ()
      return a) := by
  have h : Acts levels _ := .of_single (single_name hid hnested hpool hmeant htexts)
  have hseq := h.seq (f := fun _ => pure a) fun _ _ => inferInstance
  rw [bind_assoc] at hseq
  cases name <;> exact hseq

instance (v : Variable) (reg : Nat) : Acts levels (registerLocal v reg) := by
  unfold registerLocal
  refine .seq inferInstance fun place _ => acts_name fun f => ?_
  have h := textsOf_local f.pool.values (f.locals.map (·.name)) f.upvalues v.name
  rw [← show (f.locals.push
    ⟨v.name, v.kind, reg, f.locals.countP (·.stop.isNone), f.code.size, none⟩).map (·.name)
    = (f.locals.map (·.name)).push v.name from Array.map_push] at h
  exact h

theorem acts_modifyLocal (i : Nat) {change : Span → Span}
    (h : ∀ x, (change x).name = x.name := by intros; rfl) :
    Acts levels (modifyLocal i change) := by
  have hset : Acts levels (modifyFn fun f => { f with locals := f.locals.modify i change }) := by
    refine .modifyFn fun f => ?_
    have hnames : (f.locals.modify i change).map (·.name) = f.locals.map (·.name) := by
      refine Array.ext (by simp) fun k hk hk' => ?_
      rw [Array.getElem_map, Array.getElem_map, Array.getElem_modify]
      split
      · exact h _
      · rfl
    unfold Builder.core
    rw [hnames]
  unfold modifyLocal
  infer_instance

instance (n level : Nat) : Acts levels (activateFrom n level) := by
  have hactive : Acts levels (modifyFn fun f => { f with active := f.active + 1 }) := .modifyFn
  induction n generalizing level with
  | zero =>
    unfold activateFrom
    infer_instance
  | succ n ih =>
    have hset (place debug : Nat) :
        Acts levels (modifyVariable place fun v => { v with reg := level, debug }) :=
      acts_modifyVariable place fun _ => id
    unfold activateFrom
    refine .get fun _ _ => ?_
    dsimp only
    infer_instance

instance (n : Nat) : Acts levels (activate n) := by
  unfold activate
  infer_instance

instance (n : Nat) : Acts levels (activateUnplaced n) := .modifyFn

instance (n : Nat) : Acts levels (endScopes n) := by
  have hactive : Acts levels (modifyFn fun f => { f with active := f.active - 1 }) := .modifyFn
  have hstop (i pc : Nat) : Acts levels (modifyLocal i fun x => { x with stop := some pc }) :=
    acts_modifyLocal i
  induction n with
  | zero =>
    unfold endScopes
    infer_instance
  | succ n ih =>
    unfold endScopes
    exact .seq inferInstance fun _ _ => .get fun _ _ => inferInstance

instance (level : Nat) : Acts levels (removeVariables level) := by
  have hshrink (n : Nat) : Acts levels
      (modify fun s => { s with vars := s.vars.shrink (s.vars.size - n) } : M Unit) :=
    .modify (h := fun s => { s with vars := s.vars.shrink (s.vars.size - n) }) (fun _ => rfl)
      (fun _ => rfl)
      fun s hs v hv => by
        rw [← Array.mem_toList_iff, Array.toList_shrink] at hv
        exact hs.vars v (Array.mem_toList_iff.1 (List.mem_of_mem_take hv))
  unfold removeVariables
  exact .get fun _ _ => .seq inferInstance fun _ _ => .get fun _ _ => inferInstance

instance (p : Block → Bool) (change : Block → Block) : Acts levels (closeFirst p change) := by
  have hset (blocks : List Block) :
      Acts levels (modifyFn fun f => { f with blocks, needClose := true }) := .modifyFn
  unfold closeFirst
  refine .seq inferInstance fun blocks _ => ?_
  split <;> infer_instance

instance (index : Nat) : Acts levels (markCaptured index) :=
  inferInstanceAs (Acts levels (closeFirst _ _))

instance : Acts levels markToClose := inferInstanceAs (Acts levels (closeFirst _ _))

instance (name : Bytes) (m : Meaning) : Acts levels (noteMeaning name m) := .modify

instance (u : Upvalue) : Acts levels (noteCapture u) := .modify

instance (u : Upvalue) : Acts levels (addUpvalue u) := by
  have hpush (place : Nat) : Acts levels (do
      modifyFn fun f => { f with upvalues := f.upvalues.push u }
      match u.name with
      | some s => stored (.text · s)
      | none => pure ()
      return place) :=
    acts_name fun f => .of_eq (textsOf_upvalue f.pool.values (f.locals.map Span.name) f.upvalues u)
  unfold addUpvalue
  dsimp only at hpush ⊢
  infer_instance

instance (name : Bytes) : Acts levels (findUpvalue? name) := by
  unfold findUpvalue?
  refine .seq inferInstance fun ups _ => ?_
  split <;> infer_instance

instance (name : Bytes) (enclosing : Nat) (isBase : Bool) (d : Declared) :
    Acts levels (resolveFrom name enclosing isBase d) := by
  induction enclosing generalizing levels isBase d with
  | zero =>
    unfold resolveFrom
    refine .get fun s _ => ?_
    dsimp only
    split
    case h_3 =>
      refine .seq inferInstance fun i? _ => ?_
      split <;> infer_instance
    all_goals infer_instance
  | succ n ih =>
    unfold resolveFrom
    refine .get fun s _ => ?_
    dsimp only
    split
    case h_3 =>
      refine .seq inferInstance fun i? _ => ?_
      split
      · infer_instance
      · refine .seq inferInstance fun m _ => ?_
        split <;> infer_instance
    all_goals infer_instance

instance (name : Bytes) : Acts levels (resolve name) := by
  unfold resolve
  exact .get fun _ _ => inferInstance

instance (name : Bytes) : Acts levels (globalAccess name) := by
  unfold globalAccess
  refine .seq inferInstance fun m _ => .seq inferInstance fun _ _ => ?_
  dsimp only
  split <;> infer_instance

instance (name : Bytes) : Acts levels (variableExp name) := by
  unfold variableExp
  refine .seq inferInstance fun m _ => .seq inferInstance fun _ _ => ?_
  dsimp only
  split <;> infer_instance

instance (e : Exp) : Acts levels (readOnlyName? e) := by
  have hglobal (a : GlobalAccess) : Acts levels (do
      if a.readOnly then
        match a.name with
        | some k =>
          match (← MonadState.get).fn.pool.values[k.index]? with
          | some (.str s) => return some s
          | _ => broken .indexInRange
        | none => broken .indexInRange
      else return none : M (Option Bytes)) := by
    split
    · split
      · refine .get fun s _ => ?_
        split <;> infer_instance
      · infer_instance
    · infer_instance
  unfold readOnlyName?
  dsimp only
  split
  case h_3 =>
    refine .get fun s _ => ?_
    split <;> infer_instance
  all_goals first | exact hglobal _ | infer_instance

instance (name : Option Bytes) : Acts levels (noteTarget name) := .modify

instance (e : Exp) : Acts levels (noteWrite e) := by
  unfold noteWrite
  exact .seq inferInstance fun refused _ => .get fun s _ => .get fun t _ => .modify

instance (e : Exp) : Acts levels (checkReadOnly e) := by
  unfold checkReadOnly
  refine .seq inferInstance fun name? _ => ?_
  split <;> infer_instance

instance (name : Bytes) (line : Nat) : Acts levels (addGoto name line) := by
  unfold addGoto
  exact .seq inferInstance fun pc _ => .seq inferInstance fun _ _ => .modify

instance : Acts levels currentBlock := by
  unfold currentBlock
  refine .seq inferInstance fun blocks _ => ?_
  split <;> infer_instance

instance (name : Bytes) (line : Nat) (isLast : Bool) : Acts levels (addLabel name line isLast) := by
  have hpush (pc level : Nat) : Acts levels
      (modify fun s => { s with labels := s.labels.push ⟨name, pc, line, level, false⟩ } :
      M Unit) := .modify
  unfold addLabel
  dsimp only
  infer_instance

instance [Regularity α] (g : Label) : Acts levels (jumpIntoScope g : M α) := by
  unfold jumpIntoScope
  infer_instance

instance (pc level : Nat) : Acts levels (spliceClose pc level) := by
  unfold spliceClose
  infer_instance

instance (g label : Label) (captured : Bool) : Acts levels (resolveGoto g label captured) := by
  unfold resolveGoto
  dsimp only
  infer_instance

instance (b : Block) (gotos : List Label) : Acts levels (resolveGotos b gotos) := by
  induction gotos with
  | nil =>
    unfold resolveGotos
    infer_instance
  | cons g rest ih =>
    unfold resolveGotos
    refine .get fun s _ => ?_
    split <;> infer_instance

instance (b : Block) : Acts levels (solveGotos b) := by
  have hwaiting : Acts levels
      (modifyGet fun s => ((s.gotos.extract b.firstGoto s.gotos.size).toList, s) :
      M (List Label)) :=
    .of_single (.update (g := fun s => (s.gotos.extract b.firstGoto s.gotos.size).toList)
      (h := fun s => s)
      (fun _ _ => Good.regular) (fun s hs => ⟨hs, .refl s⟩) (fun _ _ _ => rfl) fun _ _ _ => rfl)
  have hforget : Acts levels
      (modify fun s => { s with gotos := s.gotos.shrink b.firstGoto } : M Unit) := .modify
  have hkeep (left : List Label) :
      Acts levels (modify fun s => { s with gotos := s.gotos ++ left.toArray } : M Unit) := .modify
  have hlabels : Acts levels
      (modify fun s => { s with labels := s.labels.shrink b.firstLabel } : M Unit) := .modify
  unfold solveGotos
  exact .seq hwaiting fun _ _ => .seq hforget fun _ _ => .seq inferInstance fun _ _ =>
    .seq inferInstance fun _ _ =>
    .get fun s _ => inferInstance

instance (loop : Loop) : Acts levels (enterBlock loop) := by
  have hpush (b : Block) : Acts levels (modifyFn fun f => { f with blocks := b :: f.blocks }) :=
    .modifyFn
  unfold enterBlock
  refine .get fun s _ => ?_
  dsimp only
  infer_instance

instance [Regularity α] (g : Label) : Acts levels (noLabel g : M α) := by
  unfold noLabel
  infer_instance

instance : Acts levels leaveBlock := by
  have hleave (rest : List Block) : Acts levels (modifyFn fun f => { f with blocks := rest }) :=
    .modifyFn
  unfold leaveBlock
  refine .get fun s _ => ?_
  cases s.fn.blocks with
  | nil => infer_instance
  | cons b rest =>
    dsimp only
    cases rest with
    | nil =>
      simp only [List.isEmpty_nil, Bool.not_true, Bool.false_and, Bool.false_eq_true, if_false,
        if_true]
      refine .seq inferInstance fun level _ => .seq inferInstance fun _ _ => ?_
      split
      all_goals
        repeat refine .seq inferInstance fun _ _ => ?_
        refine .get fun s _ => ?_
        split <;> infer_instance
    | cons c rest =>
      simp only [List.isEmpty_cons, Bool.not_false, Bool.true_and, Bool.false_eq_true, if_false]
      infer_instance

instance : Acts levels markBroken := by
  have hset (blocks : List Block) : Acts levels (modifyFn fun f => { f with blocks }) := .modifyFn
  unfold markBroken
  refine .seq inferInstance fun blocks _ => ?_
  split <;> infer_instance

instance : Acts levels closeFunction := by
  have hpush : Acts levels (modify fun s => { s with
      closings :=
        s.closings.push ⟨s.fn.code, s.fn.aims, s.fn.locals, s.fn.scopes, s.fn.meant⟩ } : M Unit) :=
    .of_single (.update (g := fun _ => ())
      (h := fun s => { s with
        closings := s.closings.push ⟨s.fn.code, s.fn.aims, s.fn.locals, s.fn.scopes, s.fn.meant⟩ })
      (fun _ _ => trivial) (fun s hs =>
        ⟨{ hs with
          closings :=
            fun c hc => (Array.mem_push.1 hc).elim (hs.closings c) fun h => h ▸ hs.fn.meant },
        .of_core rfl rfl⟩) (fun _ _ _ => rfl) fun _ _ _ => rfl)
  have hfinish (marks : ReturnMarks) :
      Acts levels (onCode fun code => (JumpList.finish marks code).map (·, ())) :=
    inferInstanceAs (Acts levels (onCode _))
  unfold closeFunction
  infer_instance

instance (numParams : Nat) : Acts levels (setVararg numParams) := by
  have hset : Acts levels (modifyFn fun f => { f with isVararg := true }) := .modifyFn
  unfold setVararg
  infer_instance

instance : Acts levels emitClosure := by
  unfold emitClosure
  infer_instance

end LuaChunk.Compile
