import LuaChunk.Proofs.Compile.Tokens

set_option autoImplicit false

namespace LuaChunk

open JumpList (Code IsOp Chain)

namespace Compile

/-- What statements keep: the scopes that were there before. -/
structure Advances (s s' : State) : Prop extends Stays s s' where
  firstVar : s'.fn.firstVar = s.fn.firstVar
  firstLabel : s'.fn.firstLabel = s.fn.firstLabel
  active : s.fn.active ≤ s'.fn.active
  vars : ∀ k < s.fn.firstVar + s.fn.active, s'.vars[k]? = s.vars[k]?
  labels : s.labels.size ≤ s'.labels.size ∧ ∀ k < s.labels.size, s'.labels[k]? = s.labels[k]?
  gotos : s.gotos.size ≤ s'.gotos.size ∧ ∀ k < s.gotos.size, s'.gotos[k]? = s.gotos[k]?
  blocks : s'.fn.blocks.map Block.scope = s.fn.blocks.map Block.scope

namespace Advances

theorem refl (s : State) : Advances s s :=
  { Stays.refl s with
    firstVar := rfl
    firstLabel := rfl
    active := Nat.le_refl _
    vars := fun _ _ => rfl
    labels := ⟨Nat.le_refl _, fun _ _ => rfl⟩
    gotos := ⟨Nat.le_refl _, fun _ _ => rfl⟩
    blocks := rfl }

theorem trans {s s' s'' : State} (h : Advances s s') (h' : Advances s' s'') : Advances s s'' :=
  { h.toStays.trans h'.toStays with
    firstVar := h'.firstVar.trans h.firstVar
    firstLabel := h'.firstLabel.trans h.firstLabel
    active := Nat.le_trans h.active h'.active
    vars := fun k hk => by
      have := h.active
      rw [h'.vars k (by rw [h.firstVar]; omega), h.vars k hk]
    labels := ⟨Nat.le_trans h.labels.1 h'.labels.1, fun k hk => by
      rw [h'.labels.2 k (Nat.lt_of_lt_of_le hk h.labels.1), h.labels.2 k hk]⟩
    gotos := ⟨Nat.le_trans h.gotos.1 h'.gotos.1, fun k hk => by
      rw [h'.gotos.2 k (Nat.lt_of_lt_of_le hk h.gotos.1), h.gotos.2 k hk]⟩
    blocks := h'.blocks.trans h.blocks }

end Advances

theorem Keeps.advances {s s' : State} (h : Keeps s s') : Advances s s' :=
  { h.toStays with
    firstVar := h.firstVar
    firstLabel := congrArg FnScope.firstLabel h.scope
    active := Nat.le_of_eq h.active.symm
    vars := fun k _ => by rw [h.vars]
    labels := by rw [h.labels]; exact ⟨Nat.le_refl _, fun _ _ => rfl⟩
    gotos := by rw [h.gotos]; exact ⟨Nat.le_refl _, fun _ _ => rfl⟩
    blocks := congrArg FnScope.blocks h.scope }

/-- A relation between the states before and after an action that may declare variables. -/
class Declaring (R : State → State → Prop) : Prop extends Wide R where
  advances : ∀ {s s' : State}, Advances s s' → R s s'

instance : Steps Advances := ⟨Advances.refl, Advances.trans, fun h => h.toLogs⟩

instance : Frame Advances := ⟨fun h => h.toKeeps.advances⟩

instance : Wide Advances := ⟨Keeps.advances⟩

instance : Declaring Advances := ⟨id⟩

instance : Declaring Stays := ⟨Advances.toStays⟩

theorem Via.further {R R' : State → State → Prop} {α : Type} {m : M α} {s : State}
    {Q : α → State → Prop}
    (h : Via R m s Q) (hi : ∀ s', R s s' → R' s s') : Via R' m s fun a s' => R s s' ∧ Q a s' :=
  (h.mono fun _ _ hr hq => And.intro hr hq).weaken hi

theorem Via.of_step {R : State → State → Prop} [Steps R] {α : Type} {m m' : M α} {s s' : State}
    {Q : α → State → Prop} (he : m s = m' s') (hr : R s s') (h : Via R m' s' Q) : Via R m s Q := by
  unfold Via at h ⊢
  rw [he]
  split at h
  · exact ⟨Steps.trans hr h.1, h.2⟩
  · exact h.after (Steps.logs hr)

variable {F : List Pending} {s : State} {live : Nat → Prop} {o : Option Nat} {vars : Array Variable}
  {active : Nat} {locals : Array Span} {stores : Array Store} {R : State → State → Prop}

def State.rescope (s : State) (vars : Array Variable) (active : Nat) (locals : Array Span)
    (stores : Array Store) : State :=
  { s with vars, stores, fn := { s.fn with active, locals } }

/-- The declarations of a function fit to each other and to what is recorded of its variables. -/
structure Declarations (vars : Array Variable) (f : LocalView) : Prop where
  placed : Placed vars f.firstVar f.active f.locals.size
  tracked : Tracked vars f
  controls : Controls vars

/-- No block, label or goto has more than `n` declarations active. -/
structure State.Reaches (s : State) (n : Nat) : Prop where
  blocks : ∀ b ∈ s.fn.scope.blocks, b.level ≤ n
  labels : ∀ k l, s.fn.firstLabel ≤ k → s.labels[k]? = some l → l.level ≤ n
  gotos : ∀ k g, s.fn.scope.firstGoto ≤ k → s.gotos[k]? = some g → g.level ≤ n

theorem Base.placed (h : Base s) : Placed s.vars s.fn.firstVar s.fn.active s.fn.locals.size :=
  h.scopes.placed

theorem Base.declarations (h : Base s) : Declarations s.vars s.fn.localView :=
  ⟨h.placed, h.tracked, h.controls⟩

theorem Base.reaches (h : Base s) {n : Nat} (hn : s.fn.active ≤ n) : s.Reaches n where
  blocks b hb := Nat.le_trans (h.scopes.inside b hb).1 hn
  labels k l hk hl := Nat.le_trans (h.scopes.labels k l hk hl).1 hn
  gotos k g hk hg := Nat.le_trans (h.scopes.gotos k g hk hg).1 hn

theorem State.rescope_waiting (hb : Base s) (hr : s.Reaches active)
    (hv : ∀ k, k < s.fn.firstVar + s.fn.active → k < s.fn.firstVar + active →
    vars[k]? = s.vars[k]?) :
    (s.rescope vars active locals stores).waiting = s.waiting := by
  have hlevel : ∀ n ≤ s.fn.active, n ≤ active →
      levelOf vars s.fn.firstVar n = levelOf s.vars s.fn.firstVar n :=
    fun n h₁ h₂ => levelOf_congr fun k hk => hv _ (by omega) (by omega)
  unfold State.waiting Compile.waiting
  congr 1
  · apply List.map_congr_left
    intro g hg
    obtain ⟨k, hk⟩ := List.mem_iff_getElem?.1 hg
    rw [List.getElem?_drop, Array.getElem?_toList] at hk
    have h₁ := (hb.scopes.gotos _ g (Nat.le_add_right _ _) hk).1
    have h₂ := hr.gotos _ g (Nat.le_add_right _ _) hk
    exact congrArg (Pending.goto g.pc) (hlevel _ h₁ h₂)
  · apply List.map_congr_left
    intro l hl
    obtain ⟨k, hk⟩ := List.mem_iff_getElem?.1 hl
    rw [List.getElem?_drop, Array.getElem?_toList] at hk
    have h₁ := (hb.scopes.labels _ l (Nat.le_add_right _ _) hk).1
    have h₂ := hr.labels _ l (Nat.le_add_right _ _) hk
    exact congrArg (Pending.target l.pc) (hlevel _ h₁ h₂)

theorem Base.rescope (hb : Base s) (hd : Declarations vars { s.fn.localView with active, locals })
    (hr : s.Reaches active)
    (hv : ∀ k < s.fn.firstVar, vars[k]? = s.vars[k]?) : Base
    (s.rescope vars active locals stores) := by
  have henc := hb.enclosed
  have hp := hd.placed
  have hrange := hp.range
  refine { hb with
    tracked := hd.tracked
    controls := hd.controls
    scopes :=
      ⟨hp, hb.scopes.outermost, hb.scopes.sorted,
        fun b hm => ⟨hr.blocks b hm, (hb.scopes.inside b hm).2⟩,
      hb.scopes.within, fun k l hk hl => ⟨hr.labels k l hk hl, (hb.scopes.labels k l hk hl).2⟩,
      fun k g hk hg => ⟨hr.gotos k g hk hg, (hb.scopes.gotos k g hk hg).2⟩⟩
    enclosed := ⟨hrange, henc.2⟩
    linked := ?_ }
  exact Linked.congr hb.linked (Enclosed.within henc.2.2.2.2)
    (Nat.le_trans (Nat.le_add_right _ _) hrange) hv rfl

theorem Inv.rescope (hi : Inv F o live s)
    (hd : Declarations vars { s.fn.localView with active, locals })
    (hr : s.Reaches active)
    (hv : ∀ k, k < s.fn.firstVar + s.fn.active → k < s.fn.firstVar + active →
    vars[k]? = s.vars[k]?) :
    Inv F o live (s.rescope vars active locals stores) := by
  refine ⟨hi.base.rescope hd hr fun k hk => hv k (by omega) (by omega), ?_, ?_⟩
  · rw [State.rescope_waiting hi.base hr hv]
    exact hi.sound
  · rw [State.rescope_waiting hi.base hr hv]
    exact hi.held

theorem Advances.rescope (ha : s.fn.active ≤ active)
    (hv : ∀ k < s.fn.firstVar + s.fn.active, vars[k]? = s.vars[k]?) :
    Advances s (s.rescope vars active locals stores) :=
  { Advances.refl s with active := ha, vars := hv }

theorem Stays.rescope : Stays s (s.rescope vars active locals stores) := { Stays.refl s with }

def State.declare (s : State) (v : Variable) : State := { s with vars := s.vars.push v }

theorem push_same {α : Type} {xs : Array α} {n : Nat} (x : α) (hn : n ≤ xs.size) :
    ∀ k < n, (xs.push x)[k]? = xs[k]? := by
  intro k hk
  rw [Array.getElem?_push_lt (by omega), Array.getElem?_eq_getElem (by omega)]

theorem Advances.declare (hb : Base s) (v : Variable) : Advances s (s.declare v) :=
  { Advances.refl s with vars := push_same v hb.scopes.placed.range }

theorem Declarations.congr {f : LocalView} {vars' : Array Variable} (h : Declarations vars f)
    (hs : f.firstVar + f.active ≤ vars'.size)
    (hv : ∀ k < f.active, vars'[f.firstVar + k]? = vars[f.firstVar + k]?)
    (hc : Controls vars') : Declarations vars' f :=
  ⟨h.placed.shorten (Nat.le_refl _) hs hv, h.tracked.congr hv, hc⟩

theorem Controls.push {v : Variable} (h : Controls vars)
    (hv : v.control = true → v.kind.isReadOnly = true) :
    Controls (vars.push v) := by
  intro k w hw
  rw [Array.getElem?_push] at hw
  split at hw
  · cases hw
    exact hv
  · exact h k w hw

theorem Controls.modify {i : Nat} {change : Variable → Variable} (h : Controls vars)
    (hc : ∀ v, (v.control = true → v.kind.isReadOnly = true) →
      (change v).control = true → (change v).kind.isReadOnly = true) :
      Controls (vars.modify i change) := by
  intro k w hw
  rw [Array.getElem?_modify] at hw
  split at hw
  · obtain ⟨v, hv, rfl⟩ := Option.map_eq_some_iff.1 hw
    exact hc v (h k v hv)
  · exact h k w hw

theorem Inv.declare (hi : Inv F o live s) (v : Variable)
    (hc : v.control = true → v.kind.isReadOnly = true) : Inv F o live (s.declare v) := by
  have hp := hi.base.placed
  have hsame := push_same v hp.range
  refine Inv.rescope (s := s) hi
    (hi.base.declarations.congr ?_ (fun k (hk : k < s.fn.active) => hsame _ ?_)
    (hi.base.controls.push hc)) (hi.base.reaches (Nat.le_refl _)) fun k hk _ => hsame k hk
  · rw [Array.size_push]
    exact Nat.le_succ_of_le hp.range
  · exact Nat.add_lt_add_left hk _

theorem Via.declare [Declaring R] {name : Option Bytes} {kind : VarKind} {declaredAt : Option Nat}
    {control : Bool}
    {Q : Nat → State → Prop} (hb : Base s)
    (h : Q (s.vars.size - s.fn.firstVar) (s.declare { kind, name, declaredAt, control })) :
    Via R (Compile.declare name kind declaredAt control) s Q := by
  unfold Compile.declare
  refine Via.next ⟨Declaring.advances (Advances.declare hb _), Via.next (Via.get (Via.pure ?_))⟩
  show Q ((s.vars.push _).size - 1 - s.fn.firstVar) _
  rw [Array.size_push, Nat.add_sub_cancel]
  exact h

theorem Via.declareHidden [Declaring R] {name : String} {Q : Unit → State → Prop} (hb : Base s)
    (h : ∀ l, s.Passes l → Q ()
    ((s.setLexer l).declare { kind := .regular, name := some (utf8 name) })) :
    Via R (Compile.declareHidden name) s Q := by
  unfold Compile.declareHidden
  exact Via.next (Via.intern hb fun l hl => Via.discard (Via.declare (hb.setLexer hl) (h l hl)))

theorem Via.modifyVariable [Steps R] {i : Nat} {change : Variable → Variable}
    {Q : Unit → State → Prop}
    (hi : i < s.vars.size) (hr : R s { s with vars := s.vars.modify i change })
    (h : Q () { s with vars := s.vars.modify i change }) : Via R (Compile.modifyVariable i change) s
    Q := by
  unfold Compile.modifyVariable
  refine Via.next (Via.get ?_)
  rw [if_pos hi]
  exact ⟨hr, h⟩

/-- The local variable that begins here with a declaration, in the register `level`. -/
def State.span (s : State) (v : Variable) (level : Nat) : Span :=
  ⟨v.name, v.kind, level, s.fn.locals.countP (·.stop.isNone), s.fn.code.size, none⟩

def State.activateOne (s : State) (v : Variable) (level : Nat) : State :=
  s.rescope (s.vars.modify (s.fn.firstVar + s.fn.active) fun v =>
    { v with reg := level, debug := s.fn.locals.size })
    (s.fn.active + 1) (s.fn.locals.push (s.span v level))
    (match v.name with
      | some text => s.stores.push (.text s.fn.id text)
      | none => s.stores)

theorem registerLocal_eq {v : Variable} {level : Nat} :
    registerLocal v level s =
      .ok s.fn.locals.size (s.rescope s.vars s.fn.active (s.fn.locals.push (s.span v level))
      (match v.name with
        | some text => s.stores.push (.text s.fn.id text)
        | none => s.stores)) := by
  obtain ⟨kind, name⟩ := v
  cases name <;> rfl

theorem modifyVariable_eq {i : Nat} {change : Variable → Variable} (hi : i < s.vars.size) :
    modifyVariable i change s = .ok () { s with vars := s.vars.modify i change } := by
  show (if i < s.vars.size then _ else _ : M Unit) s = _
  rw [if_pos hi]
  rfl

theorem activateFrom_succ {n level : Nat} {v : Variable}
    (hv : s.vars[s.fn.firstVar + s.fn.active]? = some v) :
    activateFrom (n + 1) level s
      = (do
          if maxLocals < level + 1 then limitError maxLocals "local variables"
          activateFrom n (level + 1) : M Unit) (s.activateOne v level) := by
  obtain ⟨hlt, -⟩ := Array.getElem?_eq_some_iff.1 hv
  rw [activateFrom]
  refine (bind_eq (m := get) (a := s) rfl).trans ?_
  refine (@bind_eq _ _ (modifyFn _) _ () s (s.rescope s.vars (s.fn.active + 1) s.fn.locals s.stores)
    rfl).trans ?_
  refine (bind_eq (@variableAt_eq (s.rescope s.vars (s.fn.active
    + 1) s.fn.locals s.stores) _ v hv)).trans ?_
  refine (bind_eq registerLocal_eq).trans ?_
  exact bind_eq (modifyVariable_eq hlt)

/-- What the declarations are after the next `n` have become active. -/
structure Activated (s : State) (n : Nat) (vars : Array Variable) (locals : Array Span) : Prop where
  size : vars.size = s.vars.size
  same : ∀ k, k < s.fn.firstVar + s.fn.active ∨ s.fn.firstVar + s.fn.active + n ≤ k →
    vars[k]? = s.vars[k]?
  decls : Declarations vars { s.fn.localView with active := s.fn.active + n, locals }
  level : levelOf vars s.fn.firstVar (s.fn.active + n) = s.level + n
  limit : n = 0 ∨ s.level + n ≤ maxLocals
  kinds : ∀ (k : Nat) (v : Variable), s.vars[k]? = some v → ∃ w, vars[k]? = some w ∧ w.kind = v.kind
  begun : ∃ xs : List Span, locals.toList = s.fn.locals.toList ++ xs ∧ xs.length = n ∧
    ∀ x ∈ xs, x.start = s.fn.code.size ∧ x.stop = none

def State.Declared (s : State) (n : Nat) : Prop :=
  ∀ k < n, ∃ v, s.vars[s.fn.firstVar + s.fn.active + k]? = some v ∧ v.kind.inRegister = true

theorem Placed.activate {firstVar numLocals : Nat} {v : Variable}
    (hp : Placed s.vars firstVar active numLocals) (hv : s.vars[firstVar + active]? = some v)
    (hr : v.kind.inRegister = true) (hlim : levelOf s.vars firstVar active < maxLocals) :
    let vars := s.vars.modify (firstVar + active) fun v =>
      { v with reg := levelOf s.vars firstVar active, debug := numLocals }
    Placed vars firstVar (active + 1) (numLocals + 1) ∧
      levelOf vars firstVar (active + 1) = levelOf s.vars firstVar active + 1 := by
  intro vars
  have hnew : vars[firstVar + active]? =
      some { v with reg := levelOf s.vars firstVar active, debug := numLocals } := by
    simp only [vars, Array.getElem?_modify, if_true, hv, Option.map_some]
  have hsame : ∀ k < active, vars[firstVar + k]? = s.vars[firstVar + k]? := by
    intro k hk
    simp only [vars, Array.getElem?_modify]
    rw [if_neg (by omega)]
  obtain ⟨hlt, -⟩ := Array.getElem?_eq_some_iff.1 hv
  have hold := registersOf_congr hsame
  refine ⟨⟨by simp only [vars, Array.size_modify]; omega, ?_⟩, ?_⟩
  · intro k w hk hw hrw
    by_cases hka : k = active
    · subst hka
      rw [hnew] at hw
      cases hw
      rw [hold, hp.registersOf_eq (Nat.le_refl _)]
      exact ⟨rfl, Nat.lt_succ_self _, hlim⟩
    · have hk' : k < active := by omega
      rw [hsame k hk'] at hw
      obtain ⟨h₁, h₂⟩ := hp.reg k w hk' hw hrw
      rw [registersOf_congr fun j hj => hsame j (by omega)]
      exact ⟨h₁, by omega, h₂.2⟩
  · have hs := registersOf_succ hnew
    unfold levelOf at hs ⊢
    rw [hs, if_pos hr]
    rfl

theorem Via.activateFrom [Declaring R] {n level : Nat} {Q : Unit → State → Prop} (hb : Base s)
    (hl : level = s.level) (hd : s.Declared n)
    (h : ∀ vars locals stores, Activated s n vars locals →
    Q () (s.rescope vars (s.fn.active + n) locals stores)) :
    Via R (Compile.activateFrom n level) s Q := by
  induction n generalizing s level with
  | zero =>
    exact Via.pure (h s.vars s.fn.locals s.stores
      ⟨rfl, fun _ _ => rfl, hb.declarations, rfl, .inl rfl,
      fun _ v hv => ⟨v, hv, rfl⟩, [], (List.append_nil _).symm, rfl, List.forall_mem_nil _⟩)
  | succ n ih =>
    obtain ⟨v, hv, hr⟩ := hd 0 (Nat.succ_pos n)
    subst hl
    have hsame : ∀ k, k ≠ s.fn.firstVar + s.fn.active →
        (s.activateOne v s.level).vars[k]? = s.vars[k]? := by
      intro k hk
      show (s.vars.modify _ _)[k]? = _
      rw [Array.getElem?_modify, if_neg (by omega)]
    have hadv : Advances s (s.activateOne v s.level) :=
      .rescope (Nat.le_succ _) fun k hk => hsame k (by omega)
    refine Via.of_step (activateFrom_succ hv) (Declaring.advances hadv) ?_
    refine Via.ite (fun _ => Via.next Via.limitError) fun hlim => ?_
    obtain ⟨hplaced, hlevel⟩ := hb.placed.activate hv hr (show s.level < maxLocals by omega)
    have hbase : Base (s.activateOne v s.level) := by
      refine hb.rescope ⟨?_, hb.tracked.activate hb.placed hv hr, hb.controls.modify fun _ hc => hc⟩
        (hb.reaches (Nat.le_succ _)) fun k hk => hsame k (by omega)
      show Placed _ s.fn.firstVar (s.fn.active + 1) (s.fn.locals.push _).size
      rw [Array.size_push]
      exact hplaced
    refine ih hbase hlevel.symm ?_ ?_
    · intro k hk
      obtain ⟨w, hw, hrw⟩ := hd (k + 1) (by omega)
      refine ⟨w, ?_, hrw⟩
      show (s.activateOne v s.level).vars[s.fn.firstVar + (s.fn.active + 1) + k]? = some w
      rw [hsame _ (by omega), ← hw]
      exact congrArg (s.vars[·]?) (by omega)
    · intro vars locals stores ha
      have hactive : (s.activateOne v s.level).fn.active + n = s.fn.active + (n + 1) := by
        show s.fn.active + 1 + n = _
        omega
      have hlev : (s.activateOne v s.level).level = s.level + 1 := hlevel
      rw [hactive]
      refine h vars locals stores ⟨?_, ?_, hactive ▸ ha.decls, ?_, .inr ?_, ?_, ?_⟩
      · rw [ha.size]
        exact Array.size_modify ..
      · intro k hk
        rw [ha.same k
          (by
            show k < s.fn.firstVar + (s.fn.active + 1) ∨ s.fn.firstVar + (s.fn.active + 1) + n ≤ k
            omega),
          hsame k (by omega)]
      · rw [← hactive]
        refine ha.level.trans ?_
        rw [hlev]
        omega
      · rcases ha.limit with rfl | hlim'
        · omega
        · rw [hlev] at hlim'
          omega
      · intro k w hw
        by_cases hk : k = s.fn.firstVar + s.fn.active
        · subst hk
          refine ha.kinds _ { w with reg := s.level, debug := s.fn.locals.size } ?_
          show (s.vars.modify (s.fn.firstVar + s.fn.active) _)[s.fn.firstVar + s.fn.active]? = _
          rw [Array.getElem?_modify, if_pos rfl, hw]
          rfl
        · exact ha.kinds k w ((hsame k hk).trans hw)
      · obtain ⟨xs, hxs, hlen, hall⟩ := ha.begun
        refine ⟨s.span v s.level :: xs,
          ?_, by rw [List.length_cons, hlen], List.forall_mem_cons.2 ⟨⟨rfl, rfl⟩, hall⟩⟩
        rw [hxs, State.activateOne, State.rescope, Array.toList_push, List.append_assoc]
        rfl

theorem Via.activate [Declaring R] {n : Nat} {Q : Unit → State → Prop} (hb : Base s)
    (hd : s.Declared n)
    (h : ∀ vars locals stores, Activated s n vars locals →
    Q () (s.rescope vars (s.fn.active + n) locals stores)) :
    Via R (Compile.activate n) s Q :=
  Via.next (Via.activeRegisters hb (Via.activateFrom hb rfl hd h))

theorem Activated.inv {n : Nat} (h : Activated s n vars locals) (hi : Inv F o live s) :
    Inv F o live (s.rescope vars (s.fn.active + n) locals stores) :=
  hi.rescope h.decls (hi.base.reaches (Nat.le_add_right _ _)) fun k hk _ => h.same k (.inl hk)

theorem Placed.extend {firstVar numLocals n : Nat} (hp : Placed vars firstVar active numLocals)
    (hd : ∀ k < n, ∃ v, vars[firstVar + active + k]? = some v ∧ v.kind.inRegister = false) :
    Placed vars firstVar (active + n) numLocals ∧
      levelOf vars firstVar (active + n) = levelOf vars firstVar active := by
  induction n with
  | zero => exact ⟨hp, rfl⟩
  | succ n ih =>
    obtain ⟨hp', hl'⟩ := ih fun k hk => hd k (by omega)
    obtain ⟨v, hv, hr⟩ := hd n (Nat.lt_succ_self n)
    rw [Nat.add_assoc] at hv
    obtain ⟨hlt, -⟩ := Array.getElem?_eq_some_iff.1 hv
    refine ⟨⟨by omega, ?_⟩, ?_⟩
    · intro k w hk hw hrw
      by_cases hka : k = active + n
      · subst hka
        cases hv.symm.trans hw
        rw [hr] at hrw
        cases hrw
      · exact hp'.reg k w (by omega) hw hrw
    · rw [← hl']
      show levelOf vars firstVar (active + n + 1) = _
      unfold levelOf
      rw [registersOf_succ hv, hr]
      rfl

theorem Via.activateUnplaced [Declaring R] {n : Nat} {Q : Unit → State → Prop}
    (h : Q () (s.rescope s.vars (s.fn.active + n) s.fn.locals s.stores)) :
    Via R (Compile.activateUnplaced n) s Q :=
  ⟨Declaring.advances (.rescope (Nat.le_add_right _ _) fun _ _ => rfl), h⟩

theorem Inv.activateUnplaced {n : Nat} (hi : Inv F o live s)
    (hd : ∀ k < n, ∃ v, s.vars[s.fn.firstVar + s.fn.active + k]? = some v ∧
    v.kind.inRegister = false) :
    Inv F o live (s.rescope s.vars (s.fn.active + n) s.fn.locals s.stores) :=
  hi.rescope ⟨(hi.base.placed.extend hd).1, hi.base.tracked.extend hd, hi.base.controls⟩
    (hi.base.reaches (Nat.le_add_right _ _)) fun _ _ _ => rfl

theorem Via.modifyLocal [Declaring R] {i : Nat} {change : Span → Span} {Q : Unit → State → Prop}
    (hi : i < s.fn.locals.size)
    (h : Q () (s.rescope s.vars s.fn.active (s.fn.locals.modify i change) s.stores)) :
    Via R (Compile.modifyLocal i change) s Q := by
  unfold Compile.modifyLocal
  refine Via.next (Via.ofFn ?_)
  rw [if_pos hi]
  exact ⟨Declaring.advances (.rescope (Nat.le_refl _) fun _ _ => rfl), h⟩

theorem Declarations.endScope {f : LocalView} {n : Nat} {v : Variable} (h : Declarations vars f)
    (ha : n + 1 = f.active)
    (hv : vars[f.firstVar + n]? = some v) :
    Declarations vars { f with
      active := n
      locals :=
        if v.kind.inRegister then f.locals.modify v.debug fun x => { x with stop := some f.size }
        else f.locals } := by
  have hrange := h.placed.range
  have hplaced : Placed vars f.firstVar n f.locals.size :=
    h.placed.shorten (by omega) (by omega) fun _ _ => rfl
  split
  · rename_i hr
    refine ⟨?_, h.tracked.close ha hv hr, h.controls⟩
    rw [Array.size_modify]
    exact hplaced
  · rename_i hr
    exact ⟨hplaced, h.tracked.unskip ha hv (by simpa using hr), h.controls⟩

theorem Via.endScopes {n : Nat} {Q : Unit → State → Prop} (hb : Base s) (hn : n ≤ s.fn.active)
    (hr : s.Reaches (s.fn.active - n))
    (h : ∀ locals, Declarations s.vars { s.fn.localView with active := s.fn.active - n, locals } →
      locals.size = s.fn.locals.size → Q () (s.rescope s.vars (s.fn.active - n) locals s.stores)) :
    Via Stays (Compile.endScopes n) s Q := by
  induction n generalizing s with
  | zero => exact Via.pure (h s.fn.locals hb.declarations rfl)
  | succ n ih =>
    have hrange := hb.placed.range
    have hreach : s.Reaches (s.fn.active - 1) := by
      refine ⟨fun b hb => ?_, fun k l hk hl => ?_, fun k g hk hg => ?_⟩
      · exact Nat.le_trans (hr.blocks b hb) (by omega)
      · exact Nat.le_trans (hr.labels k l hk hl) (by omega)
      · exact Nat.le_trans (hr.gotos k g hk hg) (by omega)
    have hrest : ∀ locals : Array Span,
        Declarations s.vars { s.fn.localView with active := s.fn.active - 1, locals } →
        locals.size = s.fn.locals.size →
        Via Stays (Compile.endScopes n) (s.rescope s.vars (s.fn.active - 1) locals s.stores) Q := by
      intro locals hd hs
      have hactive : s.fn.active - 1 - n = s.fn.active - (n + 1) := by omega
      refine ih (hb.rescope hd hreach fun _ _ => rfl) ?_ ?_ ?_
      · show n ≤ s.fn.active - 1
        omega
      · show State.Reaches _ (s.fn.active - 1 - n)
        rw [hactive]
        exact ⟨hr.blocks, hr.labels, hr.gotos⟩
      · intro locals' hd' hs'
        have := h locals'
        rw [← hactive] at this
        exact this hd' (hs'.trans hs)
    unfold Compile.endScopes
    refine Via.next ⟨.rescope, Via.next (Via.get (Via.next ?_))⟩
    refine Via.ownVariable (show s.fn.firstVar + (s.fn.active - 1) < s.vars.size by omega)
      fun v hv => ?_
    have hd := hb.declarations.endScope (n := s.fn.active - 1) (Nat.sub_add_cancel (by omega)) hv
    refine Via.ite (fun hreg => ?_) fun hreg => ?_
    · have hdebug : v.debug < s.fn.locals.size :=
        (hb.placed.reg (s.fn.active - 1) v (by omega) hv hreg).2.1
      rw [if_pos hreg] at hd
      refine Via.next (Via.here (Via.next ?_))
      exact Via.modifyLocal (s := s.rescope s.vars (s.fn.active - 1) s.fn.locals s.stores) hdebug
        (hrest _ hd (Array.size_modify ..))
    · rw [if_neg hreg] at hd
      exact hrest s.fn.locals hd rfl

theorem getElem?_shrink {α : Type} {xs : Array α} {n k : Nat} (hk : k < n) :
    (xs.shrink n)[k]? = xs[k]? := by
  rw [← Array.getElem?_toList, Array.toList_shrink, List.getElem?_take, if_pos hk,
    Array.getElem?_toList]

theorem Via.removeVariables {level : Nat} {Q : Unit → State → Prop} (hb : Base s)
    (hs : s.vars.size = s.fn.firstVar + s.fn.active) (hl : level ≤ s.fn.active)
    (hr : s.Reaches level)
    (h : ∀ vars locals, vars.size = s.fn.firstVar + level →
      (∀ k < s.fn.firstVar + level, vars[k]? = s.vars[k]?) →
      Declarations vars { s.fn.localView with active := level, locals } →
      Q () (s.rescope vars level locals s.stores)) :
    Via Stays (Compile.removeVariables level) s Q := by
  unfold Compile.removeVariables
  refine Via.next (Via.get (Via.next ?_))
  have hactive : s.fn.active - (s.fn.active - level) = level := by omega
  refine Via.endScopes hb (Nat.sub_le _ _) (hactive.symm ▸ hr) fun locals hd _ => ?_
  rw [hactive] at hd ⊢
  refine Via.next (Via.get ?_)
  have hsize : (s.vars.shrink (s.vars.size - (s.fn.active - level))).size = s.fn.firstVar +
      level := by
    rw [Array.size_shrink]
    omega
  have hsame : ∀ k < s.fn.firstVar + level,
      (s.vars.shrink (s.vars.size - (s.fn.active - level)))[k]? = s.vars[k]? :=
    fun k hk => getElem?_shrink (by omega)
  refine Via.ite (fun hlt => ?_) fun _ => ⟨.rescope, h _ locals hsize hsame ?_⟩
  · have : s.vars.size < s.fn.active - level := hlt
    omega
  · refine hd.congr (Nat.le_of_eq hsize.symm) (fun k hk => hsame _ (Nat.add_lt_add_left hk _))
      fun k v hv => ?_
    have hlt := Nat.lt_of_lt_of_eq (Array.getElem?_eq_some_iff.1 hv).1 hsize
    exact hd.controls k v ((hsame k hlt).symm.trans hv)

end Compile

end LuaChunk
