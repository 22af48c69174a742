import LuaChunk.Proofs.Compile.Resolution

set_option autoImplicit false

namespace LuaChunk

open JumpList (Code IsOp Chain)

namespace Compile

variable {F : List Pending} {base base₂ r : Nat} {e t k : Exp} {s s' : State} {name : Bytes}
  {live : Nat → Prop} {o : Option Nat}

namespace Links

theorem eq (h : Links s s') : ∃ blocks upvalues needClose outer stores,
    s' = { s with fn := { s.fn with blocks, upvalues, needClose }, outer, stores } := by
  refine ⟨s'.fn.blocks, s'.fn.upvalues, s'.fn.needClose, s'.outer, s'.stores, ?_⟩
  have hs := congrArg
    (fun u : State => { u with fn := s'.fn, outer := s'.outer, stores := s'.stores }) h.core
  have hf := congrArg (fun f : Builder => { f with
    blocks := s'.fn.blocks, upvalues := s'.fn.upvalues, needClose := s'.fn.needClose }) h.fns.1.core
  rw [← hf]
  exact hs

theorem keeps (h : Links s s') : Keeps s s' := by
  have hups := h.fns.1.upvalues
  have houter := h.fns.2
  have hblocks := h.fns.1.blocks
  obtain ⟨blocks, upvalues, needClose, outer, stores, rfl⟩ := h.eq
  refine { Keeps.refl s with entries := hups, outer := houter, scope := ?_ }
  exact congrArg (FnScope.mk _ _ _ _) hblocks

theorem inv (h : Links s s') (hr : Resolvable s') (hi : Inv F o live s) : Inv F o live s' := by
  have hwait := h.keeps.waiting
  have hscope := h.keeps.scope
  have hgrows := h.keeps.references
  obtain ⟨blocks, upvalues, needClose, outer, stores, rfl⟩ := h.eq
  refine ⟨{ hi.base with
    enclosed := hr.enclosed
    linked := hr.linked
    scopes := ?_
    refers := hi.base.refers.mono hgrows
    adopts := hi.base.adopts.mono (Int.le_refl _) hgrows.upvalues }, ?_, ?_⟩
  · show Scoped s.vars s.labels s.gotos (Builder.scope _)
    rw [hscope]
    exact hi.base.scopes
  · rw [hwait]
    exact hi.sound
  · rw [hwait]
    exact hi.held

theorem freeReg (h : Links s s') : s'.fn.freeReg = s.fn.freeReg := by
  obtain ⟨blocks, upvalues, needClose, outer, stores, rfl⟩ := h.eq
  rfl

end Links

theorem Base.resolvable (h : Base s) : Resolvable s := ⟨h.enclosed, h.linked, _, h.scopes.placed⟩

theorem resolve_spec (h : Inv F o live s) :
    Via Keeps (resolve name) s fun m s' => Inv F o live s' ∧ s'.fn.freeReg = s.fn.freeReg ∧
      Means s'.vars s'.sites name .free m := by
  unfold resolve
  have hlinks : Via Links (resolveFrom name s.outer.length true .free) s fun m s' =>
      Links s s' ∧ Resolvable s' ∧ Means s'.vars s'.sites name .free m :=
    (resolveFrom_spec _ h.base.resolvable rfl).mono fun _ _ hl hm => ⟨hl, hm⟩
  refine Via.next (Via.get ?_)
  exact (hlinks.weaken fun _ hl => hl.keeps).mono fun m s₁ _ ⟨hl, hr, hm⟩ =>
    ⟨hl.inv hr h, hl.freeReg, hm⟩

theorem Via.noteMeaning {m : Meaning} {Q : Unit → State → Prop} (hi : Inv F o live s)
    (hm : Means s.vars s.sites name .free m) (h : Q () s) : Via Keeps (Compile.noteMeaning name m) s
    Q :=
  Via.of_eq (noteMeaning_eq hm hi.base.linked) (Keeps.refl _) h

/-- A table that waits while its key is coded from `base₂` on. -/
inductive State.Table (s : State) (base base₂ : Nat) : Exp → Prop
  | inReg {r : Nat} (h : s.TableAt base base₂ r) : Table s base base₂ (.inReg r)
  | upvalue {i : Nat} (hi : i < s.fn.upvalues.size) (hb : base₂ = base) :
    Table s base base₂ ⟨.upvalue i, none, none⟩

theorem State.Table.mono (h : s.Table base base₂ t) (hk : Keeps s s') : s'.Table base base₂ t := by
  cases h with
  | inReg h => exact .inReg (h.mono hk)
  | upvalue hi hb => exact .upvalue (Nat.lt_of_lt_of_le hi hk.upvalues) hb

theorem toTable_spec (h : Val F base e s) :
    Via Keeps (toRegisterOrUpvalue e) s fun t s' =>
      s'.level ≤ base ∧ s'.Table base s'.fn.freeReg t ∧ Inv F none (· < s'.fn.freeReg) s' := by
  refine Via.mono (toRegisterOrUpvalue_spec h) ?_
  rintro t s' - ⟨hv, ht⟩
  cases ht with
  | inReg r => exact ⟨hv.low, .inReg hv.slot.tableAt, hv.inv_inReg⟩
  | upvalue i => exact ⟨hv.low, .upvalue hv.place.2 hv.place.1, hv.bareInv rfl⟩

theorem Exp.fresh_of_indexed (h : e.isIndexed = true) : s.Fresh e := by
  intro pc hk
  unfold Exp.isIndexed at h
  rw [hk] at h
  cases h

theorem index_spec (hl : s.level ≤ base) (ht : s.Table base base₂ t) (h : Val F base₂ k s)
    (hp : k.IsPlain) :
    Via Keeps (index t k) s fun e s' =>
      Read F base e s' ∧ e.Writable ∧ ∀ text, k.kind = .str text → e.Named s' text := by
  cases ht with
  | @inReg r ht =>
    refine Via.mono (index_inReg_spec (r := r) h hp) ?_
    rintro e s' hk ⟨hx, hw, hname⟩
    exact ⟨⟨hx.toVal (hk.level ▸ hl) (ht.mono hk), Exp.fresh_of_indexed hx.isIndexed⟩, hw, hname⟩
  | upvalue hi hb =>
    subst hb
    refine Via.mono (index_upvalue_spec h hp hi) ?_
    rintro e s' - ⟨hv, hw, hname⟩
    exact ⟨⟨hv, Exp.fresh_of_indexed hw.indexed⟩, hw, hname⟩

theorem Val.text (hl : s.level ≤ s.fn.freeReg) (h : Inv F none (· < s.fn.freeReg) s)
    (text : Bytes) :
    Val F s.fn.freeReg (.str text) s := .ofKind hl h rfl

theorem indexText_spec {text : Bytes} (hl : s.level ≤ base) (ht : s.Table base s.fn.freeReg t)
    (h : Inv F none (· < s.fn.freeReg) s) :
    Via Keeps (index t (.str text)) s fun e s' => Read F base e s' ∧ e.Writable ∧
      e.Named s' text := by
  have hle : s.level ≤ s.fn.freeReg := by
    cases ht with
    | inReg ht => rcases ht with ⟨-, hb⟩ | ⟨-, hb⟩ <;> omega
    | upvalue _ hb => omega
  refine Via.mono (index_spec hl ht (.text hle h text) ⟨rfl, rfl, rfl⟩) ?_
  rintro e s' - ⟨hr, hw, hname⟩
  exact ⟨hr, hw, hname text rfl⟩

theorem Means.level_lt {i : Nat} {kind : UInt8} {d : Declared}
    (h : Means s.vars s.sites name d (.localVar r i kind)) (hb : Base s) :
    r < s.level ∧ i < s.fn.active := by
  generalize hm : Meaning.localVar r i kind = m at h
  unfold State.sites at h
  cases h with
  | localVar h hi hv hr =>
    cases hm
    exact ⟨hb.scopes.placed.reg_lt hi hv hr, hi⟩
  | _ => cases hm

theorem Means.upvalue_lt {i : Nat} {kind : UInt8} {d : Declared}
    (h : Means s.vars s.sites name d (.upvalue i kind)) : i < s.fn.upvalues.size := by
  generalize hm : Meaning.upvalue i kind = m at h
  unfold State.sites at h
  cases h with
  | upvalue _ _ _ hu =>
    cases hm
    exact (Array.getElem?_eq_some_iff.1 hu).1
  | environment _ hu =>
    cases hm
    exact (Array.getElem?_eq_some_iff.1 hu).1
  | _ => cases hm

theorem Means.constant {place : Nat} {d : Declared}
    (h : Means s.vars s.sites name d (.constVar place))
    (hb : Base s) : ∃ v, s.vars[place]? = some v ∧ v.name.isSome = true := by
  cases h with
  | constVar hin hv hk =>
    obtain ⟨-, v', hv', hd⟩ := innermost?_lt hb.enclosed.within hin
    refine ⟨v', hv', ?_⟩
    simp only [Variable.declares, beq_iff_eq] at hd
    rw [hd]
    rfl

def Meaning.kind? : Meaning → Option ExpKind
  | .localVar r i _ => some (.localVar r i)
  | .upvalue i _ => some (.upvalue i)
  | .constVar place => some (.constVar place)
  | .declared _ | .undeclared _ => none

theorem Means.val {d : Declared} {m : Meaning} {kind : ExpKind} (h : Means s.vars s.sites name d m)
    (hi : Inv F none (· < s.fn.freeReg) s) (hl : s.level ≤ s.fn.freeReg)
    (hk : m.kind? = some kind) :
    Read F s.fn.freeReg ⟨kind, none, none⟩ s := by
  cases m with
  | localVar r i kd =>
    cases hk
    exact ⟨.ofKind hl hi ⟨rfl, h.level_lt hi.base⟩, .of_ne (by simp)⟩
  | upvalue i kd =>
    cases hk
    exact ⟨.ofKind hl hi ⟨rfl, h.upvalue_lt⟩, .of_ne (by simp)⟩
  | constVar place =>
    cases hk
    exact ⟨.ofKind hl hi ⟨rfl, h.constant hi.base⟩, .of_ne (by simp)⟩
  | declared | undeclared => cases hk

theorem globalAccess_spec (h : Inv F none (· < s.fn.freeReg) s) (hl : s.level ≤ s.fn.freeReg) :
    Via Keeps (globalAccess name) s fun e s' => Read F s.fn.freeReg e s' ∧ e.Writable ∧
      e.Named s' name := by
  unfold globalAccess
  refine Via.bind (resolve_spec h) ?_
  rintro m s₁ hk₁ ⟨h₁, hf₁, hm⟩
  refine Via.next (Via.noteMeaning h₁ hm ?_)
  have hl₁ : s₁.level ≤ s₁.fn.freeReg := by rw [hk₁.level, hf₁]; exact hl
  have htable : ∀ {kind : ExpKind}, Read F s₁.fn.freeReg ⟨kind, none, none⟩ s₁ →
      Via Keeps (do
        let table ← toRegisterOrUpvalue ⟨kind, none, none⟩
        index table (.str name)) s₁ fun e s' => Read F s.fn.freeReg e s' ∧ e.Writable ∧
          e.Named s' name := by
    intro kind hv
    rw [hf₁] at hv
    refine Via.bind (toTable_spec hv.toVal) ?_
    rintro t s₂ - ⟨hl₂, ht, hi⟩
    exact indexText_spec hl₂ ht hi
  rw [← hf₁] at h₁
  cases m with
  | localVar r i kd =>
    exact Via.next (Via.pure (htable (hm.val h₁ hl₁ rfl)))
  | upvalue i kd =>
    exact Via.next (Via.pure (htable (hm.val h₁ hl₁ rfl)))
  | constVar place =>
    exact Via.next (Via.pure (htable (hm.val h₁ hl₁ rfl)))
  | declared | undeclared => exact Via.next (Via.semanticError rfl)

theorem Read.readOnly (h : Read F base e s) (hn : e.Named s' name) : Read F base e.readOnly s := by
  obtain ⟨a, n, hacc, ha, -⟩ := hn
  have hname : ∀ {a : GlobalAccess}, a.name = some n → s.Names a →
      s.Names { a with readOnly := true } :=
    fun ha h => ⟨h.text, fun _ hnone => by cases ha.symm.trans hnone⟩
  have hv := h.toVal
  have hplace := hv.place
  rcases hacc with ⟨t, k, hk⟩ | ⟨t, k, hk⟩ | ⟨t, k, hk⟩ <;>
  · have hinv := hv.bareInv (by rw [hk]; rfl)
    obtain ⟨hT, hE⟩ := hv.bare (by rw [hk]; rfl)
    obtain ⟨kind, T, E⟩ := e
    cases hT
    cases hE
    cases hk
    refine ⟨.ofKind hv.low hinv ?_, .of_ne (by simp)⟩
    first
      | exact ⟨hplace.1, hname ha hplace.2⟩
      | exact ⟨hplace.1, hplace.2.1, hname ha hplace.2.2⟩
      | exact ⟨hplace.1, hplace.2.1, hplace.2.2.1, hname ha hplace.2.2.2⟩

theorem Exp.Named.isVariable (h : e.Named s name) : e.isVariable = true := by
  obtain ⟨a, n, ⟨t, k, he⟩ | ⟨t, k, he⟩ | ⟨t, k, he⟩, -⟩ := h <;> simp [Exp.isVariable, he]

theorem Exp.Named.readOnly (h : e.Named s name) : e.readOnly.isVariable = true := by
  obtain ⟨a, n, ⟨t, k, he⟩ | ⟨t, k, he⟩ | ⟨t, k, he⟩, -⟩ :=
    h <;> simp [Exp.isVariable, Exp.readOnly, he]

theorem Exp.unsettled (h : e.isVariable = true) : e.kind.isSettled = false := by
  unfold Exp.isVariable at h
  split at h <;> simp_all [ExpKind.isSettled]

namespace State

def readOnlyName (s : State) : ExpKind → Option Bytes
  | .constVar i => s.vars[i]?.bind (·.name)
  | .localVar _ i =>
    s.vars[s.fn.firstVar + i]?.bind fun v => if v.kind = .regular then none else v.name
  | .upvalue i =>
    s.fn.upvalues[i]?.bind fun u => if u.kind = VarKind.regular.number then none else u.name
  | .indexUp _ _ a | .indexStr _ _ a | .indexed _ _ a =>
    if a.readOnly then
      match a.name.bind (s.fn.pool.values[·.index]?) with
      | some (.str text) => some text
      | _ => none
    else none
  | _ => none

def refusalOf (s : State) (name : Bytes) : Option Bytes :=
  if (s.declaring? name).any Variable.isReadOnly then some name else none

/-- The name for which a write to what was read last is to be refused. -/
def refusal (s : State) : Option Bytes := s.target.bind s.refusalOf

/-- A write to an expression is refused just if what was read last is the name of a read-only
variable. -/
def Lawful (s : State) (e : Exp) : Prop := e.isVariable = true → s.readOnlyName e.kind = s.refusal

theorem declaring?_of {depth place : Nat}
    (h : innermost? s.vars (Variable.declares name) s.sites = some (depth, place)) :
    s.declaring? name = s.vars[place]? := by
  have hsites : (s.fn :: s.outer).map Builder.site = s.sites := rfl
  simp only [declaring?, hsites, h]

theorem declaring?_none (h : innermost? s.vars (Variable.declares name) s.sites = none) :
    s.declaring? name = if name = envName then none
      else (innermost? s.vars Variable.isWildcard s.sites).bind fun (_, place) =>
        s.vars[place]? := by
  have hsites : (s.fn :: s.outer).map Builder.site = s.sites := rfl
  simp only [declaring?, hsites, h]
  split
  · rfl
  · cases innermost? s.vars Variable.isWildcard s.sites <;> rfl

end State

theorem Exp.Writable.readOnlyName (h : e.Writable) : s.readOnlyName e.kind = none := by
  obtain ⟨hx, ha⟩ := h
  unfold Exp.isIndexed at hx
  cases hk : e.kind with
  | indexUp t k a =>
    rw [State.readOnlyName, ha a (.inr (.inl ⟨t, k, hk⟩))]
    rfl
  | indexStr t k a =>
    rw [State.readOnlyName, ha a (.inr (.inr ⟨t, k, hk⟩))]
    rfl
  | indexed t k a =>
    rw [State.readOnlyName, ha a (.inl ⟨t, k, hk⟩)]
    rfl
  | indexInt => rfl
  | _ => simp [hk] at hx

theorem Exp.Writable.lawful (h : e.Writable) (ht : s.target = none) : s.Lawful e := by
  intro _
  rw [h.readOnlyName, State.refusal, ht]
  rfl

theorem State.Lawful.of_value (h : e.isVariable = false) : s.Lawful e :=
  fun hv => nomatch h.symm.trans hv

theorem State.Lawful.of_settled (h : e.kind.isSettled = true) : s.Lawful e :=
  fun hv => nomatch h.symm.trans (Exp.unsettled hv)

theorem Exp.Named.readOnlyName (h : e.Named s name) :
    s.readOnlyName e.readOnly.kind = some name := by
  obtain ⟨a, n, ⟨t, k, he⟩ | ⟨t, k, he⟩ | ⟨t, k, he⟩, hn, ht⟩ := h <;>
    simp [State.readOnlyName, Exp.readOnly, he, hn, ht]

theorem Base.isReadOnly {k : Nat} {v : Variable} (hb : Base s) (hv : s.vars[k]? = some v) :
    v.isReadOnly = v.kind.isReadOnly := by
  have hc := hb.controls k v hv
  unfold Variable.isReadOnly
  cases h : v.control with
  | false => rfl
  | true => rw [hc h, Bool.or_self]

theorem State.refusalOf_declared {depth place : Nat} {v : Variable} (hb : Base s)
    (h : innermost? s.vars (Variable.declares name) s.sites = some (depth, place))
    (hv : s.vars[place]? = some v) :
    s.refusalOf name = (if v.kind.isReadOnly then some name else none) ∧ v.name = some name := by
  refine ⟨?_, ?_⟩
  · rw [State.refusalOf, State.declaring?_of h, hv, Option.any_some, hb.isReadOnly hv]
  · obtain ⟨-, w, hw, hd⟩ := innermost?_lt hb.enclosed.within h
    cases hv.symm.trans hw
    simpa [Variable.declares] using hd

/-- A write to a name of this function or an enclosing one is refused just if its variable is
read-only. -/
theorem Means.readOnlyName {m : Meaning} {kind : ExpKind} (h : Means s.vars s.sites name .free m)
    (hb : Base s)
    (hk : m.kind? = some kind) : s.readOnlyName kind = s.refusalOf name := by
  have hlinked := hb.linked
  cases m with
  | localVar r i kd =>
    cases hk
    generalize hm : Meaning.localVar r i kd = m at h
    unfold State.sites at h
    cases h with
    | localVar h hi hv hr =>
      cases hm
      obtain ⟨hrefusal, hname⟩ := State.refusalOf_declared hb h hv
      rw [hrefusal, State.readOnlyName]
      rename_i v
      rw [show s.vars[s.fn.firstVar + i]? = some v from hv, Option.bind_some, hname]
      cases hv : v.kind <;> rw [hv] at hr <;> first | rfl | cases hr
    | _ => cases hm
  | upvalue i kd =>
    cases hk
    generalize hm : Meaning.upvalue i kd = m at h
    unfold State.sites at h
    cases h with
    | @upvalue _ _ _ _ _ _ _ v u h hv hr hu hn =>
      cases hm
      obtain ⟨-, hkind⟩ := hlinked.leadsTo hv _ hu hn (innermost?_rest h)
      obtain ⟨hrefusal, -⟩ := State.refusalOf_declared hb h hv
      rw [hrefusal, State.readOnlyName, show s.fn.upvalues[i]? = some u from hu, Option.bind_some,
        hkind, hn]
      cases hv : v.kind <;> rw [hv] at hr <;> first | rfl | cases hr
    | @environment _ _ _ _ u h hu hn =>
      cases hm
      obtain ⟨-, hkind⟩ := hlinked.leadsToEnv hu hn (innermost?_rest_none h)
      rw [State.refusalOf, State.declaring?_none h, State.readOnlyName,
        show s.fn.upvalues[i]? = some u from hu,
        Option.bind_some, hkind]
      rfl
    | _ => cases hm
  | constVar place =>
    cases hk
    cases h with
    | constVar h hv hc =>
      obtain ⟨hrefusal, hname⟩ := State.refusalOf_declared hb h hv
      rw [hrefusal, State.readOnlyName, hv, Option.bind_some, hname, hc]
      rfl
  | declared | undeclared => cases hk

theorem Means.declaresGlobal {place : Nat} (hb : Base s)
    (h : Means s.vars s.sites name .free (.declared place) ∨
      Means s.vars s.sites name .free (.undeclared (.wildcard place))) :
    ∃ v, s.vars[place]? = some v ∧ v.kind.isGlobal = true ∧ s.declaring? name = some v := by
  rcases h with h | h
  · cases h with
    | declared hin hv hk => exact ⟨_, hv, hk, (State.declaring?_of hin).trans hv⟩
  · generalize hm : Meaning.undeclared (.wildcard place) = m at h
    cases h with
    | undeclared hin hn =>
      rw [Declared.after_eq (by simp)] at hm
      cases hw : innermost? s.vars Variable.isWildcard s.sites with
      | some dp =>
        rw [hw] at hm
        cases hm
        obtain ⟨-, v, hv, hk⟩ := innermost?_lt hb.enclosed.within hw
        refine ⟨v, hv, (Bool.and_eq_true_iff.1 hk).1, ?_⟩
        rw [State.declaring?_none hin, if_neg hn, hw]
        exact hv
      | none =>
        rw [hw] at hm
        simp only [Meaning.undeclared.injEq] at hm
        split at hm <;> cases hm
    | _ => cases hm

theorem Means.free (h : Means s.vars s.sites name .free (.undeclared .free)) :
    s.refusalOf name = none := by
  generalize hm : Meaning.undeclared .free = m at h
  cases h with
  | undeclared hin hn =>
    rw [Declared.after_eq (by simp)] at hm
    cases hw : innermost? s.vars Variable.isWildcard s.sites with
    | some dp =>
      rw [hw] at hm
      cases hm
    | none =>
      rw [State.refusalOf, State.declaring?_none hin, if_neg hn, hw]
      rfl
  | _ => cases hm

theorem Keeps.refusalOf (h : Keeps s s') : s'.refusalOf name = s.refusalOf name := by
  have hsame : ∀ p, innermost? s'.vars p s'.sites = innermost? s.vars p s.sites := by
    intro p
    simp only [State.sites, List.map_cons, innermost?, Builder.site, h.firstVar, h.active, h.vars]
    rw [CapturedAll.innermost? _ _ h.outer]
  unfold State.refusalOf
  cases hin : innermost? s.vars (Variable.declares name) s.sites with
  | some dp => rw [State.declaring?_of hin, State.declaring?_of ((hsame _).trans hin), h.vars]
  | none =>
    rw [State.declaring?_none hin, State.declaring?_none ((hsame _).trans hin), hsame, h.vars]

theorem variableExp_spec (h : Inv F none (· < s.fn.freeReg) s) (hl : s.level ≤ s.fn.freeReg) :
    Via Keeps (variableExp name) s fun e s' =>
      Read F s.fn.freeReg e s' ∧ e.isVariable = true ∧
        s'.readOnlyName e.kind = s'.refusalOf name := by
  unfold variableExp
  refine Via.bind (resolve_spec h) ?_
  rintro m s₁ hk₁ ⟨h₁, hf₁, hm⟩
  refine Via.next (Via.noteMeaning h₁ hm ?_)
  have hl₁ : s₁.level ≤ s₁.fn.freeReg := by rw [hk₁.level, hf₁]; exact hl
  rw [← hf₁] at h₁ ⊢
  have hglobal : ∀ {place : Nat},
      (∃ v, s₁.vars[place]? = some v ∧ v.kind.isGlobal = true ∧ s₁.declaring? name = some v) →
      Via Keeps (do
      let e ← globalAccess name
      return if (← variableAt place).kind = .constGlobal then e.readOnly else e) s₁
      fun e s' => Read F s₁.fn.freeReg e s' ∧ e.isVariable = true ∧
        s'.readOnlyName e.kind = s'.refusalOf name := by
    rintro place ⟨v, hv, hg, hd⟩
    refine Via.bind (globalAccess_spec h₁ hl₁) ?_
    rintro e s₂ hk₂ ⟨hr, hw, hn⟩
    have hrefusal : s₂.refusalOf name = if v.kind.isReadOnly then some name else none := by
      rw [hk₂.refusalOf, State.refusalOf, hd, Option.any_some, h₁.base.isReadOnly hv]
    refine Via.next (Via.variableAt (by rw [hk₂.vars]; exact (Array.getElem?_eq_some_iff.1 hv).1)
      fun w hw' => Via.pure ?_)
    rw [hk₂.vars] at hw'
    cases hv.symm.trans hw'
    split
    · rename_i hc
      rw [hrefusal, hc]
      exact ⟨hr.readOnly hn, hn.readOnly, hn.readOnlyName⟩
    · rename_i hc
      rw [hrefusal, hw.readOnlyName]
      refine ⟨hr, hn.isVariable, ?_⟩
      cases hk : v.kind <;> rw [hk] at hg hc <;> first | exact absurd rfl hc | rfl | cases hg
  cases m with
  | localVar | upvalue | constVar =>
    exact Via.pure ⟨hm.val h₁ hl₁ rfl, rfl, hm.readOnlyName h₁.base rfl⟩
  | declared place => exact hglobal (Means.declaresGlobal h₁.base (.inl hm))
  | undeclared d =>
    cases d with
    | wildcard place => exact hglobal (Means.declaresGlobal h₁.base (.inr hm))
    | free =>
      refine Via.bind (globalAccess_spec h₁ hl₁) ?_
      rintro e s₂ hk₂ ⟨hr, hw, hn⟩
      exact Via.pure ⟨hr, hn.isVariable, by rw [hw.readOnlyName, hk₂.refusalOf, hm.free]⟩
    | closed => exact Via.semanticError rfl

/-- The name under which a write is refused is the same once the expression has been read. -/
theorem Val.readOnlyName (h : Val F base e s) (hk : Keeps s s') :
    s'.readOnlyName e.kind = s.readOnlyName e.kind := by
  have hplace := h.place
  have hnames : ∀ {a : GlobalAccess}, s.Names a →
      a.name.bind (s'.fn.pool.values[·.index]?) = a.name.bind (s.fn.pool.values[·.index]?) := by
    intro a ha
    cases hn : a.name with
    | none => rfl
    | some k =>
      obtain ⟨text, -, ht⟩ := ha.text k hn
      rw [Option.bind_some, Option.bind_some, ht, hk.pool _ _ ht]
  cases he : e.kind with
  | constVar i => rw [State.readOnlyName, State.readOnlyName, hk.vars]
  | localVar r i => rw [State.readOnlyName, State.readOnlyName, hk.vars, hk.firstVar]
  | upvalue i =>
    rw [he] at hplace
    have hu := Array.getElem?_eq_getElem hplace.2
    rw [State.readOnlyName, State.readOnlyName, hu, hk.entries i _ hu]
  | indexed t k a =>
    rw [he] at hplace
    rw [State.readOnlyName, State.readOnlyName, hnames hplace.2]
  | indexStr t k a =>
    rw [he] at hplace
    rw [State.readOnlyName, State.readOnlyName, hnames hplace.2.2]
  | indexUp t k a =>
    rw [he] at hplace
    rw [State.readOnlyName, State.readOnlyName, hnames hplace.2.2.2]
  | _ => rfl

theorem Val.lawful (h : Val F base e s) (hl : s.Lawful e) (hk : Keeps s s')
    (ht : s'.target = s.target) : s'.Lawful e := by
  intro hv
  rw [h.readOnlyName hk, hl hv, State.refusal, State.refusal, ht]
  exact congrArg _ (funext fun _ => hk.refusalOf.symm)

def State.relog (s : State) (target : Option Bytes) (writes : Array Write) : State :=
  { s with target, writes }

section

variable {target : Option Bytes} {writes : Array Write}

theorem Inv.relog (h : Inv F o live s) : Inv F o live (s.relog target writes) :=
  ⟨{ h.base with }, h.sound, h.held⟩

theorem State.places_relog {kind : ExpKind} (h : s.Places base kind) :
    (s.relog target writes).Places base kind := by
  cases kind with
  | indexed t k a => exact ⟨h.1, h.2.text, h.2.readOnly⟩
  | indexUp t k a => exact ⟨h.1, h.2.1, h.2.2.1.of_fn rfl, h.2.2.2.text, h.2.2.2.readOnly⟩
  | indexStr t k a => exact ⟨h.1, h.2.1.of_fn rfl, h.2.2.text, h.2.2.readOnly⟩
  | _ => exact h

theorem Val.relog (h : Val F base e s) : Val F base e (s.relog target writes) := by
  obtain ⟨hl, ⟨T, E, hT, hE, hi⟩, hp, hb⟩ := h
  exact ⟨hl, ⟨T, E, hT, hE, hi.relog⟩, State.places_relog hp, hb⟩

theorem Read.relog (h : Read F base e s) : Read F base e (s.relog target writes) := by
  obtain ⟨hv, hf⟩ := h
  exact ⟨hv.relog, hf⟩

theorem Coded.retarget : Coded s (s.relog target s.writes) := { Coded.refl s with }

theorem Via.noteTarget {R : State → State → Prop} [Frame R] {Q : Unit → State → Prop}
    (h : Q () (s.relog target s.writes)) : Via R (Compile.noteTarget target) s Q :=
  ⟨Frame.coded .retarget, h⟩

theorem Coded.write {w : Write} (h : w.Allowed) : Coded s (s.relog s.target (s.writes.push w)) :=
  { Coded.refl s with
    writes := ⟨[w], Array.toList_push .., fun _ hx => List.mem_singleton.1 hx ▸ h⟩ }

end

theorem State.Names.readOnlyName {a : GlobalAccess} (h : s.Names a) :
    (do
      if a.readOnly then
        match a.name with
        | some k =>
          match (← get).fn.pool.values[k.index]? with
          | some (.str s) => return some s
          | _ => broken .indexInRange
        | none => broken .indexInRange
      else return none : M (Option Bytes)) s = .ok
        (if a.readOnly then
          match a.name.bind (s.fn.pool.values[·.index]?) with
          | some (.str text) => some text
          | _ => none
        else none) s := by
  by_cases hr : a.readOnly = true
  · rw [if_pos hr, if_pos hr]
    cases hn : a.name with
    | none => exact absurd hn (h.readOnly hr)
    | some k =>
      obtain ⟨text, -, ht⟩ := h.text k hn
      rw [Option.bind_some, ht]
      refine (bind_eq (m := get) (a := s) rfl).trans ?_
      rw [ht]
      rfl
  · rw [if_neg hr, if_neg hr]
    rfl

theorem variableAt_eq {i : Nat} {v : Variable} (h : s.vars[i]? = some v) :
    variableAt i s = .ok v s := by
  refine (bind_eq (m := get) (a := s) rfl).trans ?_
  rw [h]
  rfl

theorem Via.ownVariable {R : State → State → Prop} [Steps R] {i : Nat} {Q : Variable → State → Prop}
    (hi : s.fn.firstVar + i < s.vars.size) (h : ∀ v, s.vars[s.fn.firstVar + i]? = some v → Q v s) :
    Via R (Compile.ownVariable i) s Q :=
  Via.next (Via.get (Via.variableAt hi h))

theorem readOnlyName?_eq (h : Val F base e s) :
    readOnlyName? e s = .ok (s.readOnlyName e.kind) s := by
  unfold readOnlyName?
  have hplace := h.place
  have hrange := h.toBase.scopes.placed.range
  cases hk : e.kind with
  | constVar i =>
    rw [hk] at hplace
    obtain ⟨-, v, hv, hn⟩ := hplace
    rw [State.readOnlyName, hv, Option.bind_some]
    exact (bind_eq (variableAt_eq hv)).trans rfl
  | localVar r i =>
    rw [hk] at hplace
    have hi : s.fn.firstVar + i < s.vars.size :=
      Nat.lt_of_lt_of_le (Nat.add_lt_add_left hplace.2.2 _) hrange
    have hv := Array.getElem?_eq_getElem hi
    have hown : ownVariable i s = .ok s.vars[s.fn.firstVar + i] s :=
      (bind_eq (m := get) (a := s) rfl).trans (variableAt_eq hv)
    rw [State.readOnlyName, hv, Option.bind_some]
    refine (bind_eq hown).trans ?_
    split <;> rfl
  | upvalue i =>
    rw [hk] at hplace
    have hu := Array.getElem?_eq_getElem hplace.2
    rw [State.readOnlyName, hu, Option.bind_some]
    refine (bind_eq (m := get) (a := s) rfl).trans ?_
    rw [hu]
    dsimp only
    split <;> rfl
  | indexed t k a =>
    rw [hk] at hplace
    exact hplace.2.readOnlyName
  | indexStr t k a =>
    rw [hk] at hplace
    exact hplace.2.2.readOnlyName
  | indexUp t k a =>
    rw [hk] at hplace
    exact hplace.2.2.2.readOnlyName
  | _ => rfl

theorem Val.named_of_constVar (h : Val F base e s) (hn : s.readOnlyName e.kind = none) :
    ∀ i, e.kind ≠ .constVar i := by
  intro i hk
  have hplace := h.place
  rw [hk] at hplace hn
  obtain ⟨-, v, hv, hname⟩ := hplace
  rw [State.readOnlyName, hv, Option.bind_some] at hn
  rw [hn] at hname
  cases hname

def State.writeTo (s : State) (refused : Option Bytes) : Write :=
  ⟨s.target, s.target.bind s.declaring?, refused⟩

theorem State.allowed_writeTo (h : s.refusal = none) : (s.writeTo none).Allowed := by
  refine ⟨?_, rfl⟩
  unfold State.refusal at h
  unfold State.writeTo Write.isReadOnly
  cases ht : s.target with
  | none => rfl
  | some name =>
    rw [ht, Option.bind_some, State.refusalOf, ite_eq_right_iff] at h
    exact Bool.eq_false_iff.2 fun hx => nomatch h hx

theorem State.refused_writeTo (h : s.refusal = some name) :
    (s.writeTo (some name)).Refused name := by
  unfold State.refusal at h
  obtain ⟨text, ht, h⟩ := Option.bind_eq_some_iff.1 h
  rw [State.refusalOf, Option.ite_none_right_eq_some, Option.some_inj] at h
  obtain ⟨hd, rfl⟩ := h
  refine ⟨?_, ht, rfl⟩
  rw [Write.isReadOnly, State.writeTo, ht]
  exact hd

theorem noteWrite_eq (h : Val F base e s) :
    noteWrite e s = .ok () (s.relog s.target (s.writes.push (s.writeTo (s.readOnlyName e.kind)))) :=
  (bind_eq (readOnlyName?_eq h)).trans rfl

/-- A write to a variable that may be written is recorded and passes, and any other one is recorded
and refused. No constant that the compiler knows is assigned to. -/
theorem checkReadOnly_spec (h : Val F base e s) (hl : s.Lawful e) (hv : e.isVariable = true) :
    Via Keeps (do
      noteWrite e
      checkReadOnly e) s fun _ s' =>
      (∃ writes, s' = s.relog s.target writes) ∧ ∀ i, e.kind ≠ .constVar i := by
  have hnote := noteWrite_eq h
  have hconst := h.named_of_constVar
  rw [hl hv] at hnote hconst
  have hcheck : ∀ writes, readOnlyName? e (s.relog s.target writes) =
      .ok s.refusal (s.relog s.target writes) := by
    intro writes
    rw [readOnlyName?_eq h.relog]
    exact congrArg (EStateM.Result.ok · _) (hl hv)
  cases hr : s.refusal with
  | none =>
    rw [hr] at hnote
    have hkeeps := (Coded.write (s := s) (State.allowed_writeTo hr)).toKeeps
    have hpass := (hcheck (s.writes.push (s.writeTo none))).trans (by rw [hr])
    exact Via.next (Via.of_eq hnote hkeeps
      (Via.next (Via.of_eq hpass (Keeps.refl _) (Via.pure ⟨⟨_, rfl⟩, hconst hr⟩))))
  | some name =>
    rw [hr] at hnote
    unfold Via
    rw [bind_eq hnote, checkReadOnly, bind_eq ((hcheck _).trans (by rw [hr]))]
    refine Aborts.mk trivial rfl (fun _ => .inl)
      ⟨[], List.forall_mem_nil _, .inr ⟨s.writeTo (some name), name, ?_, ?_, rfl, rfl⟩⟩
    · rw [List.append_nil]
      exact Array.toList_push ..
    · exact State.refused_writeTo hr

theorem checked_eq {α : Type} (e : Exp) (k : Unit → M α) :
    (noteWrite e >>= fun _ => checkReadOnly e >>= k) = (do
      noteWrite e
      checkReadOnly e) >>= k := (bind_assoc ..).symm

theorem Val.target (h : Val F base e s) (hv : e.isVariable = true)
    (hc : ∀ i, e.kind ≠ .constVar i) :
    s.Target s.fn.freeReg e.kind := by
  have hplace := h.place
  have hlow := h.low
  unfold Exp.isVariable at hv
  cases hk : e.kind with
  | localVar r i =>
    rw [hk] at hplace
    exact hplace.2.1
  | upvalue i =>
    rw [hk] at hplace
    exact hplace.2
  | constVar i => exact absurd hk (hc i)
  | indexed t k a =>
    rw [hk] at hplace
    exact hplace.1.lt hlow
  | indexUp t k a =>
    rw [hk] at hplace
    exact ⟨hplace.2.1, hplace.2.2.1⟩
  | indexInt t k =>
    rw [hk] at hplace
    exact ⟨hplace.1.lt hlow, hplace.2⟩
  | indexStr t k a =>
    rw [hk] at hplace
    exact ⟨hplace.1.lt hlow, hplace.2.1⟩
  | _ =>
    rw [hk] at hv
    cases hv

end Compile

end LuaChunk
