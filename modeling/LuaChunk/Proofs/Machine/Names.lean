import LuaChunk.Proofs.Machine.Access
import LuaChunk.Proofs.Compile.Names

set_option autoImplicit false

theorem Option.Rel.map_right {α β γ : Type} {R : α → β → Prop} {S : α → γ → Prop} {x : Option α}
    {y : Option β} {f : β → γ}
    (h : Option.Rel R x y) (hf : ∀ a b, R a b → S a (f b)) : Option.Rel S x (y.map f) := by
  cases h with
  | some h => exact .some (hf _ _ h)
  | none => exact .none

theorem Option.Rel.map_left {α β γ : Type} {R : α → γ → Prop} {S : β → γ → Prop} {x : Option α}
    {y : Option γ} {f : α → β}
    (h : Option.Rel R x y) (hf : ∀ a c, R a c → S (f a) c) : Option.Rel S (x.map f) y := by
  cases h with
  | some h => exact .some (hf _ _ h)
  | none => exact .none

namespace LuaChunk

open JumpList (Code)
open Machine (step)

namespace Compile

variable {V H : Type} {W : World V H} {F : List Pending} {base base₂ n r : Nat} {kind : ExpKind}
  {t k : Exp} {s₀ s₁ s s' z : State}
  {P : Nat → Prop} {L : Machine V H → Option (Machine V H × Loc V)}
  {g : Machine V H → Option (Machine V H)}
  {T : Machine V H → V} {name : Bytes}

/-- A table and a key are found as `spec` says; registers from `n` on may have changed. -/
def FindsKey (s : State) (n : Nat) (T : Machine V H → V)
    (spec : State → Machine V H → Option (V × V))
    (L : Machine V H → Option (Machine V H × Loc V)) : Prop :=
  ∀ z, s.Later z → ∀ m, Option.Rel (fun q p => m.Same n p.1 ∧ T p.1 = q.1 ∧ p.2 = .const q.2)
    (spec z m) (L m)

def cellOf (spec : State → Machine V H → Option (V × V)) (z : State) (m : Machine V H) :
    Option (Loc V) :=
  (spec z m).map fun q => .cell q.1 q.2

variable {spec : State → Machine V H → Option (V × V)}

namespace FindsKey

theorem after (h : FindsKey s base T spec L) (hk : Keeps s s') : FindsKey s' base T spec L :=
  fun z hz m => h z (hz.after hk) m

theorem finds {loc : Machine V H → Loc V} {key : Machine V H → V} (h : FindsKey s n T spec L)
    (hg : Effect W s₀ s g)
    (hL : ∀ m, L m = (g m).map fun m' => (m', .const (key m'))) (hk : kind.loc? W s = some loc)
    (hloc : ∀ m, loc m = .cell (T m) (key m)) : Finds W s₀ s n kind (cellOf spec) := by
  refine ⟨_, .here hk hg fun _ => rfl, fun z hz m => ?_⟩
  have hm := h z hz m
  rw [hL m] at hm
  refine hm.of_map.map fun q m' ⟨hsame, hT, hkey⟩ => ⟨hsame, ?_⟩
  cases q
  cases hT
  cases hkey
  exact hloc m'

theorem finds_constant {kind' : ExpKind} {loc : Machine V H → Loc V} {v : V}
    (h : FindsKey s n T spec L) (hd : Denotes W s₀ s P kind L)
    (hv : kind.loc? W s = some fun _ => .const v) (hk : kind'.loc? W s = some loc)
    (hloc : ∀ m, loc m = .cell (T m) v) : Finds W s₀ s n kind' (cellOf spec) := by
  cases hd with
  | opened => cases hv
  | here hk₀ hg hL =>
    cases hk₀.symm.trans hv
    exact h.finds hg hL hk hloc

end FindsKey

theorem FindsKey.reading (h : FindsKey s n T spec L) (hz : s.Later z) (m : Machine V H) :
    Option.Rel (fun q p => m.Same n p.1 ∧ T p.1 = q.1 ∧ p.2 = q.2) (spec z m) (reading W L m) := by
  have hm := h z hz m
  unfold Compile.reading
  generalize spec z m = x, L m = y at hm
  cases hm with
  | none => exact .none
  | @some q p hm =>
    obtain ⟨hsame, hT, hkey⟩ := hm
    show Option.Rel _ _ ((p.2.read W p.1).map _)
    rw [hkey]
    exact .some ⟨hsame, hT, rfl⟩

theorem indexTail_finds {short? : Option PoolEntry} {a : GlobalAccess} (h : Val F base₂ k s)
    (hp : k.IsPlain)
    (hs : ∀ i, short? = some i → k.kind = .konst i) (hr : r < base₂) (hb : n ≤ base₂)
    (hd : Denotes W s₀ s P k.kind L) (hP : P base₂) (hf : FindsKey s n (·.reg r) spec L) :
    Via Keeps (match short?, k.integer? with
      | some i, _ => return Exp.mk (.indexStr r i a) none none
      | none, some i =>
        if 0 ≤ i && i ≤ 255 then return Exp.mk (.indexInt r i.toInt.toNat) none none
        else return Exp.mk (.indexed r (← toAnyRegister k) a) none none
      | none, none => return Exp.mk (.indexed r (← toAnyRegister k) a) none none) s
      fun e' s' => Finds W s₀ s' n e'.kind (cellOf spec) := by
  have hplace := h.place
  obtain ⟨kind, T, E⟩ := k
  obtain ⟨hsettled, rfl, rfl⟩ := hp
  have hreg :
      Via Keeps (do return Exp.mk (.indexed r (← toAnyRegister ⟨kind, none, none⟩) a) none none) s
      fun e' s' => Finds W s₀ s' n e'.kind (cellOf spec) := by
    refine Via.bind (toAnyRegister_effect h hd hP) ?_
    rintro q s₁ hk₁ ⟨g, hg, hm⟩
    refine Via.pure ⟨_, .here rfl hg fun _ => rfl, fun z hz m => ?_⟩
    refine ((hf.reading (hz.after hk₁) m).trans (hm m)
      (T := fun x m' => m.Same n m' ∧ m'.reg r = x.1 ∧ m'.reg q = x.2) ?_).map ?_
    · rintro x p m' ⟨hsame, hT, hkey⟩ ⟨hsame', hq⟩
      exact ⟨hsame.trans (hsame'.mono hb), (hsame'.reg r hr).trans hT, hq.trans hkey⟩
    · rintro x m' ⟨hsame, hT, hkey⟩
      exact ⟨hsame, by rw [← hT, ← hkey]⟩
  cases short? with
  | some i =>
    obtain rfl := hs i rfl
    obtain ⟨v, hv, -⟩ := hplace.2
    exact Via.pure (hf.finds_constant hd (v := W.const v) (by simp [ExpKind.loc?, hv])
      (by simp [ExpKind.loc?, hv]) fun _ => rfl)
  | none =>
    cases hn : (Exp.mk kind none none).integer? with
    | none => exact hreg
    | some i =>
      obtain rfl := Exp.integer?_eq hn
      refine Via.ite (fun hi => Via.pure ?_) fun _ => hreg
      simp only [Bool.and_eq_true, decide_eq_true_eq, Int64.le_iff_toInt_le] at hi
      have h₀ : Int64.toInt 0 = 0 := rfl
      have hi' : Int64.ofNat i.toInt.toNat = i := by
        rw [← Int64.ofInt_eq_ofNat, Int.toNat_of_nonneg (by omega), Int64.ofInt_toInt]
      exact hf.finds_constant hd rfl rfl fun _ => by rw [hi']

theorem Denotes.pooled {k' : Exp} (hd : Denotes W s₀ s P k.kind L) (hp : s.Pooled s' k k') :
    Denotes W s₀ s' P k'.kind L := by
  obtain ⟨rfl, rfl⟩ | ⟨text, n, p, logs, hk, rfl, hgrown, hn, rfl⟩ := hp
  · exact hd
  · rw [hk] at hd
    cases hd with
    | here hk hg hL =>
      cases hk
      have heffect : Effect W s₀ (s.setPool p logs) _ := hg.andStill rfl rfl hgrown.grows
      refine .here ?_ heffect hL
      exact Option.map_eq_some_iff.2 ⟨_, hn.text, rfl⟩

theorem index_inReg_finds (h : Val F base₂ k s) (hp : k.IsPlain) (hr : r < base₂) (hb : n ≤ base₂)
    (hd : Denotes W s₀ s (fun _ => True) k.kind L) (hf : FindsKey s n (·.reg r) spec L) :
    Via Keeps (index (.inReg r) k) s fun e' s' => Finds W s₀ s' n e'.kind (cellOf spec) := by
  refine Via.index h hp fun k' s₁ a h₁ hp₁ _ hk₁ _ _ _ hpool => ?_
  refine Via.bind ((shortKey?_spec h₁).weaken fun _ h => h.toKeeps) ?_
  rintro short? _ - ⟨rfl, hs⟩
  have htail := indexTail_finds (a := a) h₁ hp₁ (fun i hi => (hs i hi).1) hr hb (hd.pooled hpool)
    trivial (hf.after hk₁)
  cases short? <;> exact Via.next (Via.pure htail)

theorem FindsKey.loadUpvalue {i m : Nat} (hf : FindsKey s n (·.up i) spec L) (hn : n ≤ s.fn.freeReg)
    (hk : Keeps s (s.loadUpvalue i m)) :
    FindsKey (s.loadUpvalue i m) n (·.reg s.fn.freeReg) spec fun m =>
      (L m).map fun p => (p.1.setReg s.fn.freeReg (p.1.up i), p.2) := by
  refine fun z hz m => (hf z (hz.after hk) m).map_right ?_
  rintro q p ⟨hsame, hT, hkey⟩
  exact ⟨hsame.trans (.setReg hn), Machine.setReg_same.trans hT, hkey⟩

theorem Keeps.loadUpvalue {i m : Nat} (hm : s.fn.maxStack ≤ m) : Keeps s (s.loadUpvalue i m) := by
  have hload : Keeps s (s.emit (.abck .getUpval 0 i 0 0)) := (Coded.emit s _).toKeeps
  have hraise : Keeps s ((s.emit (.abck .getUpval 0 i 0 0)).raise m) :=
    hload.trans (Keeps.raise _ hm)
  exact (hraise.trans (Keeps.setFree _ _)).trans (Coded.setAt _ _ _).toKeeps

theorem index_upvalue_finds {i : Nat} (h : Val F base k s) (hp : k.IsPlain)
    (hi : i < s.fn.upvalues.size)
    (hd : Denotes W s₀ s (fun _ => True) k.kind L) (hf : FindsKey s base (·.up i) spec L) :
    Via Keeps (index ⟨.upvalue i, none, none⟩ k) s fun e' s' =>
      Finds W s₀ s' base e'.kind (cellOf spec) := by
  refine Via.index h hp fun k' s₁ a h₁ hp₁ _ hk₁ _ _ _ hpool => ?_
  have hd₁ := hd.pooled hpool
  have hf₁ := hf.after hk₁
  have hi₁ := Nat.lt_of_lt_of_le hi hk₁.upvalues
  have hplace := h₁.place
  refine Via.bind ((shortKey?_spec h₁).weaken fun _ h => h.toKeeps) ?_
  rintro short? s₁ - ⟨rfl, hs⟩
  cases short? with
  | some j =>
    have hj := (hs j rfl).1
    rw [hj] at hd₁ hplace
    obtain ⟨v, hv, -⟩ := hplace.2
    exact Via.pure (hf₁.finds_constant hd₁ (v := W.const v) (by simp [ExpKind.loc?, hv])
      (by simp [ExpKind.loc?, hv]) fun _ => rfl)
  | none =>
    have hnote : noteLoad k' = Pure.pure () := by
      obtain ⟨kind, T, E⟩ := k'
      cases kind with
      | jump => cases hd₁ with | here hk => cases hk
      | _ => rfl
    have hlow := h₁.low
    have hle := h₁.base_le
    have hroom := h₁.room
    have hstack := h₁.maxStack_le
    have hups := h₁.toBase.upvalues_le
    rw [hnote]
    refine Via.next (Via.pure (Via.next (Via.loadUpvalue h₁.maxStack_le fun m hm hfree' hm' => ?_)))
    have hkeep : Keeps s₁ (s₁.loadUpvalue i m) := Keeps.loadUpvalue hm
    have hf₂ := hf₁.loadUpvalue hle hkeep
    have hsettled := hp₁.settled
    have hinv := h₁.plainInv hp₁
    have hload := hd₁.loadUpvalue (i := i) (n := m) hsettled
      (fun r hr => by rw [hr] at hplace; exact hplace.1.lt hlow)
      (fun pc hpc => by rw [hpc] at hinv; exact hinv.openLt) (by omega)
        (Nat.le_trans (Nat.le_of_lt hi₁) hups)
    by_cases hr : ∃ r, k'.kind = .inReg r
    · -- the key is in a register already, and the table comes after it
      obtain ⟨r, hr⟩ := hr
      obtain ⟨kind, T, E⟩ := k'
      obtain ⟨-, rfl, rfl⟩ := hp₁
      obtain rfl := hr
      refine Via.pure ?_
      cases hload with
      | here hk hg hL =>
        cases hk
        exact hf₂.finds hg hL rfl fun _ => rfl
    · have hr : ∀ r, k'.kind ≠ .inReg r := fun r he => hr ⟨r, he⟩
      have hfree := h₁.settledFree hsettled hr
      have hlate : ∀ pc, k'.kind = .jump pc → s₁.lateLoad = true := by
        intro pc hpc
        rw [hpc] at hd₁
        cases hd₁ with | here hk => cases hk
      have hv := h₁.afterLoad hp₁ hr hlate hi₁ hm hfree' hm'
      exact indexTail_finds hv hp₁ (by simp) (by omega) (by omega) hload ⟨trivial, by omega⟩ hf₂

theorem index_finds (ht : TableOf t T) (htable : s.Table base base₂ t) (hl : s.level ≤ base)
    (h : Val F base₂ k s) (hp : k.IsPlain)
    (hd : Denotes W s₀ s (fun _ => True) k.kind L) (hf : FindsKey s base T spec L) :
    Via Keeps (index t k) s fun e' s' => Finds W s₀ s' base e'.kind (cellOf spec) := by
  cases ht with
  | inReg r =>
    obtain ⟨hr, hb⟩ : r < base₂ ∧ base ≤ base₂ := by
      cases htable with
      | inReg h => rcases h with ⟨h₁, h₂⟩ | ⟨h₁, h₂⟩ <;> omega
    exact index_inReg_finds h hp hr hb hd hf
  | upvalue i =>
    cases htable with
    | upvalue hi hb =>
      subst hb
      exact index_upvalue_finds h hp hi hd hf

def State.upvalue? (z : State) (name : Bytes) : Option Nat :=
  z.fn.upvalues.findIdx? fun u => u.name == some name

/-- Where the variable is that a name stands for, if it is no global's. -/
def State.var? (W : World V H) (z : State) (name : Bytes) : Option (Loc V) :=
  match innermost? z.vars (Variable.declares name) z.sites with
  | some (depth, place) =>
    match z.vars[place]? with
    | some v =>
      if v.kind.isGlobal then none
      else if v.kind = .compileTime then some (.const (W.const v.constant))
      else if depth = 0 then some (.reg v.reg)
      else (z.upvalue? name).map .up
    | none => none
  | none => if name = envName then (z.upvalue? name).map .up else none

/-- What a name stands for. A global is a field of the environment. -/
def State.name? (W : World V H) (z : State) (name : Bytes) (m : Machine V H) : Option (Loc V) :=
  match z.var? W name with
  | some l => some l
  | none => ((z.var? W envName).bind (·.read W m)).map fun env => .cell env (W.const (.str name))

def Meaning.var? (W : World V H) (s : State) : Meaning → Option (Loc V)
  | .localVar r _ _ => some (.reg r)
  | .upvalue i _ => some (.up i)
  | .constVar place => (s.vars[place]?).map fun v => .const (W.const v.constant)
  | .declared _ | .undeclared _ => none

theorem State.Later.innermost? (h : s.Later z) (p : Variable → Bool) :
    Compile.innermost? z.vars p z.sites = Compile.innermost? s.vars p s.sites := by
  have hout := CapturedAll.innermost? s.vars p h.keeps.outer
  have hfirst : z.fn.site.firstVar = s.fn.site.firstVar := h.keeps.firstVar
  have hactive : z.fn.site.active = s.fn.site.active := h.keeps.active
  unfold State.sites
  simp only [List.map_cons, Compile.innermost?, h.keeps.vars, hfirst, hactive, hout]

theorem State.Later.upvalue? {i : Nat} {u : Upvalue} (h : s.Later z)
    (hu : s.fn.upvalues[i]? = some u) (hn : u.name = some name) :
    z.upvalue? name = some i := by
  have hz := h.keeps.entries i u hu
  obtain ⟨hi, hget⟩ := Array.getElem?_eq_some_iff.1 hz
  refine Array.findIdx?_eq_some_iff_getElem.2 ⟨hi, by simp [hget, hn], fun j hj => ?_⟩
  simp only [beq_iff_eq]
  by_contra hname
  have hname : z.fn.upvalues[j].name = some name := by simpa using hname
  have hdist := h.base.linked.1.distinct j i _ u (Array.getElem?_eq_getElem (Nat.lt_trans hj hi)) hz
    (hname.trans hn.symm)
  omega

theorem Means.var? {m : Meaning} {d : Declared} (h : Means s.vars s.sites name d m)
    (hz : s.Later z) :
    z.var? W name = m.var? W s := by
  have hin := hz.innermost? (Variable.declares name)
  have hvars := hz.keeps.vars
  have hsites : s.sites = s.fn.site :: s.outer.map Builder.site := rfl
  unfold State.var?
  rw [hin, hvars]
  rw [hsites] at h ⊢
  cases h with
  | localVar h hi hv hr =>
    obtain ⟨h₁, h₂⟩ := VarKind.register_of hr
    simp [h, hv, h₁, h₂, Meaning.var?]
  | upvalue h hv hr hu hn =>
    obtain ⟨h₁, h₂⟩ := VarKind.register_of hr
    simp [h, hv, h₁, h₂, Meaning.var?, hz.upvalue? hu hn]
  | constVar h hv hk => simp [h, hv, hk, Meaning.var?, VarKind.isGlobal]
  | declared h hv hk => simp [h, hv, hk, Meaning.var?]
  | environment h hu hn => simp [h, Meaning.var?, hz.upvalue? hu hn]
  | undeclared h hn => simp [h, hn, Meaning.var?]

theorem State.var?_below {l : Loc V} (hz : Base z) (h : z.var? W name = some l) :
    l.Below z.level := by
  unfold State.var? at h
  split at h
  · rename_i depth place hin
    split at h
    · rename_i v hv
      split at h
      · cases h
      split at h
      · cases h
        trivial
      split at h
      · cases h
        rename_i hg hc hd
        subst hd
        have hsites : z.sites = z.fn.site :: z.outer.map Builder.site := rfl
        rw [hsites] at hin
        obtain ⟨i, w, hi, rfl, hw, -⟩ := innermost?_zero hin
        cases hv.symm.trans hw
        refine hz.scopes.placed.reg_lt hi hv ?_
        cases hk : v.kind <;> simp_all [VarKind.isGlobal, VarKind.inRegister]
      · obtain ⟨i, -, rfl⟩ := Option.map_eq_some_iff.1 h
        trivial
    · cases h
  · split at h
    · obtain ⟨i, -, rfl⟩ := Option.map_eq_some_iff.1 h
      trivial
    · cases h

theorem State.name?_same {m m' : Machine V H} (hz : Base z) (hn : z.level ≤ n) (h : m.Same n m') :
    z.name? W name m' = z.name? W name m := by
  unfold State.name?
  cases z.var? W name with
  | some l => rfl
  | none =>
    cases he : z.var? W envName with
    | none => rfl
    | some env =>
      have hread := Loc.read_same (W := W) (h.mono hn) (State.var?_below hz he)
      simp only [Option.bind_some, hread]

variable {live : Nat → Prop} {o : Option Nat}

theorem resolve_effect (h : Inv F o live s) : Via Keeps (resolve name) s fun _ s' =>
    Effect W s s' some := by
  unfold resolve
  have hlinks : Via Links (resolveFrom name s.outer.length true .free) s fun m s' =>
      Links s s' ∧ Resolvable s' ∧ Means s'.vars s'.sites name .free m :=
    (resolveFrom_spec _ h.base.resolvable rfl).mono fun _ _ hl hm => ⟨hl, hm⟩
  refine Via.next (Via.get ?_)
  refine (hlinks.weaken fun _ hl => hl.keeps).mono fun m s₁ _ ⟨hl, _, _⟩ => ?_
  obtain ⟨blocks, upvalues, needClose, outer, stores, rfl⟩ := hl.eq
  exact .still rfl rfl fun _ _ h => h

theorem Means.finds {m : Meaning} {d : Declared} (h : Means s.vars s.sites name d m)
    (hk : m.kind? = some kind) (hb : Base s)
    (he : Effect W s₀ s some) : Finds W s₀ s n kind fun z _ => z.var? W name := by
  have hloc : ∃ l, m.var? W s = some l ∧ kind.loc? W s = some fun _ => l := by
    cases m with
    | localVar | upvalue =>
      cases hk
      exact ⟨_, rfl, rfl⟩
    | constVar place =>
      cases hk
      obtain ⟨v, hv, -⟩ := h.constant hb
      exact ⟨.const (W.const v.constant), by simp [Meaning.var?, hv], by simp [ExpKind.loc?, hv]⟩
    | declared | undeclared => cases hk
  obtain ⟨l, hl, hkind⟩ := hloc
  refine ⟨_, .here hkind he fun _ => rfl, fun z hz m => ?_⟩
  show Option.Rel _ (z.var? W name) _
  rw [h.var? hz, hl]
  exact .some ⟨.refl _ _, rfl⟩

theorem Finds.congr {spec spec' : State → Machine V H → Option (Loc V)}
    (h : Finds W s₀ s n kind spec)
    (he : ∀ z, s.Later z → ∀ m, spec z m = spec' z m) : Finds W s₀ s n kind spec' := by
  obtain ⟨L, hd, hm⟩ := h
  exact ⟨L, hd, fun z hz m => he z hz m ▸ hm z hz m⟩

theorem Finds.after_still {spec : State → Machine V H → Option (Loc V)}
    (h : Finds W s₁ s n kind spec) (he : Effect W s₀ s₁ some) :
    Finds W s₀ s n kind spec := by
  obtain ⟨L, hd, hm⟩ := h
  exact ⟨_, hd.after he, hm⟩

theorem indexText_finds {g : Machine V H → Option (Machine V H)}
    {table : State → Machine V H → Option V} (ht : TableOf t T)
    (htable : s.Table base s.fn.freeReg t) (hl : s.level ≤ base)
    (hi : Inv F none (· < s.fn.freeReg) s)
    (hT : HasTable W s₀ s base T g table) (text : Bytes) :
    Via Keeps (index t (.str text)) s fun e' s' =>
      Finds W s₀ s' base e'.kind (cellOf fun z m => (table z m).map (·, W.const (.str text))) := by
  have hle := htable.le
  refine index_finds ht htable hl (.text (Nat.le_trans hl hle) hi text) ⟨rfl, rfl, rfl⟩
    (L := fun m => (g m).map fun m' => (m', .const (W.const (.str text))))
      (.here rfl hT.1 fun _ => rfl) fun z hz m => ?_
  exact (hT.2 z hz m).map fun v m' ⟨hsame, hv⟩ => ⟨hsame, hv, rfl⟩

theorem globalAccess_finds (h : Inv F none (· < s.fn.freeReg) s) (hl : s.level ≤ s.fn.freeReg) :
    Via Keeps (globalAccess name) s fun e s' => Finds W s s' s.fn.freeReg e.kind
      (cellOf fun z m => ((z.var? W envName).bind (·.read W m)).map (·, W.const (.str name))) := by
  unfold globalAccess
  refine Via.bind ((resolve_spec h).and (resolve_effect (W := W) h)) ?_
  rintro m s₁ hk₁ ⟨⟨h₁, hf₁, hm⟩, he⟩
  refine Via.next (Via.noteMeaning h₁ hm ?_)
  have hl₁ : s₁.level ≤ s₁.fn.freeReg := by rw [hk₁.level, hf₁]; exact hl
  rw [← hf₁] at h₁
  have htable : ∀ {kind : ExpKind}, Read F s₁.fn.freeReg ⟨kind, none, none⟩ s₁ →
      m.kind? = some kind →
      Via Keeps (do
        let table ← toRegisterOrUpvalue ⟨kind, none, none⟩
        index table (.str name)) s₁ fun e s' => Finds W s s' s.fn.freeReg e.kind
          (cellOf fun z m => ((z.var? W envName).bind (·.read W m)).map
            (·, W.const (.str name))) := by
    intro kind hr hk
    rw [hf₁] at hr
    refine Via.bind ((toTable_spec hr.toVal).and
      (toRegisterOrUpvalue_effect hr.toVal (hm.finds hk h₁.base he))) ?_
    rintro t s₂ - ⟨⟨hl₂, ht, hi⟩, T, g, hT, hg⟩
    exact indexText_finds hT ht hl₂ hi hg name
  cases m with
  | localVar r i kd => exact Via.next (Via.pure (htable (hm.val h₁ hl₁ rfl) rfl))
  | upvalue i kd => exact Via.next (Via.pure (htable (hm.val h₁ hl₁ rfl) rfl))
  | constVar place => exact Via.next (Via.pure (htable (hm.val h₁ hl₁ rfl) rfl))
  | declared | undeclared => exact Via.next (Via.semanticError rfl)

theorem Finds.readOnly {e : Exp} {spec : State → Machine V H → Option (Loc V)}
    (h : Finds W s₀ s n e.kind spec) :
    Finds W s₀ s n e.readOnly.kind spec := by
  obtain ⟨kind, T, E⟩ := e
  obtain ⟨L, hd, hm⟩ := h
  cases kind with
  | indexed | indexUp | indexStr =>
    cases hd with
    | here hk hg hL => exact ⟨L, .here hk hg hL, hm⟩
  | _ => exact ⟨L, hd, hm⟩

theorem variableExp_finds (h : Inv F none (· < s.fn.freeReg) s) (hl : s.level ≤ s.fn.freeReg) :
    Via Keeps (variableExp name) s fun e s' => Finds W s s' s.fn.freeReg e.kind fun z m =>
      z.name? W name m := by
  unfold variableExp
  refine Via.bind ((resolve_spec h).and (resolve_effect (W := W) h)) ?_
  rintro m s₁ hk₁ ⟨⟨h₁, hf₁, hm⟩, he⟩
  refine Via.next (Via.noteMeaning h₁ hm ?_)
  have hl₁ : s₁.level ≤ s₁.fn.freeReg := by rw [hk₁.level, hf₁]; exact hl
  have hvar : ∀ {kind : ExpKind} {l : Loc V}, m.kind? = some kind → m.var? W s₁ = some l →
      Finds W s s₁ s.fn.freeReg kind fun z m => z.name? W name m := by
    intro kind l hk hl
    refine (hm.finds hk h₁.base he).congr fun z hz _ => ?_
    unfold State.name?
    rw [hm.var? hz, hl]
  have hfield : m.var? W s₁ = none → Via Keeps (globalAccess name) s₁ fun e s' =>
      Finds W s s' s.fn.freeReg e.kind fun z m => z.name? W name m := by
    intro hnone
    rw [← hf₁] at h₁
    refine (globalAccess_finds (W := W) h₁ hl₁).mono fun e s₂ hk₂ hf => ?_
    rw [hf₁] at hf
    refine (hf.after_still he).congr fun z hz m => ?_
    unfold cellOf State.name?
    rw [hm.var? (hz.after hk₂), hnone, Option.map_map]
    rfl
  have hdeclared : ∀ {place : Nat} {v : Variable}, s₁.vars[place]? = some v → m.var? W s₁ = none →
      Via Keeps (do
      let e ← globalAccess name
      return if (← variableAt place).kind = .constGlobal then e.readOnly else e) s₁ fun e s' =>
        Finds W s s' s.fn.freeReg e.kind fun z m => z.name? W name m := by
    intro place v hv hnone
    refine Via.bind (hfield hnone) fun e s₂ hk₂ hf => ?_
    refine Via.next (Via.variableAt (by rw [hk₂.vars]; exact (Array.getElem?_eq_some_iff.1 hv).1)
      fun v _ => Via.pure ?_)
    split
    · exact hf.readOnly
    · exact hf
  cases m with
  | localVar r i kd => exact Via.pure (hvar rfl rfl)
  | upvalue i kd => exact Via.pure (hvar rfl rfl)
  | constVar place =>
    obtain ⟨v, hv, -⟩ := hm.constant h₁.base
    exact Via.pure (hvar rfl (l := .const (W.const v.constant)) (by simp [Meaning.var?, hv]))
  | declared place =>
    obtain ⟨v, hv, -⟩ := Means.declaresGlobal h₁.base (.inl hm)
    exact hdeclared hv rfl
  | undeclared d =>
    cases d with
    | wildcard place =>
      obtain ⟨v, hv, -⟩ := Means.declaresGlobal h₁.base (.inr hm)
      exact hdeclared hv rfl
    | free => exact Via.bind (hfield rfl) fun e s₂ _ hf => Via.pure hf
    | closed => exact Via.semanticError rfl

end Compile

end LuaChunk
