import LuaChunk.Proofs.Machine.Names
import LuaChunk.Proofs.Compile.Chunk
import LuaChunk.Proofs.Syntax.Expressions

set_option autoImplicit false

namespace LuaChunk

open Grammar (ahead binaryKinds)

namespace Compile

def Ensures {α : Type} (m : M α) (s : State) (Q : α → State → Prop) : Prop :=
  ∀ a s', m s = .ok a s' → Q a s'

section

variable {α β : Type} {m : M α} {f : α → M β} {s s₁ : State} {Q Q' : α → State → Prop}
  {P : β → State → Prop}

theorem Via.ensures {R : State → State → Prop} (h : Via R m s Q) : Ensures m s fun a s' => R s s' ∧
    Q a s' := by
  intro a s' he
  unfold Via at h
  rw [he] at h
  exact h

namespace Ensures

theorem mono (h : Ensures m s Q) (hi : ∀ a s', Q a s' → Q' a s') : Ensures m s Q' :=
  fun a s' he => hi a s' (h a s' he)

theorem and (h : Ensures m s Q) (h' : Ensures m s Q') : Ensures m s fun a s' => Q a s' ∧ Q' a s' :=
  fun a s' he => ⟨h a s' he, h' a s' he⟩

theorem pure {a : α} (h : Q a s) : Ensures (Pure.pure a) s Q := by
  rintro _ _ ⟨⟩
  exact h

theorem advanced {taken : Nat} (h : Ensures m s Q) :
    Ensures (checkAdvance taken >>= fun _ => m) s Q := by
  intro a s' he
  by_cases hlt : taken < s.lexer.taken
  · exact h a s' ((bind_eq (checkAdvance_of_lt hlt)).symm.trans he)
  · change EStateM.bind (checkAdvance taken) _ s = _ at he
    rw [EStateM.bind, checkAdvance_of_not_lt hlt] at he
    cases he

theorem bind (h : Ensures m s Q) (hf : ∀ a s', Q a s' → Ensures (f a) s' P) :
    Ensures (m >>= f) s P := by
  intro b s' he
  have he : EStateM.bind m f s = .ok b s' := he
  unfold EStateM.bind at he
  cases hm : m s with
  | ok a s₁ =>
    rw [hm] at he
    exact hf a s₁ (h a s₁ hm) b s' he
  | error e s₁ =>
    rw [hm] at he
    cases he

theorem step {a : α} (h : m s = .ok a s₁) (hf : Ensures (f a) s₁ P) : Ensures (m >>= f) s P := by
  intro b s' he
  rw [bind_eq h] at he
  exact hf b s' he

theorem ite {c : Prop} [Decidable c] {m' : M α} (h : c → Ensures m s Q)
    (h' : ¬ c → Ensures m' s Q) :
    Ensures (if c then m else m') s Q := by
  split
  · exact h ‹_›
  · exact h' ‹_›

theorem discard (h : Ensures m s Q) : Ensures (Functor.discard m) s fun _ s' => ∃ a, Q a s' := by
  rintro _ s' he
  change EStateM.map _ m s = _ at he
  unfold EStateM.map at he
  cases hm : m s with
  | ok a s₁ =>
    rw [hm] at he
    cases he
    exact ⟨a, h a _ hm⟩
  | error e s₁ =>
    rw [hm] at he
    cases he

theorem faces [h : Still m] {i : List Token} (hs : s.Faces i) :
    Ensures m s fun _ s' => s'.Faces i := by
  intro a s' he
  have hm := h.faces s i hs
  rw [he] at hm
  exact hm

end Ensures

theorem Via.still {R : State → State → Prop} [Still m] {i : List Token} (h : Via R m s Q)
    (hs : s.Faces i) :
    Ensures m s fun a s' => (R s s' ∧ Q a s') ∧ s'.Faces i := h.ensures.and (.faces hs)

end

section

variable {s : State} {i : List Token}

theorem next_passes (hb : Base s) (h : s.Faces i) : ∃ l, s.Passes l ∧ next s = .ok ()
    (s.setLexer l) ∧ (s.setLexer l).Faces i.tail := by
  obtain ⟨s', he, hf⟩ := next_eq h
  have hp : Via Coded next s fun _ s' => ∃ l, s.Passes l ∧ s' = s.setLexer l :=
    Via.pass hb fun l hl => ⟨l, hl, rfl⟩
  obtain ⟨-, l, hl, rfl⟩ := hp.ensures () s' he
  exact ⟨l, hl, he, hf⟩

theorem takeName_passes {x : Bytes} (hb : Base s) (h : s.Faces (.name x :: i)) :
    ∃ l, s.Passes l ∧ takeName s = .ok x (s.setLexer l) ∧ (s.setLexer l).Faces i := by
  have htoken : s.lexer.token = .name x := h.token
  obtain ⟨s', he, hf⟩ := nextName_eq none h
  have hp : Via Coded (nextName none) s fun _ s' => ∃ l, s.Passes l ∧ s' = s.setLexer l :=
    Via.takeNext hb htoken fun l hl => ⟨l, hl.toPasses, rfl⟩
  obtain ⟨-, l, hl, rfl⟩ := hp.ensures () s' he
  refine ⟨l, hl, ?_, hf⟩
  unfold takeName
  rw [bind_eq (currentToken_eq h)]
  show (nextName none >>= fun _ => pure x) s = _
  rw [bind_eq he]
  rfl

theorem checkNext_passes {t : Token} (hb : Base s) (h : s.Faces (t :: i)) :
    ∃ l, s.Passes l ∧ checkNext t.kind s = .ok () (s.setLexer l) ∧ (s.setLexer l).Faces i := by
  obtain ⟨l, hl, he, hf⟩ := next_passes hb h
  refine ⟨l, hl, ?_, hf⟩
  have hkind : ¬ ahead (t :: i) ≠ t.kind := fun hne => hne rfl
  have hcheck : check t.kind s = .ok () s := by
    unfold check
    rw [bind_eq (currentKind_eq h), if_neg hkind]
    rfl
  unfold checkNext
  rw [bind_eq hcheck, he]

theorem testNext_passes {t : Token} (hb : Base s) (h : s.Faces (t :: i)) :
    ∃ x, s.Passes x ∧ testNext t.kind s = .ok true (s.setLexer x) ∧ (s.setLexer x).Faces i := by
  obtain ⟨x, hx, he, hf⟩ := next_passes hb h
  refine ⟨x, hx, ?_, hf⟩
  unfold testNext
  rw [bind_eq (currentKind_eq h), if_pos (show ahead (t :: i) = t.kind from rfl), bind_eq he]
  rfl

end

end Compile

def Token.constant? : Token → Option Value
  | .float x _ => some (.num (.float x))
  | .integer n _ => some (.num (.int n))
  | .string t _ => some (.str t)
  | .word .nil_ => some .nil
  | .word .true_ => some (.bool true)
  | .word .false_ => some (.bool false)
  | _ => none

structure Literal where
  token : Token
  value : Value
  constant : token.constant? = some value

/-- A variable, or a field of the table that another one is. -/
inductive Var where
  | name (x : Bytes)
  | field (table : Var) (key : Bytes)
  | item (table key : Var)
  | entry (table : Var) (key : Literal)

/-- A variable or a constant. -/
inductive Term where
  | var (v : Var)
  | literal (l : Literal)

namespace Var

/-- The field at a key. -/
def sub (table : Var) : Term → Var
  | .var k => table.item k
  | .literal l => table.entry l

def tokens : Var → List Token
  | name x => [.name x]
  | field t k => t.tokens ++ [.byte (byte '.'), .name k]
  | item t k => t.tokens ++ .byte (byte '[') :: (k.tokens ++ [.byte (byte ']')])
  | entry t l => t.tokens ++ [.byte (byte '['), l.token, .byte (byte ']')]

end Var

def Term.tokens : Term → List Token
  | var v => v.tokens
  | literal l => [l.token]

/-- What can follow a variable or a constant and go on with it. -/
def afterTerm : List TokenKind := Compile.suffixKinds ++ binaryKinds

section

variable {V H : Type} (W : World V H) (z : Compile.State) (m : Machine V H)

def Var.loc? : Var → Option (Loc V)
  | name x => z.name? W x m
  | field t k => ((loc? t).bind (·.read W m)).map fun v => .cell v (W.const (.str k))
  | item t k =>
    ((loc? t).bind (·.read W m)).bind fun v => ((loc? k).bind (·.read W m)).map fun w => .cell v w
  | entry t l => ((loc? t).bind (·.read W m)).map fun v => .cell v (W.const l.value)

namespace Term

def loc? : Term → Option (Loc V)
  | var v => v.loc? W z m
  | literal l => some (.const (W.const l.value))

def value? (t : Term) : Option V := (t.loc? W z m).bind (·.read W m)

end Term

end

theorem Var.starts (v : Var) (rest : List Token) : ∃ x i, v.tokens ++ rest = .name x :: i := by
  induction v generalizing rest with
  | name x => exact ⟨x, rest, rfl⟩
  | field t k ih | item t k ih _ | entry t l ih =>
    unfold tokens
    rw [List.append_assoc]
    exact ih _

theorem Term.not_unary (t : Term) (rest : List Token) :
    Compile.unaryOp? (ahead (t.tokens ++ rest)) = none := by
  cases t with
  | var v =>
    obtain ⟨x, i, hx⟩ := v.starts rest
    show Compile.unaryOp? (ahead (v.tokens ++ rest)) = none
    rw [hx]
    rfl
  | literal l =>
    obtain ⟨token, value, hvalue⟩ := l
    cases token with
    | word k => cases k <;> first | rfl | cases hvalue
    | float | integer | string => rfl
    | _ => cases hvalue

section

variable {V H : Type} {W : World V H} {z : Compile.State} {m m' : Machine V H} {n : Nat}

open Compile (Base)

theorem Var.loc?_sub (t : Var) (k : Term) :
    (t.sub k).loc? W z m = ((Term.var t).value? W z m).bind fun v => (k.value? W z m).map fun w =>
      .cell v w := by
  cases k with
  | var k => rfl
  | literal l => exact Option.map_eq_bind ..

theorem Var.loc?_below {v : Var} {l : Loc V} (hz : Base z) (h : v.loc? W z m = some l) :
    l.Below z.level := by
  cases v with
  | name x =>
    change z.name? W x m = some l at h
    unfold Compile.State.name? at h
    cases hv : z.var? W x with
    | some l' =>
      rw [hv] at h
      cases h
      exact Compile.State.var?_below hz hv
    | none =>
      rw [hv] at h
      obtain ⟨env, -, rfl⟩ := Option.map_eq_some_iff.1 h
      trivial
  | field t k | entry t l' =>
    obtain ⟨v, -, rfl⟩ := Option.map_eq_some_iff.1 h
    trivial
  | item t k =>
    obtain ⟨v, -, h⟩ := Option.bind_eq_some_iff.1 h
    obtain ⟨w, -, rfl⟩ := Option.map_eq_some_iff.1 h
    trivial

theorem Var.loc?_same {v : Var} (hz : Base z) (hn : z.level ≤ n) (h : m.Same n m') :
    v.loc? W z m' = v.loc? W z m := by
  have hread : ∀ {v : Var}, v.loc? W z m' = v.loc? W z m →
      (v.loc? W z m').bind (·.read W m') = (v.loc? W z m).bind (·.read W m) := by
    intro v hv
    rw [hv]
    exact Option.bind_congr fun l hl => Loc.read_same (h.mono hn) (loc?_below hz hl)
  induction v with
  | name x => exact Compile.State.name?_same hz hn h
  | field t k ih | entry t l ih =>
    unfold loc?
    rw [hread ih]
  | item t k iht ihk =>
    unfold loc?
    rw [hread iht, hread ihk]

theorem Term.value?_same {t : Term} (hz : Base z) (hn : z.level ≤ n) (h : m.Same n m') :
    t.value? W z m' = t.value? W z m := by
  unfold value?
  cases t with
  | literal l => rfl
  | var v =>
    show (v.loc? W z m').bind _ = (v.loc? W z m).bind _
    rw [Var.loc?_same hz hn h]
    exact Option.bind_congr fun l hl => Loc.read_same (h.mono hn) (Var.loc?_below hz hl)

end

namespace Compile

variable {V H : Type} {W : World V H} {F : List Pending} {base base₂ n : Nat} {e k : Exp}
  {kind : ExpKind} {s₀ s₁ s₂ s s' : State}
  {r : Nested} {T : Machine V H → V} {g : Machine V H → Option (Machine V H)} {rest : List Token}
  {l : Lexer}

theorem Effect.setLexer (h : Effect W s₀ s g) (l : Lexer) : Effect W s₀ (s.setLexer l) g :=
  h.andStill rfl rfl fun _ _ h => h

theorem Keeps.setLexer (h : Keeps s₀ s) (hl : s.Passes l) : Keeps s₀ (s.setLexer l) :=
  h.trans (Coded.setLexer hl).toKeeps

theorem HasTable.setLexer {table : State → Machine V H → Option V} (h : HasTable W s₀ s n T g table)
    (hl : s.Passes l) :
    HasTable W s₀ (s.setLexer l) n T g table :=
  ⟨h.1.setLexer l, fun z hz m => h.2 z (hz.after (Coded.setLexer hl).toKeeps) m⟩

theorem Finds.setLexer {spec : State → Machine V H → Option (Loc V)} (h : Finds W s₀ s n kind spec)
    (hl : s.Passes l) :
    Finds W s₀ (s.setLexer l) n kind spec := by
  obtain ⟨L, hd, hm⟩ := h
  exact ⟨L, hd.still rfl rfl rfl fun _ _ h => h,
    fun z hz m => hm z (hz.after (Coded.setLexer hl).toKeeps) m⟩

structure Stands (W : World V H) (F : List Pending) (s : State) (t : Term) (e : Exp) (s' : State) :
    Prop where
  read : Read F s.fn.freeReg e s'
  keeps : Keeps s s'
  plain : e = ⟨e.kind, none, none⟩
  finds : Finds W s s' s.fn.freeReg e.kind fun z m => t.loc? W z m
  named : ∀ v, t = .var v → e.isVariable = true

theorem Stands.setLexer {t : Term} {x : Lexer} (h : Stands W F s t e s₁) (hx : s₁.Passes x) :
    Stands W F s t e (s₁.setLexer x) :=
  ⟨h.read.setLexer hx, h.keeps.setLexer hx, h.plain, h.finds.setLexer hx, h.named⟩

theorem State.Faces.atLevel {i : List Token} (h : s.Faces i) (depth deepest : Nat) :
    (s.atLevel depth deepest).Faces i :=
  ⟨h.failure, h.token, h.rest, h.proper⟩

theorem Ensures.metered {α : Type} {m : M α} {Q : α → State → Prop}
    (h : Ensures m (s.atLevel (s.depth + 1) (max s.deepest (s.depth + 1))) fun a s' =>
    ∀ depth deepest, Q a (s'.atLevel depth deepest)) :
    Ensures (metered m) s Q := by
  refine .step (show enterLevel s = .ok () (s.atLevel (s.depth + 1) (max s.deepest (s.depth + 1)))
    from rfl) (.bind h ?_)
  intro a s' hq
  exact .step (show leaveLevel s' = .ok () (s'.atLevel (s'.depth - 1) s'.deepest) from rfl)
    (.pure (hq _ _))

theorem Stands.atLevel {t : Term} {d n d' n' : Nat} (h : Stands W F (s.atLevel d n) t e s₁) :
    Stands W F s t e (s₁.atLevel d' n') := by
  obtain ⟨hread, hkeeps, hplain, ⟨L, hd, hL⟩, hnamed⟩ := h
  have hlater : Keeps s₁ (s₁.atLevel d' n') := Coded.atLevel.toKeeps
  have hd' : Denotes W (s.atLevel d n) (s₁.atLevel d' n') (fun _ => True) e.kind L :=
    hd.still rfl rfl rfl fun _ _ h => h
  have hfinds : Finds W (s.atLevel d n) (s₁.atLevel d' n') s.fn.freeReg e.kind fun z m =>
      t.loc? W z m :=
    ⟨L, hd', fun z hz => hL z (hz.after hlater)⟩
  exact ⟨hread.atLevel, Coded.atLevel.toKeeps.trans (hkeeps.trans hlater), hplain,
    hfinds.after_still (.still rfl rfl fun _ _ h => h), hnamed⟩

theorem Stands.noting {t : Term} {m : M Exp}
    (h : Ensures m s₁ fun e s' => Stands W F s t e s' ∧ s'.Faces rest)
    (name : Option Bytes) :
    Ensures (do let e ← m; noteTarget name; return e) s₁ fun e s' => Stands W F s t e s' ∧
      s'.Faces rest := by
  refine h.bind ?_
  rintro e s' ⟨⟨hread, hkeeps, hplain, ⟨L, hd, hL⟩, hnamed⟩, hf⟩
  have hlater : Keeps s' (s'.relog name s'.writes) := Coded.retarget.toKeeps
  refine .step (show noteTarget name s' = .ok () (s'.relog name s'.writes) from rfl)
    (.pure ⟨?_, ⟨hf.1, hf.2, hf.3, hf.4⟩⟩)
  exact ⟨hread.relog, hkeeps.trans hlater, hplain,
    ⟨L, hd.still rfl rfl rfl fun _ _ h => h, fun z hz => hL z (hz.after hlater)⟩, hnamed⟩

def ReadsTerms (W : World V H) (F : List Pending) (r : Nested) : Prop :=
  ∀ (t : Term) (rest : List Token) (s : State), Ready F s → s.Faces (t.tokens ++ rest) →
    Avoids afterTerm (ahead rest) →
    Ensures (expression r) s fun e s' => Stands W F s t e s' ∧ s'.Faces rest

theorem fieldOf_stands {v : Var} {x : Bytes} {dot : Token} (h : Stands W F s (.var v) e s₁)
    (hf : s₁.Faces (dot :: .name x :: rest)) :
    Ensures (fieldOf e) s₁ fun e' s' => Stands W F s (.var (v.field x)) e' s' ∧ s'.Faces rest := by
  obtain ⟨hread, hkeep, hplain, hfinds, -⟩ := h
  obtain ⟨kind, T, E⟩ := e
  obtain ⟨rfl, rfl⟩ : T = none ∧ E = none := by simpa using hplain
  unfold fieldOf
  refine .bind
    (((toTable_spec hread.toVal).and (toRegisterOrUpvalue_effect hread.toVal hfinds)).still hf) ?_
  rintro t s₂ ⟨⟨hk₂, ⟨hl, ht, hi⟩, T, g, hT, hg⟩, hf₂⟩
  obtain ⟨l, hl₃, he₃, hf₃⟩ := next_passes hi.base hf₂
  refine .step he₃ ?_
  have hi₃ := hi.setLexer hl₃
  obtain ⟨l', hl₄, he₄, hf₄⟩ := takeName_passes hi₃.base hf₃
  refine .step he₄ ?_
  have hk₄ := (hk₂.setLexer hl₃).setLexer hl₄
  have ht₄ : State.Table ((s₂.setLexer l).setLexer l') s.fn.freeReg s₂.fn.freeReg t :=
    ht.mono ((Keeps.refl s₂).setLexer hl₃ |>.setLexer hl₄)
  have hi₄ := hi₃.setLexer hl₄
  refine Stands.noting ?_ none
  refine (((indexText_spec (s := (s₂.setLexer l).setLexer l') hl ht₄ hi₄).and
    (indexText_finds hT ht₄ hl hi₄ ((hg.setLexer hl₃).setLexer hl₄) x)).still hf₄).mono ?_
  rintro e s' ⟨⟨hk', ⟨hr, hn⟩, hfinds'⟩, hf'⟩
  refine ⟨⟨hr, hkeep.trans (hk₄.trans hk'), hr.eta (Exp.unsettled hn.2.isVariable), ?_,
    fun _ _ => hn.2.isVariable⟩, hf'⟩
  refine hfinds'.congr fun z _ m => ?_
  unfold cellOf
  rw [Option.map_map]
  rfl

theorem TableOf.same {t : Exp} {m m' : Machine V H} (ht : TableOf t T)
    (htable : s.Table base base₂ t) (hl : s.level ≤ base)
    (h : m.Same base₂ m') : T m' = T m := by
  cases ht with
  | inReg q =>
    cases htable with
    | inReg hq =>
      refine h.reg q ?_
      rcases hq with ⟨h₁, h₂⟩ | ⟨h₁, h₂⟩ <;> omega
  | upvalue i => exact congrFun h.up i

theorem HasTable.findsKey {t : Exp} {table value : State → Machine V H → Option V}
    (ht : TableOf t T) (htable : s₁.Table base base₂ t)
    (hl : s₁.level ≤ base) (hT : HasTable W s₀ s₁ base T g table) (hkeep : Keeps s₁ s₂)
    (hk : Finds W s₁ s₂ base₂ kind fun z m => (value z m).map Loc.const)
    (hsame : ∀ z, s₂.Later z → ∀ m m', m.Same base m' → value z m' = value z m) :
    ∃ L, Denotes W s₀ s₂ (fun _ => True) kind L ∧
      FindsKey s₂ base T (fun z m => (table z m).bind fun v => (value z m).map fun w => (v, w))
        L := by
  obtain ⟨L, hd, hL⟩ := hk
  refine ⟨_, hd.after hT.1, fun z hz m => (hT.2 z (hz.after hkeep) m).bind ?_⟩
  rintro v m' ⟨hm, rfl⟩
  have hkey : Option.Rel _ ((value z m').map Loc.const) (L m') := hL z hz m'
  rw [hsame z hz m m' hm] at hkey
  generalize value z m = x, L m' = y at hkey
  cases x with
  | none =>
    cases hkey
    exact .none
  | some w =>
    cases hkey with
    | some hkey =>
      obtain ⟨hm', hw⟩ := hkey
      exact .some ⟨hm.trans (hm'.mono htable.le), ht.same htable hl hm', hw⟩

theorem toValue_stands {t : Term} (h : Stands W F s t e s₁) (hf : s₁.Faces rest) :
    Ensures (toValue e) s₁ fun e' s' => (Keeps s s' ∧ Val F s.fn.freeReg e' s' ∧ e'.IsPlain) ∧
      Finds W s s' s.fn.freeReg e'.kind (fun z m => (t.value? W z m).map .const) ∧
        s'.Faces rest := by
  obtain ⟨hread, hkeep, hplain, hfinds, -⟩ := h
  obtain ⟨kind, T, E⟩ := e
  obtain ⟨rfl, rfl⟩ : T = none ∧ E = none := by simpa using hplain
  have hdis : toValue ⟨kind, none, none⟩ = dischargeVars ⟨kind, none, none⟩ := rfl
  have hval := hread.toVal
  refine (((toValue_spec hval).and (hdis ▸ Finds.discharge hval hfinds)).still hf).mono ?_
  rintro e' s' ⟨⟨hk, hv, hd⟩, hf'⟩
  exact ⟨⟨hkeep.trans hk, hv⟩, hd, hf'⟩

theorem bracketed_stands {t : Term} {bracket : Token} (hr : ReadsTerms W F r) (h : Ready F s)
    (hf : s.Faces (bracket :: (t.tokens ++ .byte (byte ']') :: rest))) :
    Ensures (bracketed r) s fun e s' => (Keeps s s' ∧ Val F s.fn.freeReg e s' ∧ e.IsPlain) ∧
      Finds W s s' s.fn.freeReg e.kind (fun z m => (t.value? W z m).map .const) ∧
        s'.Faces rest := by
  obtain ⟨l, hl, he, hf₁⟩ := next_passes h.inv.base hf
  refine .step he
    (.bind (hr t _ _ (h.setLexer hl) hf₁ (show Avoids afterTerm (.byte (byte ']')) by decide)) ?_)
  rintro e s₂ ⟨hstands, hf₂⟩
  refine .bind (toValue_stands hstands hf₂) ?_
  rintro e' s₃ ⟨⟨hk₃, hv₃, hp⟩, hd₃, hf₃⟩
  obtain ⟨l', hl', he', hf₄⟩ := checkNext_passes hv₃.toBase hf₃
  refine .step he' (.pure ⟨⟨?_, hv₃.setLexer hl', hp⟩, ?_, hf₄⟩)
  · exact (((Keeps.refl s).setLexer hl).trans hk₃).setLexer hl'
  · exact (hd₃.setLexer hl').after_still (Effect.refl.setLexer l)

theorem index_stands {v : Var} {t : Term} {bracket : Token} (hr : ReadsTerms W F r)
    (h : Stands W F s (.var v) e s₁) (hlow : s.level ≤ s.fn.freeReg)
    (hf : s₁.Faces (bracket :: (t.tokens ++ .byte (byte ']') :: rest))) :
    Ensures (do
      let table ← toRegisterOrUpvalue e
      let key ← bracketed r
      index table key) s₁ fun e' s' => Stands W F s (.var (v.sub t)) e' s' ∧ s'.Faces rest := by
  obtain ⟨hread, hkeep, hplain, hfinds, -⟩ := h
  obtain ⟨kind, T, E⟩ := e
  obtain ⟨rfl, rfl⟩ : T = none ∧ E = none := by simpa using hplain
  refine .bind
    (((toTable_spec hread.toVal).and (toRegisterOrUpvalue_effect hread.toVal hfinds)).still hf) ?_
  rintro table s₂ ⟨⟨hk₂, ⟨hl, ht, hi⟩, T, g, hT, hg⟩, hf₂⟩
  refine .bind (bracketed_stands hr ⟨hi, Nat.le_trans hl ht.le⟩ hf₂) ?_
  rintro key s₃ ⟨⟨hk₃, hv, hp⟩, hd, hf₃⟩
  have hlevel : ∀ z, s₃.Later z → z.level ≤ s.fn.freeReg := by
    intro z hz
    rw [hz.keeps.level, (hkeep.trans (hk₂.trans hk₃)).level]
    exact hlow
  obtain ⟨L, hL, hkey⟩ := hg.findsKey hT ht hl hk₃ hd fun z hz m m' hm =>
    Term.value?_same hz.base (hlevel z hz) hm
  have hl₃ : s₃.level ≤ s.fn.freeReg := hk₃.level.symm ▸ hl
  have hvar : Ensures (index table key) s₃ fun e _ => e.isVariable = true :=
    (results_index table key).holds s₃
  refine ((((index_spec hl₃ (ht.mono hk₃) hv hp).and
    (index_finds hT (ht.mono hk₃) hl₃ hv hp hL hkey)).still hf₃).and hvar).mono ?_
  rintro e s' ⟨⟨⟨hk', ⟨hr', -⟩, hfinds'⟩, hf'⟩, he⟩
  refine ⟨⟨hr', hkeep.trans (hk₂.trans (hk₃.trans hk')), hr'.eta (Exp.unsettled he), ?_,
    fun _ _ => he⟩, hf'⟩
  refine hfinds'.congr fun z _ m => ?_
  show _ = (v.sub t).loc? W z m
  rw [Var.loc?_sub]
  unfold cellOf
  rw [Option.map_bind]
  exact Option.bind_congr fun w _ => Option.map_map ..

theorem takeVariable_stands {x : Bytes} (h : Ready F s) (hf : s.Faces (.name x :: rest)) :
    Ensures takeVariable s fun e s' => Stands W F s (.var (.name x)) e s' ∧ s'.Faces rest := by
  unfold takeVariable
  refine .step (currentToken_eq hf) ?_
  show Ensures (do
    nextName ((← get).declarationOf x)
    readVariable x) s _
  refine .step (show (get : M State) s = .ok s s from rfl) ?_
  have htoken : s.lexer.token = .name x := hf.token
  obtain ⟨s', he, hf'⟩ := nextName_eq (s.declarationOf x) hf
  have hp : Via Coded (nextName (s.declarationOf x)) s fun _ s' => ∃ l, s.Passes l ∧
      s' = s.setLexer l :=
    Via.takeNext h.inv.base htoken fun l hl => ⟨l, hl.toPasses, rfl⟩
  obtain ⟨-, l, hl, rfl⟩ := hp.ensures () s' he
  refine .step he ?_
  have hi := h.inv.setLexer hl
  refine Stands.noting ?_ (some x)
  refine (((variableExp_spec (s := s.setLexer l) hi h.low).and
    (variableExp_finds (W := W) (s := s.setLexer l) hi h.low)).still hf').mono ?_
  rintro e s₂ ⟨⟨hk, ⟨hr, hv, -⟩, hfinds⟩, hf₂⟩
  refine ⟨⟨hr, ((Keeps.refl s).setLexer hl).trans hk, hr.eta (Exp.unsettled hv), ?_, fun _ _ => hv⟩,
    hf₂⟩
  exact hfinds.after_still (Effect.refl.setLexer l)

theorem suffixTurn_done {line : Nat} (hf : s.Faces rest) (hstop : Avoids suffixKinds (ahead rest)) :
    suffixTurn r line e s = .ok (.done e) s := by
  simp only [Avoids, suffixKinds, Grammar.Phrase.starts, List.mem_cons, List.not_mem_nil, or_false,
    not_or] at hstop
  obtain ⟨hfield, hindex, hparen, hstring, hbrace, hmethod⟩ := hstop
  unfold suffixTurn
  rw [bind_eq (currentKind_eq hf), if_neg hfield, if_neg hindex, if_neg hmethod,
    if_neg (by simp [hparen, hstring, hbrace])]
  rfl

theorem suffixTurn_field {v : Var} {x : Bytes} {line : Nat} (h : Stands W F s (.var v) e s₁)
    (hf : s₁.Faces (.byte (byte '.') :: .name x :: rest)) :
    Ensures (suffixTurn r line e) s₁ fun t s' => ∃ e', t = .again e' ∧
      Stands W F s (.var (v.field x)) e' s' ∧ s'.Faces rest := by
  have hfield : ahead (.byte (byte '.') :: .name x :: rest) = .char '.' := rfl
  unfold suffixTurn
  refine .step (currentKind_eq hf) ?_
  rw [if_pos hfield]
  exact (fieldOf_stands h hf).bind fun e' s' h => .pure ⟨e', rfl, h⟩

theorem suffixTurn_sub {v : Var} {t : Term} {line : Nat} (hr : ReadsTerms W F r)
    (hlow : s.level ≤ s.fn.freeReg)
    (h : Stands W F s (.var v) e s₁)
    (hf : s₁.Faces (.byte (byte '[') :: (t.tokens ++ .byte (byte ']') :: rest))) :
    Ensures (suffixTurn r line e) s₁ fun t' s' => ∃ e', t' = .again e' ∧
      Stands W F s (.var (v.sub t)) e' s' ∧ s'.Faces rest := by
  have hfield : ¬ ahead (.byte (byte '[') :: (t.tokens ++ .byte (byte ']') :: rest)) = .char '.' :=
    fun he => absurd (show TokenKind.char '[' = .char '.' from he) (by decide)
  have hindex : ahead (.byte (byte '[') :: (t.tokens ++ .byte (byte ']') :: rest)) = .char '[' :=
    rfl
  unfold suffixTurn
  refine .step (currentKind_eq hf) ?_
  rw [if_neg hfield, if_pos hindex]
  have hagain := ((Stands.noting (index_stands hr h hlow hf) none)).bind
    (P := fun t' s' => ∃ e', t' = Turn.again (β := Exp) e' ∧
    Stands W F s (.var (v.sub t)) e' s' ∧ s'.Faces rest) fun e' s' h =>
      Ensures.pure (a := Turn.again e') ⟨e', rfl, h⟩
  simpa only [bind_assoc, pure_bind] using hagain

/-- The loop that reads fields goes on as long as there are some: what holds of the rest of the loop
holds of all of it. -/
theorem suffixed_goesOn {v : Var} {Q : Exp → State → Prop} (hr : ReadsTerms W F r) (h : Ready F s)
    (hf : s.Faces (v.tokens ++ rest))
    (hQ : ∀ n e s', Stands W F s (.var v) e s' → s'.Faces rest →
    Ensures (iterate (suffixTurn r s.lexer.line) n e) s' Q) :
    Ensures (suffixed r) s Q := by
  have hturn : ∀ {v v' : Var} {i j : List Token}, (∀ e s', Stands W F s (.var v) e s' → s'.Faces i →
      Ensures (suffixTurn r s.lexer.line e) s' fun t s'' => ∃ e', t = .again e' ∧
        Stands W F s (.var v') e' s'' ∧ s''.Faces j) →
      (∀ n e s', Stands W F s (.var v') e s' → s'.Faces j →
        Ensures (iterate (suffixTurn r s.lexer.line) n e) s' Q) →
      ∀ n e s', Stands W F s (.var v) e s' → s'.Faces i →
        Ensures (iterate (suffixTurn r s.lexer.line) n e) s' Q := by
    intro v v' i j hstep hrest n e s' hs hf
    cases n with
    | zero => exact fun a s'' he => nomatch he
    | succ n =>
      refine .step (tokensTaken_eq s') (.bind (hstep e s' hs hf) ?_)
      rintro _ s'' ⟨e', rfl, hs', hf'⟩
      exact .advanced (hrest n e' s'' hs' hf')
  induction v generalizing rest with
  | name x =>
    rw [suffixed_eq]
    refine .step (show currentLine s = .ok s.lexer.line s from rfl) ?_
    have hprimary : primary r s = takeVariable s := by
      unfold primary
      rw [bind_eq (currentToken_eq hf)]
      rfl
    have hfirst : Ensures (primary r) s fun e s' => Stands W F s (.var (.name x)) e s' ∧
        s'.Faces rest :=
      fun e s' he => takeVariable_stands h hf e s' (hprimary.symm.trans he)
    refine hfirst.bind ?_
    rintro e s₁ ⟨hs, hf₁⟩
    exact .step (show (get : M State) s₁ = .ok s₁ s₁ from rfl) (hQ _ e s₁ hs hf₁)
  | field v x ih =>
    have hf' : s.Faces (v.tokens ++ .byte (byte '.') :: .name x :: rest) := by
      simpa [Var.tokens] using hf
    refine ih hf' ?_
    exact hturn (fun e s' hs hf => suffixTurn_field hs hf) hQ
  | item v k ih _ =>
    have hf' : s.Faces (v.tokens ++ .byte (byte '[') ::
        ((Term.var k).tokens ++ .byte (byte ']') :: rest)) := by
      simpa [Var.tokens, Term.tokens] using hf
    refine ih hf' ?_
    exact hturn (fun e s' hs hf => suffixTurn_sub hr h.low hs hf) hQ
  | entry v l ih =>
    have hf' : s.Faces (v.tokens ++ .byte (byte '[') ::
        ((Term.literal l).tokens ++ .byte (byte ']') :: rest)) := by
      simpa [Var.tokens, Term.tokens] using hf
    refine ih hf' ?_
    exact hturn (fun e s' hs hf => suffixTurn_sub hr h.low hs hf) hQ

theorem suffixed_stands {v : Var} (hr : ReadsTerms W F r) (h : Ready F s)
    (hf : s.Faces (v.tokens ++ rest))
    (hstop : Avoids suffixKinds (ahead rest)) :
    Ensures (suffixed r) s fun e s' => Stands W F s (.var v) e s' ∧ s'.Faces rest := by
  refine suffixed_goesOn hr h hf fun n e s' hs hf' => ?_
  cases n with
  | zero => exact fun a s'' he => nomatch he
  | succ n => exact .step (tokensTaken_eq s') (.step (suffixTurn_done hf' hstop) (.pure ⟨hs, hf'⟩))

theorem simpleExpression_literal (l : Literal) (hf : s.Faces (l.token :: rest)) :
    simpleExpression r s = (do next; return Exp.mk (.ofValue l.value) none none : M Exp) s := by
  obtain ⟨token, value, hvalue⟩ := l
  unfold simpleExpression
  rw [bind_eq (currentToken_eq hf)]
  cases token with
  | word k => cases k <;> first | (cases hvalue; rfl) | cases hvalue
  | float | integer | string =>
    cases hvalue
    rfl
  | _ => cases hvalue

theorem Literal.loc? (l : Literal) : (ExpKind.ofValue l.value).loc? W s = some fun _ =>
    .const (W.const l.value) := by
  obtain ⟨token, value, hvalue⟩ := l
  cases token with
  | word k => cases k <;> first | (cases hvalue; rfl) | cases hvalue
  | float | integer | string =>
    cases hvalue
    rfl
  | _ => cases hvalue

theorem literal_stands {l : Literal} (h : Ready F s) (hf : s.Faces (l.token :: rest)) :
    Ensures (simpleExpression r) s fun e s' => Stands W F s (.literal l) e s' ∧ s'.Faces rest := by
  have hrun : Ensures (do next; return Exp.mk (.ofValue l.value) none none : M Exp) s fun e s' =>
      Stands W F s (.literal l) e s' ∧ s'.Faces rest := by
    obtain ⟨x, hx, he, hf'⟩ := next_passes h.inv.base hf
    have hv := Val.ofValue (h.setLexer hx).low (h.setLexer hx).inv rfl l.value
    refine .step he
      (.pure ⟨⟨⟨hv, .of_ne (ofValue_ne_relocatable _)⟩, (Keeps.refl s).setLexer hx, rfl, ?_,
      fun _ he => nomatch he⟩, hf'⟩)
    exact ⟨_, .here (Literal.loc? l) (Effect.refl.setLexer x) fun _ => rfl,
      fun z _ m => .some ⟨.refl _ _, rfl⟩⟩
  intro e s' he
  rw [simpleExpression_literal l hf] at he
  exact hrun e s' he

theorem simpleExpression_stands {t : Term} (hr : ReadsTerms W F r) (h : Ready F s)
    (hf : s.Faces (t.tokens ++ rest))
    (hstop : Avoids suffixKinds (ahead rest)) :
    Ensures (simpleExpression r) s fun e s' => Stands W F s t e s' ∧ s'.Faces rest := by
  cases t with
  | literal l => exact literal_stands h hf
  | var v =>
    have hsimple : simpleExpression r s = suffixed r s := by
      obtain ⟨x, i, hx⟩ := v.starts rest
      change s.Faces (v.tokens ++ rest) at hf
      rw [hx] at hf
      unfold simpleExpression
      rw [bind_eq (currentToken_eq hf)]
      rfl
    intro e s' he
    exact suffixed_stands hr h hf hstop e s' (hsimple.symm.trans he)

theorem nested_readsTerms (n : Nat) : ReadsTerms W F (nested n) := by
  induction n with
  | zero =>
    exact fun t rest s _ _ _ => Ensures.bind (Q := fun _ _ => False) (fun a s' he => nomatch he)
      fun _ _ h => h.elim
  | succ n ih =>
    intro t rest s h hf hstop
    have hsuffix : Avoids suffixKinds (ahead rest) := fun hm => hstop (List.mem_append_left _ hm)
    have hbinary : binaryOp? (ahead rest) = none :=
      binaryOp?_eq_none.2 fun hm => hstop (List.mem_append_right _ hm)
    have hsub : ∀ s : State, Ready F s → s.Faces (t.tokens ++ rest) →
        Ensures (subExpression (nested n) 0) s fun p s' => Stands W F s t p.1 s' ∧
          s'.Faces rest := by
      intro s h hf
      rw [subExpression_eq]
      refine .step (currentKind_eq hf) ?_
      rw [t.not_unary rest]
      refine .bind (simpleExpression_stands ih h hf hsuffix) ?_
      rintro e s' ⟨hs, hf'⟩
      refine .step (currentKind_eq hf') (.step (show (get : M State) s' = .ok s' s' from rfl) ?_)
      rw [hbinary]
      cases s'.bound with
      | zero => exact fun a s'' he => nomatch he
      | succ k =>
        exact .step (tokensTaken_eq s') (.step (a := Turn.done (e, none)) rfl (.pure ⟨hs, hf'⟩))
    refine .bind (Ensures.metered
      ((hsub _ h.atLevel (hf.atLevel _ _)).mono fun p s' hp depth deepest => ?_)) fun p s' hp =>
      .pure hp
    exact ⟨hp.1.atLevel, hp.2.atLevel depth deepest⟩

end Compile

end LuaChunk
