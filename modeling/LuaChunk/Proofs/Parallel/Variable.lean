import LuaChunk.Proofs.Compile.Chunk
import LuaChunk.Proofs.Parallel.Names

set_option autoImplicit false

namespace LuaChunk.Compile

open LuaChunk

variable {ρ : Renaming} {α β : Type} {K : Like α} {L : Like β} {s s' : State} {name name' : Bytes}

instance follows_resolveEnv : Follows ρ .same (resolve envName) (resolve envName) where
  evolving := evolving_resolve envName
  evolving' := evolving_resolve envName
  agrees s s' ht hl hl' := by
    have hb := agrees_resolve ht ht.alike_env hl hl'
    revert hb
    generalize resolve envName s = r
    generalize resolve envName s' = r'
    intro hb
    cases hb with
    | ok hm ht => exact .ok hm.1 ht
    | error hk => exact .error hk

instance follows_noteMeaning (name name' : Bytes) (m m' : Meaning) :
    Follows ρ .same (noteMeaning name m) (noteMeaning name' m') :=
  ⟨evolving_noteMeaning name m, evolving_noteMeaning name' m', fun _ _ ht _ _ =>
    .ok rfl { ht with }⟩

instance follows_globalAccess (name : Bytes) : Follows ρ .same (globalAccess name)
    (globalAccess name) := by
  unfold globalAccess
  refine .seq inferInstance fun m => .seq inferInstance fun _ => ?_
  cases m <;> infer_instance

instance follows_variableOf (name : Bytes) (m : Meaning) : Follows ρ .same (variableOf name m)
    (variableOf name m) := by
  have hglobal : ∀ place, Follows ρ .same
      (do
        let e ← globalAccess name
        return if (← variableAt place).kind = .constGlobal then e.readOnly else e)
      (do
        let e ← globalAccess name
        return if (← variableAt place).kind = .constGlobal then e.readOnly else e) := by
    intro place
    refine .seq inferInstance fun e => .bind (follows_variableAt place) fun ρ v v' h => ?_
    rw [h.kind]
    infer_instance
  unfold variableOf
  split <;> infer_instance

theorem agrees_variableExp (ht : Twin ρ s s') (h : Alike s s' name name')
    (hnone : ρ.declaration = none → name' = name) :
    Agrees ρ .same (variableExp name s) (variableExp name' s') := by
  rw [variableExp_eq, variableExp_eq]
  have hevolving : ∀ name m, Evolving (do
      noteMeaning name m
      variableOf name m) := fun name m =>
    (evolving_noteMeaning name m).bind fun _ => (follows_variableOf (ρ := ρ) name m).evolving
  refine (agrees_resolve ht h).bind (hevolving name) (hevolving name') fun m m' t t' hm ht => ?_
  obtain ⟨rfl, hkept⟩ := hm
  refine ((follows_noteMeaning name name' m' m').agrees t t' ht).bind
    (fun _ => (follows_variableOf (ρ := ρ) name m').evolving)
    (fun _ => (follows_variableOf (ρ := ρ) name' m').evolving) fun _ _ t t' _ ht => ?_
  by_cases hg : m'.isGlobal = true
  · have hname : name' = name := by
      cases hd : ρ.declaration with
      | none => exact hnone hd
      | some d => exact hkept (by rw [hd]; rfl) hg
    subst hname
    exact (follows_variableOf name' m').agrees t t' ht
  · cases m' with
    | localVar | upvalue | constVar => exact fun _ _ => .ok rfl ht
    | declared | undeclared => exact (hg rfl).elim

/-- Tokens that differ at most in spelling and in the text of a name. -/
def Like.shape : Like Token := .by_ Token.shape

theorem follows_currentToken : Follows ρ .shape currentToken currentToken :=
  .get (·.lexer.token) (K := .shape) (fun _ _ _ h => h.lexer.token.shape) fun _ _ _ h => .pure h

theorem follows_token {f f' : Token → M β} (hf : ∀ t, f t.shape = f t)
    (hf' : ∀ t, f' t.shape = f' t)
    (h : ∀ ρ t, Follows ρ L (f t) (f' t)) : Follows ρ L (currentToken >>= f)
    (currentToken >>= f') :=
  follows_currentToken.bind fun ρ t t' ht => by
    rw [← hf t, ← hf' t', show t'.shape = t.shape from ht]
    exact h ρ t.shape

instance follows_errorExpected (k k' : TokenKind) : Follows ρ K (errorExpected k)
    (errorExpected k') :=
  .syntaxError _ _

instance follows_nextName (d d' : Option Nat) : Follows ρ .same (nextName d) (nextName d') :=
  .onLexer (Lexer.extends_nextName d) (Lexer.extends_nextName d') fun _ _ h =>
    have ⟨t, t', hm, hm', ht, _⟩ := h.nextName d d'
    ⟨(), (), t, t', hm, hm', rfl, ht⟩

theorem not_astray {r : EStateM.Result Failure State α} (h : ¬ Lost ρ r) :
    ¬ Astray ρ (final r) := by
  cases r with
  | ok a t => exact h
  | error e t =>
    cases e with
    | broken a => exact (h trivial).elim
    | error e => exact h
    | read m => exact h

/-- What a token stands for, a variable declared by a token or none, tells whether it is renamed. -/
structure Renaming.Stands (ρ : Renaming) (k : Nat) (d : Option Nat) (name name' : Bytes) :
    Prop where
  renamed : ρ.Is d → name' = ρ.new ∧ (ρ.declaration = some k → name = ρ.old)
  kept : ¬ ρ.Is d → name' = name ∧ (ρ.declaration.isSome → name ≠ ρ.new)

/-- A name is passed. What it stands for in the first run is consistent, unless the run is lost. -/
theorem agrees_passName {m m' : M β} {d d' : Option Nat} (ht : Twin ρ s s')
    (hx : s.lexer.token = .name name)
    (hx' : s'.lexer.token = .name name') (he : Evolving m)
    (h : ∀ l l', ρ.Stands s.lexer.number d name name' →
    Twin ρ { s with lexer := l } { s' with lexer := l' } →
      Agrees ρ L (m { s with lexer := l }) (m' { s' with lexer := l' })) :
    Agrees ρ L ((do nextName d; m) s) ((do nextName d'; m') s') := by
  obtain ⟨l, l', hl, hl', htl, hb⟩ := ht.lexer.nextName d d'
  have hpass : ∀ {s : State} {d : Option Nat} {l : Lexer}, Lexer.nextName d s.lexer = .ok () l →
      nextName d s = .ok () { s with lexer := l } := by
    intro s d l hl
    unfold nextName onLexer
    dsimp only
    rw [hl]
  rw [bind_eq (hpass hl), bind_eq (hpass hl')]
  intro hlost hlost'
  have hcons : ρ.Consistent l.bindings := Classical.not_not.1 fun hc =>
    not_astray hlost (Astray.evolve (.inr hc) (he { s with lexer := l }))
  have hhits := hcons _ hb
  have hfit := ht.lexer.token
  rw [hx, hx'] at hfit
  exact h l l' ⟨fun hi => hfit.1 (hhits.2 hi), fun hi => hfit.2 fun hh => hi (hhits.1 hh)⟩
    { ht with lexer := htl } hlost hlost'

theorem token_cases (ht : Twin ρ s s') :
    (∃ x x', s.lexer.token = .name x ∧ s'.lexer.token = .name x') ∨
      (∀ x, s.lexer.token ≠ .name x) ∧ ∀ x, s'.lexer.token ≠ .name x := by
  have hshape := ht.lexer.token.shape
  generalize s.lexer.token = t at hshape ⊢
  generalize s'.lexer.token = t' at hshape ⊢
  cases t <;> cases t' <;> first
    | exact .inl ⟨_, _, rfl, rfl⟩
    | (cases hshape; done)
    | exact .inr ⟨nofun, nofun⟩

def expectName (f : Bytes → M α) : M α := do
  match ← currentToken with
  | .name x => f x
  | _ => errorExpected .name

theorem expectName_of {f : Bytes → M α} (h : s.lexer.token = .name name) :
    expectName f s = f name s := by
  show (match s.lexer.token with
    | .name x => f x
    | _ => errorExpected .name : M α) s = _
  rw [h]

theorem expectName_error {f : Bytes → M α} (h : ∀ x, s.lexer.token ≠ .name x) :
    expectName f s = (errorExpected .name : M α) s := by
  show (match s.lexer.token with
    | .name x => f x
    | _ => errorExpected .name : M α) s = _
  generalize s.lexer.token = t at h
  cases t with
  | name x => exact (h x rfl).elim
  | _ => rfl

theorem evolving_expectName {f : Bytes → M α} (h : ∀ x, Evolving (f x)) :
    Evolving (expectName f) := by
  intro s
  cases hx : s.lexer.token with
  | name x =>
    rw [expectName_of hx]
    exact h x s
  | _ =>
    rw [expectName_error (by rw [hx]; nofun)]
    exact (follows_errorExpected (ρ := .none) (K := .any) .name .name).evolving s

theorem follows_expectName {f f' : Bytes → M α} (he : ∀ x, Evolving (f x))
    (he' : ∀ x, Evolving (f' x))
    (h : ∀ s s' x x', Twin ρ s s' → s.lexer.token = .name x → s'.lexer.token = .name x' →
    Agrees ρ K (f x s) (f' x' s')) :
    Follows ρ K (expectName f) (expectName f') := by
  refine ⟨evolving_expectName he, evolving_expectName he', fun s s' ht => ?_⟩
  rcases token_cases ht with ⟨x, x', hx, hx'⟩ | ⟨hx, hx'⟩
  · rw [expectName_of hx, expectName_of hx']
    exact h s s' x x' ht hx hx'
  · rw [expectName_error hx, expectName_error hx']
    exact (follows_errorExpected .name .name).agrees s s' ht

theorem evolving_nextName (d : Option Nat) : Evolving (nextName d) :=
  (follows_nextName (ρ := .none) d d).evolving

def Like.kept : Like Bytes :=
  ⟨fun ρ x x' => x' = x ∧ (ρ.declaration.isSome → x ≠ ρ.new), fun _ => ⟨rfl, nofun⟩⟩

theorem follows_takeName : Follows ρ .kept takeName takeName := by
  have he : ∀ x, Evolving (do nextName none; return x : M Bytes) :=
    fun x => (evolving_nextName none).bind fun _ => .refl
  refine follows_expectName (f := fun x => do nextName none; return x) he he
    fun s s' x x' ht hx hx' => ?_
  exact agrees_passName ht hx hx' .refl fun l l' h ht _ _ => .ok (h.kept Renaming.not_is_none) ht

instance follows_takenName : Follows ρ .same takeName takeName :=
  follows_takeName.weaken fun h => h.1

/-- The name of a declared variable, and the number of the token that declares it. -/
def Like.declared : Like (Bytes × Nat) :=
  ⟨fun ρ p p' => p'.2 = p.2 ∧ ρ.Names (some p.2) (some p.1) (some p'.1), fun _ => ⟨rfl, .of_none _⟩⟩

/-- The name of a variable, passed with the number of its token. -/
def passDeclared (name : Bytes) : M (Bytes × Nat) := do
  let number := (← get).lexer.number
  nextName (some number)
  return (name, number)

theorem takeDeclared_eq : takeDeclared = expectName passDeclared := by
  funext s
  show (match s.lexer.token with
    | .name x => (do nextName (some s.lexer.number); return (x, s.lexer.number))
    | _ => errorExpected .name : M (Bytes × Nat)) s = _
  cases hx : s.lexer.token with
  | name x =>
    rw [expectName_of hx]
    rfl
  | _ => exact (expectName_error (by rw [hx]; nofun)).symm

theorem evolving_passDeclared (name : Bytes) : Evolving (passDeclared name) := by
  intro s
  have hreturn : Evolving (pure (name, s.lexer.number)) := .refl
  exact (evolving_nextName (some s.lexer.number)).bind (fun _ => hreturn) s

instance follows_takeDeclared : Follows ρ .declared takeDeclared takeDeclared := by
  rw [takeDeclared_eq]
  refine follows_expectName evolving_passDeclared evolving_passDeclared fun s s' x x' ht hx hx' =>
    ?_
  refine agrees_passName ht hx hx' .refl fun l l' h htl _ _ => .ok ⟨ht.lexer.number, ?_, ?_⟩ htl
  · intro hi
    obtain ⟨hnew, hold⟩ := h.renamed hi
    rw [hnew, hold hi.2.symm]
    exact ⟨rfl, rfl⟩
  · intro hi
    obtain ⟨hsame, hne⟩ := h.kept hi
    exact ⟨congrArg some hsame, fun hd he => hne hd (Option.some.inj he)⟩

theorem declarationOf_found {depth place : Nat} {v : Variable}
    (h : innermost? s.vars (Variable.declares name) s.sites = some (depth, place))
    (hv : s.vars[place]? = some v) :
    s.declarationOf name = v.declaredAt := by
  unfold State.sites at h
  unfold State.declarationOf
  rw [h]
  simp only [hv, Option.bind_some]

theorem declarationOf_missing (h : innermost? s.vars (Variable.declares name) s.sites = none) :
    s.declarationOf name = none := by
  unfold State.sites at h
  unfold State.declarationOf
  rw [h]

/-- A name that stands for the renamed variable in the first run is renamed, and stands for it in
the second. -/
theorem Twin.alike {k : Nat} (ht : Twin ρ s s') (h : ρ.Stands k (s.declarationOf name) name name') :
    Alike s s' name name' := by
  by_cases hi : ρ.Is (s.declarationOf name)
  · have hfound : ∃ depth place v, innermost? s.vars (Variable.declares name) s.sites =
        some (depth, place) ∧
        s.vars[place]? = some v ∧ v.declaredAt = s.declarationOf name ∧ v.name = some name := by
      cases hp : innermost? s.vars (Variable.declares name) s.sites with
      | none =>
        rw [declarationOf_missing hp] at hi
        exact (Renaming.not_is_none hi).elim
      | some p =>
        obtain ⟨v, hv, hd⟩ := innermost?_eq_some hp
        exact ⟨p.1, p.2, v, rfl, hv, (declarationOf_found hp hv).symm, eq_of_beq hd⟩
    obtain ⟨depth, place, v, hp, hv, hdecl, hname⟩ := hfound
    have hboth : v.name = some ρ.old ∧ ∀ v', s'.vars[place]? = some v' → v'.name = some ρ.new := by
      rcases ht.vars.get place with ⟨hv', -⟩ | ⟨w, w', hw, hw', hl⟩
      · cases hv.symm.trans hv'
      · cases hv.symm.trans hw
        obtain ⟨hold, hnew⟩ := hl.names.renamed (hdecl ▸ hi)
        exact ⟨hold, fun v' hv' => Option.some.inj (hw'.symm.trans hv') ▸ hnew⟩
    obtain ⟨hold, hnew, -⟩ := ρ.fresh hi.some
    obtain ⟨rfl, -⟩ := h.renamed hi
    obtain rfl : name = ρ.old := Option.some.inj (hname.symm.trans hboth.1)
    refine ⟨fun hn => ?_, ht.innermost (fun v v' hl hd => ?_) fun depth' place' w w' hp' hw hw' =>
      ?_, ?_⟩
    · rw [hn] at hp
      cases hp
    · have hnew : v'.name = some ρ.new := eq_of_beq hd
      by_cases hv : ρ.Is v.declaredAt
      · exact beq_iff_eq.2 (hl.names.renamed hv).1
      · obtain ⟨hsame, hne⟩ := hl.names.kept hv
        exact (hne hi.some (hsame ▸ hnew)).elim
    · rw [hp] at hp'
      cases hp'
      exact beq_iff_eq.2 (hboth.2 w' hw')
    · exact ⟨fun h => (hnew h).elim, fun h => (hold h).elim⟩
  · obtain ⟨rfl, hne⟩ := h.kept hi
    refine ⟨fun _ => rfl, ht.innermost (fun v v' hl hd => ?_) fun depth place v v' hp hv hv' => ?_,
      Iff.rfl⟩
    · unfold Variable.declares at hd ⊢
      by_cases hv : ρ.Is v.declaredAt
      · rw [(hl.names.renamed hv).2] at hd
        exact (hne hv.some (Option.some.inj (eq_of_beq hd)).symm).elim
      · rwa [← (hl.names.kept hv).1]
    · rw [declarationOf_found hp hv] at hi
      obtain ⟨w, hw, hd⟩ := innermost?_eq_some hp
      cases hv.symm.trans hw
      unfold Variable.declares at hd ⊢
      rwa [((ht.vars.like _ _ _ hv hv').names.kept hi).1]

instance follows_noteTarget (name name' : Option Bytes) : Follows ρ .same (noteTarget name)
    (noteTarget name') :=
  .modify (fun _ => .of_eq rfl rfl) (fun _ => .of_eq rfl rfl) fun _ _ h => { h with }

def passVariable (name : Bytes) : M Exp := do
  nextName ((← get).declarationOf name)
  readVariable name

theorem takeVariable_eq : takeVariable = expectName passVariable := rfl

theorem evolving_variableExp (name : Bytes) : Evolving (variableExp name) := by
  rw [variableExp_eq]
  exact (evolving_resolve name).bind fun m =>
    (evolving_noteMeaning name m).bind fun _ => (follows_variableOf (ρ := .none) name m).evolving

theorem follows_recorded (name name' : Bytes) (e : Exp) : Follows ρ .same
    (do noteTarget (some name); return e : M Exp) (do noteTarget (some name'); return e) :=
    inferInstance

theorem evolving_readVariable (name : Bytes) : Evolving (readVariable name) :=
  (evolving_variableExp name).bind fun e => (follows_recorded (ρ := .none) name name e).evolving

theorem agrees_readVariable {name name' : Bytes}
    (h : Agrees ρ .same (variableExp name s) (variableExp name' s')) :
    Agrees ρ .same (readVariable name s) (readVariable name' s') := by
  refine h.bind (fun e => (follows_recorded (ρ := .none) name name e).evolving)
    (fun e => (follows_recorded (ρ := .none) name' name' e).evolving) ?_
  rintro _ e t t' rfl ht
  exact (follows_recorded name name' e).agrees t t' ht

theorem evolving_passVariable (name : Bytes) : Evolving (passVariable name) :=
  fun s => ((evolving_nextName (s.declarationOf name)).bind fun _ => evolving_readVariable name) s

instance follows_takeVariable : Follows ρ .same takeVariable takeVariable := by
  rw [takeVariable_eq]
  refine follows_expectName evolving_passVariable evolving_passVariable fun s s' x x' ht hx hx' =>
    ?_
  show Agrees ρ .same ((do nextName (s.declarationOf x); readVariable x : M Exp) s)
    ((do nextName (s'.declarationOf x'); readVariable x' : M Exp) s')
  refine agrees_passName ht hx hx' (evolving_readVariable x) fun l l' h htl =>
    agrees_readVariable ?_
  refine agrees_variableExp htl { ht.alike h with } fun hnone => (h.kept fun hi => ?_).1
  rw [Renaming.Is, hnone] at hi
  cases hi.2 ▸ hi.1

/-- Whether there is a result. -/
def Like.isSome : Like (Option α) := .by_ Option.isSome

theorem isSome_of_like {v v' : Variable} (h : v.Like ρ v') : v'.name.isSome = v.name.isSome := by
  have hn := h.isNone
  cases ho : v.name <;> cases ho' : v'.name <;> simp [ho, ho'] at hn ⊢

def Like.upvalue : Like (Option Upvalue) := .by_ (Option.map Upvalue.erase)

instance follows_readOnlyName? (e : Exp) : Follows ρ .isSome (readOnlyName? e)
    (readOnlyName? e) := by
  have hglobal : ∀ (ρ : Renaming) (a : GlobalAccess), Follows ρ .isSome
      (do
        if a.readOnly then
          match a.name with
          | some k =>
            match (← get).fn.pool.values[k.index]? with
            | some (.str s) => return some s
            | _ => broken .indexInRange
          | none => broken .indexInRange
        else return none : M (Option Bytes))
      (do
        if a.readOnly then
          match a.name with
          | some k =>
            match (← get).fn.pool.values[k.index]? with
            | some (.str s) => return some s
            | _ => broken .indexInRange
          | none => broken .indexInRange
        else return none) := by
    intro ρ a
    split
    · split
      · rename_i k _
        refine .get (·.fn.pool.values[k.index]?) (K := .same)
          (fun _ s s' h => h.same (·.pool.values[k.index]?) fun _ => rfl)
          fun _ s s' h => ?_
        rw [show s'.fn.pool.values[k.index]? = s.fn.pool.values[k.index]? from h]
        split
        · exact .pure rfl
        · infer_instance
      · infer_instance
    · exact .pure rfl
  unfold readOnlyName?
  dsimp only
  split
  · exact .bind (follows_variableAt _) fun ρ v v' h => .pure (isSome_of_like h)
  · refine .bind (follows_ownVariable _) fun ρ v v' h => ?_
    rw [h.kind]
    split
    · exact .pure rfl
    · exact .pure (isSome_of_like h)
  · rename_i i _
    refine .get (·.fn.upvalues[i]?) (K := .upvalue) (fun _ s s' h => ?_) fun _ s s' h => ?_
    · have hups : s'.fn.upvalues.map Upvalue.erase = s.fn.upvalues.map Upvalue.erase :=
        congrArg Builder.upvalues h.fn
      show (s'.fn.upvalues[i]?).map _ = (s.fn.upvalues[i]?).map _
      rw [← Array.getElem?_map, hups, Array.getElem?_map]
    · replace h : (s'.fn.upvalues[i]?).map Upvalue.erase = (s.fn.upvalues[i]?).map Upvalue.erase :=
        h
      cases hu : s.fn.upvalues[i]? <;> cases hu' : s'.fn.upvalues[i]? <;> rw [hu, hu'] at h
      case none.none => infer_instance
      case some.some u u' =>
        have he : Upvalue.erase u' = Upvalue.erase u := Option.some.inj h
        have hk : (Upvalue.erase u').kind = (Upvalue.erase u).kind := by rw [he]
        have hn : u'.name.isSome = u.name.isSome := by
          have := congrArg (·.name.isSome) he
          simpa only [Upvalue.erase, Option.isSome_map] using this
        dsimp only
        rw [show u'.kind = u.kind from hk]
        split
        · exact .pure rfl
        · exact .pure hn
      all_goals cases h
  case h_7 => exact .pure rfl
  all_goals exact hglobal ρ _

instance follows_noteWrite (e : Exp) : Follows ρ .same (noteWrite e) (noteWrite e) := by
  unfold noteWrite
  exact .bind (follows_readOnlyName? e) fun ρ _ _ _ =>
    ⟨fun _ => .of_eq rfl rfl, fun _ => .of_eq rfl rfl, fun _ _ ht _ _ => .ok rfl { ht with }⟩

instance follows_checkReadOnly (e : Exp) : Follows ρ .same (checkReadOnly e) (checkReadOnly e) := by
  unfold checkReadOnly
  refine .bind (follows_readOnlyName? e) fun ρ name? name?' h => ?_
  cases name? <;> cases name?' <;> first | (cases h; done) | infer_instance

end LuaChunk.Compile
