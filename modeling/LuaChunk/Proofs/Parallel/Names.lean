import LuaChunk.Proofs.Compile.Resolution
import LuaChunk.Proofs.Parallel.Operator

/-!
Names in both runs. A name and what it is renamed to have the same innermost declaration. An upvalue
that is found by its name leads to that declaration, and no two upvalues of a function do; so both
runs find the same upvalue, or both add one.
-/

set_option autoImplicit false

namespace LuaChunk.Compile

open LuaChunk

variable {ρ : Renaming} {vars vars' : Array Variable} {name name' : Bytes}

/-! ### Searching one function -/

section

variable {first n place : Nat} {d : Declared}

theorem searchFrom_outside (h : vars.size < first + (n + 1)) :
    searchFrom vars first name (n + 1) d = none := by
  simp only [searchFrom, Array.getElem?_eq_none (show vars.size ≤ first + n by omega)]

theorem searchFrom_missing (h : newest? vars (Variable.declares name) first n = none) :
    searchFrom vars first name n d = none ∨
      ∃ d', searchFrom vars first name n d = some (.undeclared d') := by
  cases n with
  | zero => exact .inr ⟨d, rfl⟩
  | succ n =>
    by_cases hr : first + (n + 1) ≤ vars.size
    · exact .inr ⟨_, searchFrom_none hr h⟩
    · exact .inl (searchFrom_outside (by omega))

theorem searchFrom_found {v : Variable}
    (h : newest? vars (Variable.declares name) first n = some place)
    (hv : vars[place]? = some v) :
    searchFrom vars first name n d = none ∨
      ∃ k, searchFrom vars first name n d = some (v.meaning place k) := by
  cases n with
  | zero => cases h
  | succ n =>
    by_cases hr : first + (n + 1) ≤ vars.size
    · obtain ⟨k, w, -, -, hw, -, hs⟩ := searchFrom_some (d := d) hr h
      cases hv.symm.trans hw
      exact .inr ⟨k, hs⟩
    · exact .inl (searchFrom_outside (by omega))

/-- Whether the newest of some declarations is the one looked for, if both searches end alike. -/
theorem declares_of_newest {v v' : Variable} (hv : vars[first + n]? = some v)
    (hv' : vars'[first + n]? = some v')
    (h : newest? vars' (Variable.declares name') first (n + 1) =
    newest? vars (Variable.declares name) first (n + 1)) :
    v'.declares name' = v.declares name ∧ (v.declares name = false →
      newest? vars' (Variable.declares name') first n = newest? vars (Variable.declares name) first
        n) := by
  have hbefore : ∀ {vars : Array Variable} {name : Bytes},
      newest? vars (Variable.declares name) first n ≠ some (first + n) := by
    intro vars name he
    obtain ⟨k, w, hk, hplace, -⟩ := newest?_eq_some he
    omega
  rw [newest?_succ hv, newest?_succ hv'] at h
  cases hd : v.declares name <;> cases hd' : v'.declares name' <;> simp only [hd, hd'] at h
  · exact ⟨rfl, fun _ => h⟩
  · exact absurd h.symm hbefore
  · exact absurd h hbefore
  · exact ⟨rfl, nofun⟩

theorem Variable.Like.isNone {v v' : Variable} (h : v.Like ρ v') : v'.name = none ↔
    v.name = none := by
  by_cases hi : ρ.Is v.declaredAt
  · obtain ⟨hn, hn'⟩ := h.names.renamed hi
    simp [hn, hn']
  · rw [(h.names.kept hi).1]

theorem VarsLike.searchFrom (hvars : VarsLike ρ vars vars')
    (h : newest? vars' (Variable.declares name') first n = newest? vars (Variable.declares name)
    first n) :
    Compile.searchFrom vars' first name' n d = Compile.searchFrom vars first name n d := by
  induction n generalizing d with
  | zero => rfl
  | succ n ih =>
    rcases hvars.get (first + n) with ⟨hv, hv'⟩ | ⟨v, v', hv, hv', hl⟩
    · simp only [Compile.searchFrom, hv, hv']
    · obtain ⟨hd, hrest⟩ := declares_of_newest hv hv' h
      simp only [Compile.searchFrom, hv, hv', hl.kind, hl.reg]
      cases hn : v.declares name with
      | true =>
        rw [hn] at hd
        have hname : v.name = some name := by simpa [Variable.declares] using hn
        have hname' : v'.name = some name' := by simpa [Variable.declares] using hd
        simp only [hname, hname', if_true]
      | false =>
        rw [hn] at hd
        have hname : v.name ≠ some name := by simpa [Variable.declares] using hn
        have hname' : v'.name ≠ some name' := by simpa [Variable.declares] using hd
        have hrec := fun d => ih (d := d) (hrest hn)
        simp only [if_neg hname, if_neg hname', hrec]
        cases ho : v.name with
        | none => simp only [hl.isNone.2 ho]
        | some other =>
          cases ho' : v'.name with
          | none => rw [hl.isNone.1 ho'] at ho; cases ho
          | some other' =>
            have hne : other ≠ name := fun he => hname (by rw [ho, he])
            have hne' : other' ≠ name' := fun he => hname' (by rw [ho', he])
            simp only [if_neg hne, if_neg hne']

end

/-! ### Sites -/

def FnSite.erase (f : FnSite) : FnSite := { f with upvalues := f.upvalues.map Upvalue.erase }

def FnSite.Distinct (f : FnSite) : Prop :=
  ∀ (i j : Nat) (u w : Upvalue), f.upvalues[i]? = some u → f.upvalues[j]? = some w →
    u.inStack = w.inStack → u.index = w.index → i = j

theorem Twin.sites {s s' : State} (h : Twin ρ s s') :
    s'.sites.map FnSite.erase = s.sites.map FnSite.erase := by
  have herase : ∀ s : State,
      s.sites.map FnSite.erase = (s.fn.erase :: s.outer.map Builder.erase).map Builder.site := by
    intro s
    unfold State.sites
    rw [List.map_cons, List.map_cons, List.map_cons, List.map_map, List.map_map]
    rfl
  rw [herase, herase, h.fn, h.outer]

theorem Twin.distinct_sites {s s' : State} (h : Twin ρ s s') : ∀ f ∈ s.sites, f.Distinct := by
  intro f hf
  obtain ⟨b, hb, rfl⟩ := List.mem_map.1 hf
  exact h.distinct b hb

theorem FnSite.distinct_erase (f : FnSite) : f.erase.Distinct ↔ f.Distinct := by
  unfold FnSite.Distinct FnSite.erase
  simp only [Array.getElem?_map, Option.map_eq_some_iff]
  constructor
  · exact fun h i j u w hu hw hs hx => h i j _ _ ⟨u, hu, rfl⟩ ⟨w, hw, rfl⟩ hs hx
  · rintro h i j _ _ ⟨u, hu, rfl⟩ ⟨w, hw, rfl⟩ hs hx
    exact h i j u w hu hw hs hx

theorem Twin.distinct_sites' {s s' : State} (h : Twin ρ s s') : ∀ f ∈ s'.sites, f.Distinct := by
  intro f hf
  have hm := List.mem_map_of_mem (f := FnSite.erase) hf
  rw [h.sites] at hm
  obtain ⟨g, hg, he⟩ := List.mem_map.1 hm
  rw [← f.distinct_erase, ← he, g.distinct_erase]
  exact h.distinct_sites g hg

section

variable {fns : List FnSite}

theorem innermost?_erase (vars : Array Variable) (p : Variable → Bool) (fns : List FnSite) :
    innermost? vars p (fns.map FnSite.erase) = innermost? vars p fns := by
  induction fns with
  | nil => rfl
  | cons f rest ih =>
    rw [List.map_cons, innermost?, innermost?, ih]
    rfl

theorem leadsTo_erase (reg : Nat) (kind : UInt8) (depth : Nat) (fns : List FnSite) (i : Nat) :
    leadsTo reg kind depth (fns.map FnSite.erase) i = leadsTo reg kind depth fns i := by
  induction depth generalizing fns i with
  | zero => cases fns <;> rfl
  | succ depth ih =>
    cases fns with
    | nil => rfl
    | cons f rest =>
      simp only [List.map_cons, leadsTo, FnSite.erase, Array.getElem?_map, ih]
      cases f.upvalues[i]? <;> rfl

theorem isEnv_erase (u : Upvalue) :
    ((Upvalue.erase u).name == some envName) = (u.name == some envName) := by
  unfold Upvalue.erase
  cases u.name with
  | none => rfl
  | some s =>
    by_cases hs : s = envName
    · simp [hs]
    · simp only [Option.map_some, if_neg hs]
      rw [beq_eq_false_iff_ne.2 (show some s ≠ some envName by simpa using hs)]
      rfl

theorem leadsToEnv_erase (fns : List FnSite) (i : Nat) :
    leadsToEnv (fns.map FnSite.erase) i = leadsToEnv fns i := by
  induction fns generalizing i with
  | nil => rfl
  | cons f rest ih =>
    cases rest with
    | nil =>
      simp only [List.map_cons, List.map_nil, leadsToEnv, FnSite.erase, Array.getElem?_map]
      cases f.upvalues[0]? <;> simp [isEnv_erase]
    | cons g rest =>
      simp only [List.map_cons, leadsToEnv]
      simp only [FnSite.erase, Array.getElem?_map]
      cases f.upvalues[i]? with
      | none => rfl
      | some u => exact congrArg (_ && ·) (ih u.index.toNat)

/-! ### Upvalues that lead to what a name means -/

/-- What an upvalue is captured from, if it is what a name means: a register of the enclosing
function or an upvalue of it. -/
def CapturedFrom (vars : Array Variable) (rest : List FnSite) (name : Bytes) (u : Upvalue)
    (kind : UInt8) : Prop :=
  (u.inStack = true ∧ ∃ place v, innermost? vars (Variable.declares name) rest = some (0, place) ∧
    vars[place]? = some v ∧ v.kind.isGlobal = false ∧ v.kind ≠ .compileTime ∧ u.index = v.reg ∧
      kind = v.kind.number) ∨
  (u.inStack = false ∧ 0 ≤ u.index ∧ isLexical vars rest name (.upvalue u.index.toNat kind) = true)

theorem isLexical_declared {depth place i : Nat} {kind : UInt8} {v : Variable}
    (hi : innermost? vars (Variable.declares name) fns = some (depth, place))
    (hv : vars[place]? = some v) :
    isLexical vars fns name (.upvalue i kind) = true ↔
      v.kind.isGlobal = false ∧ v.kind ≠ .compileTime ∧ kind = v.kind.number ∧
        leadsTo v.reg kind depth fns i = true := by
  unfold isLexical
  rw [hi]
  simp only [hv]
  by_cases hg : v.kind.isGlobal = true
  · simp [hg]
  · by_cases hc : v.kind = .compileTime
    · simp [hc]
    · cases depth with
      | zero => simp [hg, hc, leadsTo]
      | succ depth => simp [hg, hc]

theorem isLexical_missing {i : Nat} {kind : UInt8}
    (hi : innermost? vars (Variable.declares name) fns = none) :
    isLexical vars fns name (.upvalue i kind) = true ↔
      name = envName ∧ kind = VarKind.regular.number ∧ leadsToEnv fns i = true := by
  unfold isLexical
  rw [hi]
  by_cases he : name = envName
  · simp [he]
  · simp only [he, false_and, iff_false]
    cases innermost? vars Variable.isWildcard fns with
    | some p => simp
    | none => simp

theorem isLexical_upvalue {f : FnSite} {rest : List FnSite} {i : Nat} {kind : UInt8}
    (h : isLexical vars (f :: rest) name (.upvalue i kind) = true) :
    newest? vars (Variable.declares name) f.firstVar f.active = none ∧
      ((rest = [] ∧ i = 0 ∧ name = envName ∧ kind = VarKind.regular.number ∧
        ∃ u, f.upvalues[0]? = some u ∧ u.name = some envName) ∨
      ∃ u, f.upvalues[i]? = some u ∧ CapturedFrom vars rest name u kind) := by
  cases hi : innermost? vars (Variable.declares name) (f :: rest) with
  | none =>
    have hnew : newest? vars (Variable.declares name) f.firstVar f.active = none := by
      cases hp : newest? vars (Variable.declares name) f.firstVar f.active with
      | none => rfl
      | some place => rw [innermost?_here hp] at hi; cases hi
    refine ⟨hnew, ?_⟩
    obtain ⟨hn, hk, hl⟩ := (isLexical_missing hi).1 h
    cases rest with
    | nil =>
      simp only [leadsToEnv, Bool.and_eq_true, beq_iff_eq] at hl
      cases hu : f.upvalues[0]? with
      | none => rw [hu] at hl; cases hl.2
      | some u =>
        rw [hu] at hl
        exact .inl ⟨rfl, hl.1, hn, hk, u, rfl, eq_of_beq hl.2⟩
    | cons g rest =>
      simp only [leadsToEnv] at hl
      cases hu : f.upvalues[i]? with
      | none => rw [hu] at hl; cases hl
      | some u =>
        rw [hu] at hl
        simp only [Bool.and_eq_true, beq_iff_eq, Bool.not_eq_true', decide_eq_true_eq] at hl
        obtain ⟨⟨⟨-, hs⟩, h0⟩, hl⟩ := hl
        exact .inr
          ⟨u, rfl, .inr ⟨hs, h0, (isLexical_missing (innermost?_rest_none hi)).2 ⟨hn, hk, hl⟩⟩⟩
  | some p =>
    obtain ⟨depth, place⟩ := p
    cases hv : vars[place]? with
    | none => simp [isLexical, hi, hv] at h
    | some v =>
      obtain ⟨hg, hc, hk, hl⟩ := (isLexical_declared hi hv).1 h
      cases depth with
      | zero => simp [leadsTo] at hl
      | succ depth =>
        have hnew : newest? vars (Variable.declares name) f.firstVar f.active = none := by
          cases hp : newest? vars (Variable.declares name) f.firstVar f.active with
          | none => rfl
          | some place => rw [innermost?_here hp] at hi; cases hi
        refine ⟨hnew, .inr ?_⟩
        have hrest := innermost?_rest hi
        simp only [leadsTo] at hl
        cases hu : f.upvalues[i]? with
        | none => rw [hu] at hl; cases hl
        | some u =>
          rw [hu] at hl
          refine ⟨u, rfl, ?_⟩
          cases depth with
          | zero =>
            simp only [if_true, Bool.and_eq_true, beq_iff_eq] at hl
            exact .inl ⟨hl.2.1, place, v, hrest, hv, hg, hc, hl.2.2, hk⟩
          | succ depth =>
            simp only [Nat.add_one_ne_zero, if_false, Bool.and_eq_true, beq_iff_eq,
              Bool.not_eq_true',
              decide_eq_true_eq] at hl
            exact .inr ⟨hl.2.1.1, hl.2.1.2, (isLexical_declared hrest hv).2 ⟨hg, hc, hk, hl.2.2⟩⟩

theorem CapturedFrom.ne_nil {u : Upvalue} {kind : UInt8} (h : CapturedFrom vars [] name u kind) :
    False := by
  rcases h with ⟨-, place, v, hi, -⟩ | ⟨-, -, hl⟩
  · cases hi
  · cases ((isLexical_missing rfl).1 hl).2.2

theorem not_isLexical_here {place i : Nat} {kind : UInt8}
    (hi : innermost? vars (Variable.declares name) fns = some (0, place)) :
    isLexical vars fns name (.upvalue i kind) ≠ true := by
  intro h
  cases fns with
  | nil => cases hi
  | cons f rest =>
    rw [innermost?_outward _ (isLexical_upvalue h).1] at hi
    obtain ⟨p, -, hp⟩ := Option.map_eq_some_iff.1 hi
    cases hp

theorem isLexical_unique {i j : Nat} {kind kind' : UInt8} (hd : ∀ f ∈ fns, f.Distinct)
    (h : isLexical vars fns name (.upvalue i kind) = true)
    (h' : isLexical vars fns name (.upvalue j kind') = true) :
    i = j ∧ kind = kind' := by
  induction fns generalizing i j with
  | nil => cases ((isLexical_missing rfl).1 h).2.2
  | cons f rest ih =>
    have hdist := hd f (List.mem_cons_self ..)
    have ih := fun {i j} => @ih i j fun g hg => hd g (List.mem_cons_of_mem _ hg)
    obtain ⟨-, ⟨rfl, rfl, -, hk, -⟩ | ⟨u, hu, hc⟩⟩ := isLexical_upvalue h <;>
      obtain ⟨-, ⟨hr', rfl, -, hk', -⟩ | ⟨w, hw, hc'⟩⟩ := isLexical_upvalue h'
    · exact ⟨rfl, hk.trans hk'.symm⟩
    · exact hc'.ne_nil.elim
    · subst hr'
      exact hc.ne_nil.elim
    · rcases hc with ⟨hs, place, v, hi, hv, -, -, hx, hk⟩ | ⟨hs, h0, hl⟩ <;>
        rcases hc' with ⟨hs', place', v', hi', hv', -, -, hx', hk'⟩ | ⟨hs', h0', hl'⟩
      · rw [hi] at hi'
        cases hi'
        rw [hv] at hv'
        cases hv'
        exact ⟨hdist i j u w hu hw (hs.trans hs'.symm) (hx.trans hx'.symm), hk.trans hk'.symm⟩
      · exact (not_isLexical_here hi hl').elim
      · exact (not_isLexical_here hi' hl).elim
      · obtain ⟨hx, hk⟩ := ih hl hl'
        exact ⟨hdist i j u w hu hw (hs.trans hs'.symm) (by omega), hk⟩

end

/-! ### Both runs -/

/-- A name and its renaming have the same innermost declaration. -/
structure Alike (s s' : State) (name name' : Bytes) : Prop where
  kept : innermost? s.vars (Variable.declares name) s.sites = none → name' = name
  innermost : innermost? s'.vars (Variable.declares name') s'.sites =
    innermost? s.vars (Variable.declares name) s.sites
  env : name' = envName ↔ name = envName

variable {s s' : State}

theorem Alike.isLexical (h : Alike s s' name name') (ht : Twin ρ s s') (i : Nat) (kind : UInt8) :
    isLexical s'.vars s'.sites name' (.upvalue i kind) = true ↔
      isLexical s.vars s.sites name (.upvalue i kind) = true := by
  cases hi : innermost? s.vars (Variable.declares name) s.sites with
  | none =>
    rw [isLexical_missing hi, isLexical_missing (h.innermost.trans hi), h.env,
      ← leadsToEnv_erase s'.sites,
      ← leadsToEnv_erase s.sites, ht.sites]
  | some p =>
    obtain ⟨depth, place⟩ := p
    have hi' := h.innermost.trans hi
    rcases ht.vars.get place with ⟨hv, hv'⟩ | ⟨v, v', hv, hv', hl⟩
    · simp [Compile.isLexical, hi, hi', hv, hv']
    · rw [isLexical_declared hi hv, isLexical_declared hi' hv', hl.kind, hl.reg,
        ← leadsTo_erase _ _ _ s'.sites,
        ← leadsTo_erase _ _ _ s.sites, ht.sites]

/-! ### Captures -/

theorem lost_of_strayed {α : Type} {r : EStateM.Result Failure State α}
    (h : (final r).strayed = true) : Lost ρ r := by
  cases r with
  | ok a t => exact .inl h
  | error e t => cases e <;> first | trivial | exact .inl h

instance follows_closeFirst (p : Block → Bool) (change : Block → Block) :
    Follows ρ .same (closeFirst p change) (closeFirst p change) := by
  have hread : Follows ρ .same (ofFn (·.blocks)) (ofFn (·.blocks)) := .ofFn fun _ => rfl
  have hwrite : ∀ (ρ : Renaming) (blocks : List Block), Follows ρ .same
      (modifyFn fun f => { f with blocks, needClose := true })
        (modifyFn fun f => { f with blocks, needClose := true }) :=
    fun ρ blocks => .modifyFn (v := fun f => { f with blocks, needClose := true }) (fun _ => rfl)
      (fun _ => rfl) fun _ => rfl
  unfold closeFirst
  refine .seq hread fun blocks => ?_
  cases modifyFirst? p change blocks <;> infer_instance

instance follows_markCaptured (index : Nat) : Follows ρ .same (markCaptured index)
    (markCaptured index) :=
  follows_closeFirst _ _

instance follows_markToClose : Follows ρ .same markToClose markToClose := follows_closeFirst _ _

theorem evolving_noteMeaning (name : Bytes) (m : Meaning) : Evolving (noteMeaning name m) := by
  refine fun s => ⟨fun h => ?_, .refl _⟩
  show (s.strayed || _) = true
  rw [h, Bool.true_or]

theorem evolving_noteCapture (u : Upvalue) : Evolving (noteCapture u) := by
  refine fun s => ⟨fun h => ?_, .refl _⟩
  show (s.strayed || _) = true
  rw [h, Bool.true_or]

def pushUpvalue (u : Upvalue) : M Nat := do
  let place ← ofFn (·.upvalues.size)
  if maxUpvalues < place + 1 then limitError maxUpvalues "upvalues"
  modifyFn fun f => { f with upvalues := f.upvalues.push u }
  match u.name with
  | some s => stored (.text · s)
  | none => pure ()
  return place

theorem pushUpvalue_eq (u : Upvalue) (s : State) : ∃ stores, pushUpvalue u s =
    if maxUpvalues < s.fn.upvalues.size + 1 then (limitError maxUpvalues "upvalues" : M Nat) s
    else .ok s.fn.upvalues.size
      { s with fn := { s.fn with upvalues := s.fn.upvalues.push u }, stores } := by
  unfold pushUpvalue
  rw [bind_eq (m := ofFn _) (a := s.fn.upvalues.size) (t := s) rfl]
  by_cases hmax : maxUpvalues < s.fn.upvalues.size + 1
  · refine ⟨#[], ?_⟩
    rw [if_pos hmax]
    dsimp only
    rw [if_pos hmax]
    rfl
  · cases hn : u.name with
    | none =>
      refine ⟨s.stores, ?_⟩
      rw [if_neg hmax]
      dsimp only
      rw [if_neg hmax]
      rfl
    | some n =>
      refine ⟨s.stores.push (.text s.fn.id n), ?_⟩
      rw [if_neg hmax]
      dsimp only
      rw [if_neg hmax]
      rfl

theorem evolving_pushUpvalue (u : Upvalue) : Evolving (pushUpvalue u) := by
  intro s
  obtain ⟨stores, h⟩ := pushUpvalue_eq u s
  rw [h]
  split
  · exact .refl s
  · exact .of_eq rfl rfl

theorem evolving_addUpvalue (u : Upvalue) : Evolving (addUpvalue u) :=
  (evolving_noteCapture u).bind fun _ => evolving_pushUpvalue u

/-- Whether a function has captured a variable, or one of its name. -/
def Builder.hasCaptured (f : Builder) (u : Upvalue) : Bool :=
  f.upvalues.any fun v => v.name == u.name || (v.inStack == u.inStack && v.index == u.index)

theorem addUpvalue_step (u : Upvalue) (s : State) :
    addUpvalue u s = pushUpvalue u { s with strayed := s.strayed || s.fn.hasCaptured u } := rfl

theorem lost_addUpvalue {u : Upvalue} (h : s.fn.hasCaptured u = true) :
    Lost ρ (addUpvalue u s) := by
  rw [addUpvalue_step, h]
  refine lost_of_strayed ((evolving_pushUpvalue u _).strayed ?_)
  exact Bool.or_true _

theorem hasCaptured_of {i : Nat} {u w : Upvalue} {f : Builder} (hw : f.upvalues[i]? = some w)
    (hs : w.inStack = u.inStack) (hx : w.index = u.index) : f.hasCaptured u = true := by
  refine Array.any_eq_true'.2 ⟨w, Array.mem_of_getElem? hw, ?_⟩
  simp [hs, hx]

theorem Builder.Distinct.push {f f' : Builder} {u : Upvalue} (h : f.Distinct)
    (hu : f'.upvalues = f.upvalues.push u)
    (hc : f.hasCaptured u = false) : f'.Distinct := by
  have hnew : ∀ {i : Nat} {w : Upvalue}, f.upvalues[i]? = some w → w.inStack = u.inStack →
      w.index = u.index → False := by
    intro i w hw hs hx
    rw [hasCaptured_of hw hs hx] at hc
    cases hc
  intro i j v w hv hw hs hx
  rw [hu, Array.getElem?_push] at hv hw
  split at hv <;> split at hw
  · omega
  · cases hv
    exact (hnew hw hs.symm hx.symm).elim
  · cases hw
    exact (hnew hv hs hx).elim
  · exact h i j v w hv hw hs hx

theorem Builder.erase_push (f : Builder) (u : Upvalue) :
    { f with upvalues := f.upvalues.push u }.erase
    = { f.erase with upvalues := f.erase.upvalues.push (Upvalue.erase u) } := by
  simp only [Builder.erase, Array.map_push]

theorem agrees_addUpvalue {u u' : Upvalue} (ht : Twin ρ s s')
    (hu : Upvalue.erase u' = Upvalue.erase u) :
    Agrees ρ .same (addUpvalue u s) (addUpvalue u' s') := by
  intro hl hl'
  have hc : s.fn.hasCaptured u = false := by
    cases hc : s.fn.hasCaptured u with
    | false => rfl
    | true => exact (hl (lost_addUpvalue hc)).elim
  have hsize : s'.fn.upvalues.size = s.fn.upvalues.size := by
    have := ht.same (·.upvalues.size) fun f => Array.size_map ..
    exact this
  rw [addUpvalue_step] at hl hl' ⊢
  rw [addUpvalue_step]
  obtain ⟨stores, h⟩ := pushUpvalue_eq u { s with strayed := s.strayed || s.fn.hasCaptured u }
  obtain ⟨stores', h'⟩ := pushUpvalue_eq u'
    { s' with strayed := s'.strayed || s'.fn.hasCaptured u' }
  rw [h, h']
  simp only [hsize]
  split
  · exact .error rfl
  · have hpush : { s'.fn with upvalues := s'.fn.upvalues.push u' }.erase
        = { s.fn with upvalues := s.fn.upvalues.push u }.erase := by
      rw [Builder.erase_push, Builder.erase_push, ht.fn, hu]
    exact .ok rfl { ht.setFn hpush (ht.distinct_fn.push rfl hc) with }

/-! ### Resolution -/

def Builder.entry? (f : Builder) (name : Bytes) : Option (Nat × UInt8) :=
  match f.upvalues.findIdx? fun u => u.name == some name with
  | some i => (f.upvalues[i]?).map fun u => (i, u.kind)
  | none => none

theorem findUpvalue?_eq (name : Bytes) (s : State) :
    findUpvalue? name s = .ok (s.fn.entry? name) s := by
  unfold findUpvalue? Builder.entry?
  rw [bind_eq (m := ofFn _) (a := s.fn.upvalues) (t := s) rfl]
  cases s.fn.upvalues.findIdx? fun u => u.name == some name <;> rfl

/-- What a function makes of the meaning that a name has in the enclosing one. -/
def capture (name : Bytes) (m : Meaning) : M Meaning :=
  match m with
  | .localVar r _ kind => return .upvalue (← addUpvalue ⟨some name, true, r, kind⟩) kind
  | .upvalue i kind => return .upvalue (← addUpvalue ⟨some name, false, i, kind⟩) kind
  | m => return m

/-- What is done about a name that the function does not declare. -/
def resolveOutward (name : Bytes) (enclosing : Nat) (d : Declared) : M Meaning := do
  match ← findUpvalue? name with
  | some (i, kind) =>
    noteMeaning name (.upvalue i kind)
    return .upvalue i kind
  | none =>
    match enclosing with
    | 0 => return .undeclared d
    | enclosing + 1 => capture name (← inEnclosing (resolveFrom name enclosing false d))

/-- A variable of the function, whose block is marked if it is used further in. -/
def foundLocal (isBase : Bool) (r i : Nat) (kind : UInt8) : M Meaning := do
  if !isBase then markCaptured i
  return .localVar r i kind

theorem resolveFrom_eq (name : Bytes) (n : Nat) (isBase : Bool) (d : Declared) (s : State) :
    resolveFrom name n isBase d s =
      match searchFrom s.vars s.fn.firstVar name s.fn.active d with
      | none => .error (.broken .indexInRange) s
      | some (.localVar r i kind) => foundLocal isBase r i kind s
      | some (.undeclared d) => resolveOutward name n d s
      | some m => .ok m s := by
  cases n with
  | zero | succ n =>
    unfold resolveFrom
    rw [bind_eq (m := get) (a := s) (t := s) rfl]
    cases searchFrom s.vars s.fn.firstVar name s.fn.active d with
    | none => rfl
    | some m => cases m <;> rfl

theorem evolving_capture (name : Bytes) (m : Meaning) : Evolving (capture name m) := by
  cases m with
  | localVar | upvalue => exact (evolving_addUpvalue _).bind fun _ => .refl
  | constVar | declared | undeclared => exact .refl

theorem evolving_resolveOutward (name : Bytes) (n : Nat)
    (h : ∀ m d, n = m + 1 → Evolving (resolveFrom name m false d)) (d : Declared) :
    Evolving (resolveOutward name n d) := by
  refine Evolving.bind (fun s => ?_) fun entry? => ?_
  · rw [findUpvalue?_eq]
    exact .refl s
  · cases entry? with
    | some p => exact (evolving_noteMeaning _ _).bind fun _ => .refl
    | none =>
      cases n with
      | zero => exact .refl
      | succ n => exact (evolving_inEnclosing (h n d rfl)).bind (evolving_capture name)

theorem follows_foundLocal {K : Like Meaning} {r i : Nat} {kind : UInt8}
    (hK : ∀ ρ, K.rel ρ (.localVar r i kind) (.localVar r i kind)) (isBase : Bool) :
    Follows ρ K (foundLocal isBase r i kind) (foundLocal isBase r i kind) := by
  unfold foundLocal
  dsimp only
  split
  · exact .seq inferInstance fun _ => .pure (hK ρ)
  · exact .pure (hK ρ)

theorem evolving_resolveFrom (name : Bytes) (n : Nat) (isBase : Bool) (d : Declared) :
    Evolving (resolveFrom name n isBase d) := by
  induction n using Nat.strongRecOn generalizing isBase d with
  | ind n ih =>
    intro s
    rw [resolveFrom_eq]
    split
    · exact .refl s
    · exact (follows_foundLocal (ρ := .none) (K := .same) (fun _ => rfl) isBase).evolving s
    · exact evolving_resolveOutward name n (fun m d hm => ih m (by omega) false d) _ s
    · exact .refl s

/-! ### Upvalues that lead to what a name means -/

theorem Builder.name_ne_of_entry? {f : Builder} {i : Nat} {u : Upvalue} (h : f.entry? name = none)
    (hu : f.upvalues[i]? = some u) : u.name ≠ some name := by
  unfold Builder.entry? at h
  split at h
  · rename_i j hj
    have hlt := (Array.findIdx?_eq_some_iff_getElem.1 hj).1
    rw [Array.getElem?_eq_getElem hlt] at h
    cases h
  · rename_i hj
    have := Array.findIdx?_eq_none_iff.1 hj u (Array.mem_of_getElem? hu)
    simpa using this

theorem resolveOutward_found {n i : Nat} {kind : UInt8} {d : Declared}
    (h : s.fn.entry? name = some (i, kind)) :
    resolveOutward name n d s = .ok (.upvalue i kind)
      { s with strayed := s.strayed || !isLexical s.vars s.sites name (.upvalue i kind) } := by
  unfold resolveOutward
  rw [bind_eq (findUpvalue?_eq name s), h]
  rfl

theorem resolveOutward_undeclared {d : Declared} (h : s.fn.entry? name = none) :
    resolveOutward name 0 d s = .ok (.undeclared d) s := by
  unfold resolveOutward
  rw [bind_eq (findUpvalue?_eq name s), h]
  rfl

theorem resolveOutward_add {n : Nat} {d : Declared} (h : s.fn.entry? name = none) :
    resolveOutward name (n + 1) d s = (inEnclosing (resolveFrom name n false d) >>= capture name)
      s := by
  unfold resolveOutward
  rw [bind_eq (findUpvalue?_eq name s), h]

theorem lost_found {n i : Nat} {kind : UInt8} {d : Declared} (h : s.fn.entry? name = some (i, kind))
    (hlex : isLexical s.vars s.sites name (.upvalue i kind) ≠ true) : Lost ρ
    (resolveOutward name n d s) := by
  rw [resolveOutward_found h, Bool.eq_false_iff.2 hlex]
  exact .inl (Bool.or_true _)

theorem closeFirst_cases (p : Block → Bool) (change : Block → Block) (s : State) :
    (∃ t, closeFirst p change s = .ok () t) ∨ Lost ρ (closeFirst p change s) := by
  unfold closeFirst
  rw [bind_eq (m := ofFn _) (a := s.fn.blocks) (t := s) rfl]
  cases modifyFirst? p change s.fn.blocks with
  | some blocks => exact .inl ⟨_, rfl⟩
  | none => exact .inr trivial

theorem not_lost_bind {α β : Type} {m : M α} {f : α → M β} (hf : ∀ a, Evolving (f a))
    (h : ¬ Lost ρ ((m >>= f) s)) :
    ¬ Lost ρ (m s) := fun hm => h (hm.bind hf)

/-- Whether an upvalue is what a function makes of a meaning in the enclosing one. -/
def Upvalue.Holds (w : Upvalue) : Meaning → Prop
  | .localVar r _ _ => w.inStack = true ∧ w.index = r
  | .upvalue j _ => w.inStack = false ∧ w.index = j
  | _ => False

theorem lost_capture {i : Nat} {w : Upvalue} {m : Meaning} (hw : s.fn.upvalues[i]? = some w)
    (hm : Upvalue.Holds w m) :
    Lost ρ (capture name m s) := by
  cases m with
  | localVar | upvalue =>
    exact Lost.bind (lost_addUpvalue (hasCaptured_of hw hm.1 hm.2)) fun _ => .refl
  | constVar | declared | undeclared => exact hm.elim

theorem newest?_of_innermost? {p : Variable → Bool} {f : FnSite} {rest : List FnSite} {place : Nat}
    (h : innermost? vars p (f :: rest) = some (0, place)) : newest? vars p f.firstVar f.active =
    some place := by
  cases hn : newest? vars p f.firstVar f.active with
  | some q =>
    rw [innermost?_here hn] at h
    cases h
    rfl
  | none =>
    rw [innermost?_outward _ hn] at h
    obtain ⟨q, -, hq⟩ := Option.map_eq_some_iff.1 h
    cases hq

theorem resolveFrom_here_cases {n place : Nat} {d : Declared} {v : Variable}
    (h : newest? s.vars (Variable.declares name) s.fn.firstVar s.fn.active = some place)
    (hv : s.vars[place]? = some v)
    (hg : v.kind.isGlobal = false) (hc : v.kind ≠ .compileTime)
    (hl : ¬ Lost ρ (resolveFrom name n false d s)) :
    ∃ k t, resolveFrom name n false d s = .ok (.localVar v.reg k v.kind.number) t := by
  rw [resolveFrom_eq] at hl ⊢
  rcases searchFrom_found (d := d) h hv with hs | ⟨k, hs⟩
  · rw [hs] at hl
    exact (hl trivial).elim
  · have hm : v.meaning place k = .localVar v.reg k v.kind.number := by
      unfold Variable.meaning
      rw [if_neg (by simp [hg]), if_neg hc]
    rw [hs, hm] at hl ⊢
    rcases closeFirst_cases (ρ := ρ) (fun b => b.level ≤ k)
        (fun b => { b with captured := true }) s with ⟨t, ht⟩ | hlost
    · exact ⟨k, t, bind_eq ht⟩
    · exact (hl (Lost.bind hlost fun _ => .refl)).elim

/-- Where an upvalue leads to what a name means, resolving the name finds that upvalue. Else a
variable would be captured twice. -/
theorem resolveFrom_found {n i : Nat} {isBase : Bool} {kind : UInt8} {d : Declared}
    (hn : s.outer.length = n)
    (hd : ∀ f ∈ s.sites, f.Distinct) (h : isLexical s.vars s.sites name (.upvalue i kind) = true)
    (hl : ¬ Lost ρ (resolveFrom name n isBase d s)) :
    s.fn.entry? name = some (i, kind) ∧
      resolveFrom name n isBase d s = .ok (.upvalue i kind) s := by
  induction n using Nat.strongRecOn generalizing s i isBase d with
  | ind n ih =>
  obtain ⟨hnew, hcase⟩ := isLexical_upvalue h
  rw [resolveFrom_eq] at hl ⊢
  rcases searchFrom_missing (d := d) hnew with hs | ⟨d', hs⟩
  · rw [show searchFrom s.vars s.fn.firstVar name s.fn.active d = none from hs] at hl
    exact (hl trivial).elim
  rw [show searchFrom s.vars s.fn.firstVar name s.fn.active d = some (.undeclared d') from hs]
    at hl ⊢
  simp only at hl ⊢
  cases he : s.fn.entry? name with
  | some p =>
    obtain ⟨j, kind'⟩ := p
    rw [resolveOutward_found he]
    cases hlex : isLexical s.vars s.sites name (.upvalue j kind') with
    | false => exact (hl (lost_found he (by simp [hlex]))).elim
    | true =>
      obtain ⟨rfl, rfl⟩ := isLexical_unique hd hlex h
      refine ⟨rfl, ?_⟩
      rw [Bool.not_true, Bool.or_false]
  | none =>
    -- the upvalue that leads to the variable would be added again
    rcases hcase with ⟨-, -, hname, -, u, hu, hun⟩ | ⟨u, hu, hc⟩
    · exact (Builder.name_ne_of_entry? he hu (by rw [hun, hname])).elim
    · cases ho : s.outer with
      | nil =>
        rw [ho] at hc
        exact hc.ne_nil.elim
      | cons b rest =>
        rw [ho] at hn hc
        obtain rfl : n = rest.length + 1 := hn.symm
        rw [resolveOutward_add he] at hl
        have hin := fun h => not_lost_bind (evolving_capture name) hl (lost_inEnclosing ho h)
        have hagain : ∀ {m t}, resolveFrom name rest.length false d'
            { s with fn := b, outer := rest } = .ok m t →
            ¬ Upvalue.Holds u m := by
          intro m t hr hm
          rw [bind_eq (t := t.backIn s.fn) (by rw [inEnclosing_cons ho, hr]; rfl)] at hl
          exact hl (lost_capture (s := t.backIn s.fn) hu hm)
        rcases hc with ⟨hst, place, v, hi, hv, hg, hct, hx, -⟩ | ⟨hst, h0, hlex⟩
        · obtain ⟨k, t, hr⟩ := resolveFrom_here_cases (s := { s with fn := b, outer := rest })
            (newest?_of_innermost? hi) hv hg hct hin
          exact (hagain hr ⟨hst, hx⟩).elim
        · obtain ⟨-, hr⟩ := ih rest.length (by omega) rfl
            (fun f hf => hd f (by unfold State.sites; rw [ho]; exact List.mem_cons_of_mem _ hf))
              hlex hin
          exact (hagain hr ⟨hst, (Int.toNat_of_nonneg h0).symm⟩).elim

/-! ### Resolution in both runs -/

theorem Alike.newest (h : Alike s s' name name') :
    newest? s'.vars (Variable.declares name') s'.fn.firstVar s'.fn.active
      = newest? s.vars (Variable.declares name) s.fn.firstVar s.fn.active := by
  have hi := h.innermost
  cases hn : newest? s.vars (Variable.declares name) s.fn.firstVar s.fn.active with
  | some place => exact newest?_of_innermost? (hi.trans (innermost?_here hn))
  | none =>
    cases hn' : newest? s'.vars (Variable.declares name') s'.fn.firstVar s'.fn.active with
    | none => rfl
    | some place =>
      have := newest?_of_innermost? (hi.symm.trans (innermost?_here hn'))
      exact this.symm.trans hn

theorem Alike.search (h : Alike s s' name name') (ht : Twin ρ s s') (d : Declared) :
    searchFrom s'.vars s'.fn.firstVar name' s'.fn.active d = searchFrom s.vars s.fn.firstVar name
      s.fn.active d := by
  have hn := h.newest
  rw [ht.firstVar, ht.active] at hn ⊢
  exact ht.vars.searchFrom hn

theorem Alike.enclosing {b b' : Builder} {rest rest' : List Builder} (h : Alike s s' name name')
    (ho : s.outer = b :: rest) (ho' : s'.outer = b' :: rest')
    (hn : newest? s.vars (Variable.declares name) s.fn.firstVar s.fn.active = none) :
    Alike { s with fn := b, outer := rest } { s' with fn := b', outer := rest' } name name' := by
  refine ⟨fun hrest => h.kept ?_, ?_, h.env⟩
  · unfold State.sites at hrest ⊢
    rw [List.map_cons, innermost?_outward (f := s.fn.site) _ hn, ho]
    exact Option.map_eq_none_iff.2 hrest
  have hi := h.innermost
  unfold State.sites at hi ⊢
  have hn' := h.newest.trans hn
  rw [List.map_cons, List.map_cons, innermost?_outward (f := s.fn.site) _ hn,
    innermost?_outward (f := s'.fn.site) _ hn', ho, ho'] at hi
  refine Option.map_injective ?_ hi
  rintro ⟨d, p⟩ ⟨d', p'⟩ he
  cases he
  rfl

theorem newest?_none_of_search {first n : Nat} {d d' : Declared}
    (h : searchFrom vars first name n d = some (.undeclared d')) :
    newest? vars (Variable.declares name) first n = none := by
  cases hn : newest? vars (Variable.declares name) first n with
  | none => rfl
  | some place =>
    obtain ⟨k, v, -, rfl, hv, -⟩ := newest?_eq_some hn
    rcases searchFrom_found (d := d) hn hv with hs | ⟨k, hs⟩
    · rw [hs] at h
      cases h
    · rw [hs] at h
      unfold Variable.meaning at h
      split at h
      · cases h
      · split at h <;> cases h

def Meaning.isGlobal : Meaning → Bool
  | .declared _ | .undeclared _ => true
  | _ => false

/-- Names are taken for the same; if it is a global, then they are the same. -/
def Like.meaning (name name' : Bytes) : Like Meaning :=
  ⟨fun ρ m m' => m' = m ∧ (ρ.declaration.isSome → m.isGlobal = true → name' = name),
    fun _ => ⟨rfl, nofun⟩⟩

theorem agrees_capture {m m' : Meaning} (ht : Twin ρ s s') (henv : name' = envName ↔ name = envName)
    (hm : (Like.meaning name name').rel ρ m m') :
    Agrees ρ (.meaning name name') (capture name m s) (capture name' m' s') := by
  have hcap : ∀ (inStack : Bool) (index : Int) (kind : UInt8),
      Upvalue.erase ⟨some name', inStack, index, kind⟩ =
        Upvalue.erase ⟨some name, inStack, index, kind⟩ := by
    intro inStack index kind
    unfold Upvalue.erase
    by_cases he : name = envName
    · simp [he, henv.2 he]
    · simp [he, mt henv.1 he]
  have hsame := hm.1
  subst hsame
  cases m' with
  | localVar | upvalue =>
    refine (agrees_addUpvalue ht (hcap _ _ _)).bind (fun _ => .refl) (fun _ => .refl) ?_
    rintro a _ t t' rfl ht - -
    exact .ok ⟨rfl, nofun⟩ ht
  | constVar | declared | undeclared => exact fun _ _ => .ok hm ht

theorem Alike.declared {d : Declared} {place : Nat} (h : Alike s s' name name') (ht : Twin ρ s s')
    (hs : searchFrom s.vars s.fn.firstVar name s.fn.active d = some (.declared place)) : name' =
    name := by
  cases hn : newest? s.vars (Variable.declares name) s.fn.firstVar s.fn.active with
  | none =>
    rcases searchFrom_missing (d := d) hn with he | ⟨d', he⟩ <;>
    · rw [he] at hs
      cases hs
  | some q =>
    obtain ⟨k, v, -, rfl, hv, hd⟩ := newest?_eq_some hn
    obtain ⟨k', v', -, hk, hv', hd'⟩ := newest?_eq_some (h.newest.trans hn)
    rw [← hk] at hv'
    have hl := ht.vars.like _ _ _ hv hv'
    have hg : v.kind.isGlobal = true := by
      rcases searchFrom_found (d := d) hn hv with he | ⟨k, he⟩
      · rw [he] at hs
        cases hs
      · rw [he] at hs
        unfold Variable.meaning at hs
        split at hs
        · assumption
        · split at hs <;> cases hs
    have hname : v'.name = v.name := (hl.names.kept fun hi => by simp [hl.isLocal hi] at hg).1
    simp only [Variable.declares, beq_iff_eq] at hd hd'
    rw [hd, hd'] at hname
    exact Option.some.inj hname

theorem agrees_resolveFrom {n : Nat} {isBase : Bool} {d : Declared} (ht : Twin ρ s s')
    (h : Alike s s' name name')
    (hn : s.outer.length = n) :
    Agrees ρ (.meaning name name') (resolveFrom name n isBase d s)
      (resolveFrom name' n isBase d s') := by
  induction n using Nat.strongRecOn generalizing s s' isBase d with
  | ind n ih =>
  have hn' : s'.outer.length = n := by
    have := congrArg List.length ht.outer
    rw [List.length_map, List.length_map] at this
    omega
  by_cases hlex : ∃ i kind, isLexical s.vars s.sites name (.upvalue i kind) = true
  · obtain ⟨i, kind, hlex⟩ := hlex
    intro hl hl'
    rw [(resolveFrom_found hn ht.distinct_sites hlex hl).2,
      (resolveFrom_found hn' ht.distinct_sites' ((h.isLexical ht i kind).2 hlex) hl').2]
    exact .ok ⟨rfl, nofun⟩ ht
  rw [resolveFrom_eq, resolveFrom_eq, h.search ht]
  cases hs : searchFrom s.vars s.fn.firstVar name s.fn.active d with
  | none => exact fun hl => (hl trivial).elim
  | some m =>
    cases m with
    | localVar r i kind =>
      exact (follows_foundLocal (K := .meaning name name') (fun _ => ⟨rfl, nofun⟩) isBase).agrees s
        s' ht
    | upvalue | constVar => exact fun _ _ => .ok ⟨rfl, nofun⟩ ht
    | declared place => exact fun _ _ => .ok ⟨rfl, fun _ _ => h.declared ht hs⟩ ht
    | undeclared d' =>
      have hnew := newest?_none_of_search hs
      simp only
      cases he : s.fn.entry? name with
      | some p =>
        exact fun hl => (hl (lost_found he fun hp => hlex ⟨_, _, hp⟩)).elim
      | none =>
        cases he' : s'.fn.entry? name' with
        | some p =>
          exact fun _ hl' =>
            (hl' (lost_found he' fun hp => hlex ⟨_, _, (h.isLexical ht _ _).1 hp⟩)).elim
        | none =>
          cases n with
          | zero =>
            rw [resolveOutward_undeclared he, resolveOutward_undeclared he']
            refine fun _ _ => .ok ⟨rfl, fun _ _ => h.kept ?_⟩ ht
            unfold State.sites
            rw [List.map_cons, innermost?_outward (f := s.fn.site) _ hnew,
              List.length_eq_zero_iff.1 hn]
            rfl
          | succ n =>
            rw [resolveOutward_add he, resolveOutward_add he']
            refine Agrees.bind (K := .meaning name name')
              (.inEnclosing ht fun b rest b' rest' ho ho' => ?_)
              (evolving_capture name) (evolving_capture name') fun m m' t t' hm ht =>
                agrees_capture ht h.env hm
            refine ih n (Nat.lt_succ_self n) (ht.enclosing ho ho') (h.enclosing ho ho' hnew) ?_
            rw [ho] at hn
            exact Nat.succ.inj hn

theorem resolve_eq (name : Bytes) (s : State) :
    resolve name s = resolveFrom name s.outer.length true .free s := rfl

theorem evolving_resolve (name : Bytes) : Evolving (resolve name) := by
  intro s
  rw [resolve_eq]
  exact evolving_resolveFrom name s.outer.length true .free s

theorem agrees_resolve (ht : Twin ρ s s') (h : Alike s s' name name') :
    Agrees ρ (.meaning name name') (resolve name s) (resolve name' s') := by
  have hlen : s'.outer.length = s.outer.length := by
    have := congrArg List.length ht.outer
    rwa [List.length_map, List.length_map] at this
  rw [resolve_eq, resolve_eq, hlen]
  exact agrees_resolveFrom ht h rfl

/-! ### Names that are alike -/

section

variable {p p' : Variable → Bool}

theorem VarsLike.newest {first n : Nat} (hvars : VarsLike ρ vars vars')
    (himp : ∀ v v' : Variable, v.Like ρ v' → p' v' = true → p v = true)
    (hfound : ∀ place v v', newest? vars p first n = some place → vars[place]? = some v →
    vars'[place]? = some v' →
      p' v' = true) :
    newest? vars' p' first n = newest? vars p first n := by
  induction n with
  | zero => rfl
  | succ n ih =>
    rcases hvars.get (first + n) with ⟨hv, hv'⟩ | ⟨v, v', hv, hv', hl⟩
    · simp only [newest?, hv, hv'] at hfound ⊢
      exact ih hfound
    · rw [newest?_succ hv] at hfound ⊢
      rw [newest?_succ hv']
      cases hp : p v with
      | true =>
        rw [hp] at hfound
        rw [hfound _ v v' rfl hv hv', if_pos rfl, if_pos rfl]
      | false =>
        rw [hp] at hfound
        cases hp' : p' v' with
        | true => exact absurd (himp v v' hl hp') (by simp [hp])
        | false => exact ih hfound

theorem VarsLike.innermost {fns : List FnSite} (hvars : VarsLike ρ vars vars')
    (himp : ∀ v v' : Variable, v.Like ρ v' → p' v' = true → p v = true)
    (hfound : ∀ depth place v v', innermost? vars p fns = some (depth, place) →
    vars[place]? = some v →
      vars'[place]? = some v' → p' v' = true) :
    innermost? vars' p' fns = innermost? vars p fns := by
  induction fns with
  | nil => rfl
  | cons f rest ih =>
    have hnew : newest? vars' p' f.firstVar f.active = newest? vars p f.firstVar f.active :=
      hvars.newest himp fun place v v' hn => hfound 0 place v v' (innermost?_here hn)
    cases hn : newest? vars p f.firstVar f.active with
    | some place => rw [innermost?_here hn, innermost?_here (hnew.trans hn)]
    | none =>
      rw [innermost?_outward _ hn, innermost?_outward _ (hnew.trans hn), ih]
      intro depth place v v' hi
      refine hfound (depth + 1) place v v' ?_
      rw [innermost?_outward _ hn, hi]
      rfl

end

theorem innermost?_eq_some {p : Variable → Bool} {fns : List FnSite} {depth place : Nat}
    (h : innermost? vars p fns = some (depth, place)) : ∃ v, vars[place]? = some v ∧
    p v = true := by
  induction fns generalizing depth with
  | nil => cases h
  | cons f rest ih =>
    cases depth with
    | zero =>
      obtain ⟨k, v, -, rfl, hv, hp⟩ := innermost?_zero h
      exact ⟨v, hv, hp⟩
    | succ depth => exact ih (innermost?_rest h)

theorem Twin.innermost {p p' : Variable → Bool} (ht : Twin ρ s s')
    (himp : ∀ v v' : Variable, v.Like ρ v' → p' v' = true → p v = true)
    (hfound : ∀ depth place v v', innermost? s.vars p s.sites = some (depth, place) →
    s.vars[place]? = some v →
      s'.vars[place]? = some v' → p' v' = true) :
    innermost? s'.vars p' s'.sites = innermost? s.vars p s.sites := by
  rw [← innermost?_erase _ _ s'.sites, ht.sites, innermost?_erase]
  exact ht.vars.innermost himp hfound

theorem Variable.Like.declares_env {v v' : Variable} (h : v.Like ρ v') :
    v'.declares envName = v.declares envName := by
  unfold Variable.declares
  by_cases hi : ρ.Is v.declaredAt
  · obtain ⟨hn, hn'⟩ := h.names.renamed hi
    obtain ⟨hold, hnew, -⟩ := ρ.fresh hi.some
    rw [hn, hn', beq_eq_false_iff_ne.2 (by simpa using hnew),
      beq_eq_false_iff_ne.2 (by simpa using hold)]
  · rw [(h.names.kept hi).1]

theorem Twin.alike_env (ht : Twin ρ s s') : Alike s s' envName envName where
  kept _ := rfl
  env := Iff.rfl
  innermost :=
    ht.innermost (fun v v' hl hd => hl.declares_env ▸ hd) fun depth place v v' hi hv hv' => by
    obtain ⟨w, hw, hd⟩ := innermost?_eq_some hi
    cases hv.symm.trans hw
    rw [(ht.vars.like place v v' hv hv').declares_env]
    exact hd

end LuaChunk.Compile
