import LuaChunk.Proofs.Machine.Values
import LuaChunk.Proofs.Syntax.Precedence

set_option autoImplicit false

namespace LuaChunk

open Grammar (ahead)

section

variable {V H : Type} (W : World V H)

/-- Stores values, the last one first. Missing values are nil, and those left over are dropped. -/
def storeAll : List (Loc V) → List V → Machine V H → Option (Machine V H)
  | [], _, m => some m
  | l :: ls, vs, m => (storeAll ls vs.tail m).bind (l.write W · (vs.headD (W.const .nil)))

/-- A multiple assignment: where the values go and what they are is found before anything is
stored. -/
def perform (z : Compile.State) (targets : List Var) (values : List Term) (m : Machine V H) :
    Option (Machine V H) := do
  let ls ← targets.mapM (·.loc? W z m)
  let vs ← values.mapM (·.value? W z m)
  storeAll W ls vs m

/-- The places and the values of a multiple assignment, after the values from the `i`-th on have
been stored. -/
def performFrom (z : Compile.State) (targets : List Var) (values : List Term) (i : Nat)
    (m : Machine V H) :
    Option (List (Loc V) × List V × Machine V H) := do
  let ls ← targets.mapM (·.loc? W z m)
  let vs ← values.mapM (·.value? W z m)
  let m' ← storeAll W (ls.drop i) (vs.drop i) m
  return (ls, vs, m')

theorem perform_eq (z : Compile.State) (targets : List Var) (values : List Term) (m : Machine V H) :
    perform W z targets values m = (performFrom W z targets values 0 m).map fun p => p.2.2 := by
  simp [perform, performFrom, Option.map_bind]

end

namespace Compile

variable {V H : Type} {W : World V H} {F : List Pending} {base n : Nat} {e t : Exp}
  {s₀ s₁ s₂ s s' : State} {m m' : Machine V H}
  {l : Loc V} {earlier : List Exp} {r : Nested} {ts : List Term} {term : Term} {rest : List Token}

theorem storeAll_drop {i : Nat} {ls : List (Loc V)} {vs : List V} (h : ls[i]? = some l) :
    storeAll W (ls.drop i) (vs.drop i) m
      = (storeAll W (ls.drop (i + 1)) (vs.drop (i + 1)) m).bind
        (l.write W · (vs.getD i (W.const .nil))) := by
  obtain ⟨hi, rfl⟩ := List.getElem?_eq_some_iff.1 h
  rw [List.drop_eq_getElem_cons hi]
  show (storeAll W _ (vs.drop i).tail m).bind (fun m => Loc.write W m ((vs.drop i).headD _) _) = _
  rw [List.tail_drop, List.headD_eq_head?_getD, List.head?_drop, List.getD_eq_getElem?_getD]

theorem performFrom_start {targets : List Var} {values : List Term} {z : State} (m : Machine V H) :
    performFrom W z targets values targets.length m =
      (targets.mapM fun x : Var => x.loc? W z m).bind fun ls =>
      (values.mapM fun t : Term => t.value? W z m).map fun vs => (ls, vs, m) := by
  unfold performFrom
  refine Option.bind_congr fun ls hls => ?_
  rw [List.drop_eq_nil_of_le (Nat.le_of_eq (mapM_length hls)), Option.map_eq_bind]
  rfl

theorem performFrom_step {i : Nat} {targets : List Var} {values : List Term} {z : State}
    (h : i < targets.length) (m : Machine V H) :
    performFrom W z targets values i m = (performFrom W z targets values (i + 1) m).bind fun p =>
      (p.1[i]?).bind fun l => (l.write W p.2.2 (p.2.1.getD i (W.const .nil))).map fun m' =>
        (p.1, p.2.1, m') := by
  unfold performFrom
  simp only [Option.bind_eq_bind, Option.bind_assoc, Option.pure_def, Option.bind_some]
  refine Option.bind_congr fun ls hls => Option.bind_congr fun vs _ => ?_
  have hi : i < ls.length := by
    rw [mapM_length hls]
    exact h
  rw [storeAll_drop (List.getElem?_eq_getElem hi), Option.bind_assoc, List.getElem?_eq_getElem hi]
  refine Option.bind_congr fun m' _ => ?_
  rw [Option.bind_some, Option.map_eq_bind]
  rfl

/-- A machine in which the values of the targets `rest` are still to be stored, and one in which the
same has been stored but the places and the values are still those they were. -/
structure Midway (W : World V H) (s : State) (n base : Nat) (rest : List Exp) (ls : List (Loc V))
    (vs : List V)
    (m m' : Machine V H) : Prop where
  same : m.Same n m'
  places : List.Forall₂ (Points W s m') rest (ls.take rest.length).reverse
  values : Has W m' base rest.length vs

theorem Midway.later {pending : List Exp} {ls : List (Loc V)} {vs : List V} {m'' : Machine V H}
    (h : Midway W s n base pending ls vs m m')
    (hk : Keeps s s') (hall : ∀ t ∈ pending, s.Target base t.kind) (hn : n ≤ base)
    (hm : m'.Same (base + pending.length) m'') :
    Midway W s' n base pending ls vs m m'' where
  same := h.same.trans (hm.mono (by omega))
  places := points_mono h.places hk hall (hm.mono (by omega))
  values := h.values.same hm (Nat.le_refl _)

theorem Midway.store {pending : List Exp} {ls : List (Loc V)} {vs : List V} {x : V}
    (hm : m.Same n m')
    (hplaces : List.Forall₂ (Points W s m') (t :: pending) (ls.take (pending.length + 1)).reverse)
    (hvalues : Has W m' base pending.length vs)
    (hall : ∀ u ∈ t :: pending, s.Target base u.kind) (hs : ∀ u ∈ pending, t.Spares u)
    (hlow : s.level ≤ base) :
    ∃ l, ls[pending.length]? = some l ∧ Points W s m' t l ∧
      Option.Rel (Midway W s n base pending ls vs) (l.write W m x) (l.write W m' x) := by
  have hlen := hplaces.length_eq
  rw [List.length_cons, List.length_reverse, List.length_take] at hlen
  have hi : pending.length < ls.length := by omega
  rw [List.take_add_one, List.getElem?_eq_getElem hi, Option.toList_some, List.reverse_append,
    List.reverse_singleton, List.singleton_append]
    at hplaces
  cases hplaces with
  | cons ht hrest =>
    refine ⟨_, List.getElem?_eq_getElem hi, ht, ?_⟩
    have hwrite := Loc.write_same (W := W) hm ls[pending.length] x
    generalize ls[pending.length].write W m x = stored,
      hw : ls[pending.length].write W m' x = stored' at hwrite
    cases hwrite with
    | none => exact .none
    | @some _ m₂ hwrite =>
      refine .some ⟨hwrite, ?_, fun j hj => ?_⟩
      · have hspares := (List.forall₂_and_left _ _).2
          ⟨fun u hu => And.intro (hall u (List.mem_cons_of_mem _ hu)) (hs u hu), hrest⟩
        exact hspares.imp fun _ _ h => h.2.spared h.1.1 ht h.1.2 hw
      · refine ((ht.write hw).1 (base + j) fun i hk => ?_).trans (hvalues j hj)
        have := (hall t (List.mem_cons_self ..)).local_lt hk
        omega

/-- The values of the targets `pending` are still to be stored; they are in registers from `base`
on. -/
structure Storing (W : World V H) (s₀ s : State) (n base : Nat) (targets : List Var)
    (values : List Term) (pending : List Exp) : Prop where
  free : s.fn.freeReg = base + pending.length
  le : n ≤ base
  count : pending.length ≤ targets.length
  spares : pending.Pairwise Exp.Spares
  run : ∃ g, Effect W s₀ s g ∧ ∀ z, s.Later z → ∀ m,
    Option.Rel (fun p => Midway W s n base pending p.1 p.2.1 p.2.2)
      (performFrom W z targets values pending.length m) (g m)

theorem storeTop_storing {targets : List Var} {values : List Term} {pending : List Exp}
    (h : Assigns F base (t :: pending) s)
    (hw : Storing W s₀ s n base targets values (t :: pending)) :
    Via Keeps (storeTop t) s fun _ s' => Storing W s₀ s' n base targets values pending := by
  have hspec := storeTop_spec h
  obtain ⟨hlow, hall, hf, hi⟩ := h
  obtain ⟨-, hle, hcount, hspares, g, hg, hrel⟩ := hw
  rw [List.length_cons] at hf hi hcount hrel
  have htarget : s.Target (base + pending.length) t.kind :=
    (hall t (List.mem_cons_self ..)).mono (Keeps.refl s) (Nat.le_add_right ..)
  obtain ⟨loc, hloc⟩ := htarget.loc? (W := W)
  have hfree : s.fn.freeReg - 1 = base + pending.length := by omega
  have hstore : Via Keeps (storeTop t) s fun _ s' =>
      Effect W s s' fun m => (loc m).write W m (m.reg (base + pending.length)) := by
    refine Via.next (Via.freeReg ?_)
    rw [hfree]
    rw [← hf] at hi
    exact storeRegister_effect htarget hloc (by omega) hi (.inr ⟨rfl, by omega⟩)
  refine (hspec.and hstore).mono ?_
  rintro _ s' hk ⟨⟨-, -, hholds⟩, he⟩
  refine ⟨hholds.1, hle, Nat.le_of_succ_le hcount, hspares.of_cons, _, hg.trans he,
    fun z hz m => ?_⟩
  rw [performFrom_step hcount]
  refine (hrel z (hz.after hk) m).bind ?_
  rintro ⟨ls, vs, m₁⟩ m' hmid
  obtain ⟨l, hl, ⟨loc', hloc', rfl⟩, hstored⟩ :=
    Midway.store (x := vs.getD pending.length (W.const .nil)) hmid.same hmid.places
    (hmid.values.less (Nat.le_succ _)) hall (fun u hu => List.rel_of_pairwise_cons hspares hu) hlow
  obtain rfl := Option.some.inj (hloc.symm.trans hloc')
  have hx : m'.reg (base + pending.length) = vs.getD pending.length (W.const .nil) :=
    hmid.values _ (Nat.lt_succ_self _)
  show Option.Rel _ ((ls[pending.length]?).bind _) _
  rw [hl, hx]
  refine hstored.map_left fun m₂ m₃ h => ?_
  exact h.later hk (fun u hu => hall u (List.mem_cons_of_mem _ hu)) hle (.refl _ _)

theorem values_same {values : List Term} {z : State} (hz : Base z) (hn : z.level ≤ n)
    (h : m.Same n m') :
    values.mapM (·.value? W z m') = values.mapM (·.value? W z m) :=
  congrArg (values.mapM ·) (funext fun _ => Term.value?_same hz hn h)

theorem Held.storing {targets : List Var} {values : List Term}
    (hf : Found W s₀ s₁ n (t :: earlier) targets)
    (hp : (t :: earlier).Pairwise Exp.Spares) (hall : ∀ u ∈ t :: earlier, s₁.Target base u.kind)
    (hlen : targets.length = earlier.length + 1) (hn : n ≤ base) (hlow : s₁.level ≤ n)
    (h : Held W s₁ s base (earlier.length + 1) values) : Storing W s₀ s n base targets values
    (t :: earlier) := by
  obtain ⟨g, hg, hplaces⟩ := hf
  obtain ⟨hkeep, hfree, g', hg', hvalues⟩ := h
  refine ⟨hfree, hn, Nat.le_of_eq hlen.symm, hp, _, hg.trans hg', fun z hz m => ?_⟩
  have hlevel : z.level ≤ n := by
    rw [hz.keeps.level, hkeep.level]
    exact hlow
  rw [show (t :: earlier).length = targets.length from hlen.symm, performFrom_start]
  have hm := hplaces z (hz.after hkeep) m
  generalize hls : targets.mapM (·.loc? W z m) = found, g m = reached at hm
  cases hm with
  | none => exact .none
  | @some ls m' hm =>
    obtain ⟨hsame, hpoints⟩ := hm
    have hcount : ls.length = (t :: earlier).length := (mapM_length hls).trans hlen
    have hv := hvalues z hz m'
    rw [values_same hz.base hlevel hsame] at hv
    refine hv.map_left fun vs m'' hm => ⟨hsame.trans (hm.1.mono hn), ?_, hm.2⟩
    rw [List.take_of_length_le (Nat.le_of_eq hcount)]
    exact points_mono hpoints hkeep hall hm.1

theorem storeTo_storing {targets : List Var} {init : List Term} {last : Term}
    (hf : Found W s₀ s₁ n (t :: earlier) targets)
    (hp : (t :: earlier).Pairwise Exp.Spares) (hall : ∀ u ∈ t :: earlier, s₁.Target base u.kind)
    (hlen : targets.length = earlier.length + 1) (hn : n ≤ base) (hlow : s₁.level ≤ n)
    (h : Held W s₁ s₂ base init.length init) (hx : Stands W F s₂ last e s)
    (hcount : init.length = earlier.length) :
    Via Keeps (storeTo t e) s fun _ s' =>
      Storing W s₀ s' n base targets (init ++ [last]) earlier := by
  obtain ⟨g, hg, hplaces⟩ := hf
  obtain ⟨L, hd, hL⟩ := h.reading (Nat.le_trans hlow hn) hx
  have hkeep := h.keeps.trans hx.keeps
  obtain ⟨kind, T, E⟩ := e
  obtain ⟨rfl, rfl⟩ : T = none ∧ E = none := by simpa using hx.plain
  have htarget : s.Target s₂.fn.freeReg t.kind :=
    (hall t (List.mem_cons_self ..)).mono hkeep (by rw [h.free]; exact Nat.le_add_right ..)
  obtain ⟨loc, hloc⟩ := htarget.loc? (W := W)
  have hval := hx.read.toVal
  refine ((storeTo_spec htarget hval).and
    (storeTo_effect htarget hloc hval hd fun _ => trivial)).mono ?_
  rintro _ s' hk ⟨⟨-, hfree, -⟩, g', hg', hstore⟩
  refine ⟨?_, hn, by omega, hp.of_cons, _, hg.trans hg', fun z hz m => ?_⟩
  · rw [hfree hx.not_multi, h.free, hcount]
  have hlevel : z.level ≤ n := by
    rw [hz.keeps.level, hk.level, hkeep.level]
    exact hlow
  rw [performFrom_step (by omega), ← hlen, performFrom_start]
  have hm := hplaces z (hz.after (hkeep.trans hk)) m
  generalize hls : targets.mapM (·.loc? W z m) = found, g m = reached at hm
  cases hm with
  | none => exact .none
  | @some ls m' hm =>
    obtain ⟨hsame, hpoints⟩ := hm
    have hlength : ls.length = earlier.length + 1 := (mapM_length hls).trans hlen
    have hv := hL z (hz.after hk) m'
    rw [values_same hz.base hlevel hsame] at hv
    have hall' : ∀ u ∈ t :: earlier, s.Target base u.kind :=
      fun u hu => (hall u hu).mono hkeep (Nat.le_refl _)
    have hfree' : s₂.fn.freeReg = base + earlier.length := by rw [h.free, hcount]
    rw [Option.bind_some, Option.bind_map]
    refine (hv.bind (S := fun p => Midway W s n base earlier p.1 p.2.1 p.2.2) ?_).trans (hstore m')
      fun p m₂ m₃ hmid hm => ?_
    · rintro vs ⟨m₁, x⟩ ⟨hsame', hhas, rfl⟩
      have hplaces' : List.Forall₂ (Points W s m₁) (t :: earlier)
          (ls.take (earlier.length + 1)).reverse := by
        rw [List.take_of_length_le (Nat.le_of_eq hlength)]
        exact points_mono hpoints hkeep hall hsame'
      rw [hcount] at hhas
      obtain ⟨l, hl, ⟨loc', hloc', rfl⟩, hstored⟩ :=
        Midway.store (x := vs.getD init.length (W.const .nil))
        (hsame.trans (hsame'.mono hn)) hplaces' hhas hall'
          (fun u hu => List.rel_of_pairwise_cons hp hu)
        (by rw [hkeep.level]; exact Nat.le_trans hlow hn)
      obtain rfl := Option.some.inj (hloc.symm.trans hloc')
      show Option.Rel _ ((ls[earlier.length]?).bind _) _
      rw [hl, ← hcount]
      exact hstored.map_left fun _ _ h => h
    · exact hmid.later hk (fun u hu => hall' u (List.mem_cons_of_mem _ hu)) hn
        (by rw [← hfree']; exact hm)

theorem setOneReturn_single (h : e.isMulti = false) : setOneReturn e = pure e := by
  obtain ⟨kind, T, E⟩ := e
  cases kind <;> first | rfl | cases h

theorem assignValues_storing {targets : List Var} (ok : NestedOk r) (hr : ReadsTerms W F r)
    (h : Ready F s)
    (hall : ∀ u ∈ t :: earlier, s.Target s.fn.freeReg u.kind)
    (hf : Found W s₀ s n (t :: earlier) targets)
    (hp : (t :: earlier).Pairwise Exp.Spares) (hlen : targets.length = earlier.length + 1)
    (hn : n ≤ s.fn.freeReg) (hlow : s.level ≤ n)
    (hstop : Avoids afterTerm (ahead rest)) (hcomma : ahead rest ≠ .char ',')
    (hfaces : s.Faces (separated Term.tokens (term :: ts) ++ rest)) :
    Ensures (do
      let (n, e) ← expressionList r
      let count := earlier.length + 1
      if n = count then storeTo t (← setOneReturn e)
      else
        adjustValues count (n, e)
        storeTop t
      return earlier) s fun pending s' => pending = earlier ∧
        Storing W s₀ s' n s.fn.freeReg targets (term :: ts) earlier ∧ s'.Faces rest := by
  refine .bind (((expressionList_spec ok h).ensures).and
    (expressionList_gathered hr h hstop hcomma hfaces)) ?_
  rintro ⟨k, e⟩ s₁ ⟨⟨hk₁, hlist, -⟩, hg, hf₁⟩
  refine .ite (fun hcount => ?_) fun hcount => ?_
  · obtain ⟨init, last, s₂, hts, hk, hheld, hx⟩ := hg
    obtain rfl : k = (term :: ts).length := hk
    rw [hts] at hcount ⊢
    rw [setOneReturn_single hx.not_multi]
    refine .step (show (pure e : M Exp) s₁ = .ok e s₁ from rfl) (.bind (Q := fun _ s' =>
      Storing W s₀ s' n s.fn.freeReg targets (init ++ [last]) earlier ∧ s'.Faces rest) ?_ ?_)
    · exact ((storeTo_storing hf hp hall hlen hn hlow hheld hx (by simpa using hcount)).still
        hf₁).mono fun _ _ h => ⟨h.1.2, h.2⟩
    · exact fun _ s' hs => .pure ⟨rfl, hs⟩
  · refine .bind (((adjustValues_spec (earlier.length + 1) hlist.listed).and
      (adjustValues_held hg (Nat.le_trans hlow hn))).still hf₁) ?_
    rintro _ s₂ ⟨⟨hk₂, hholds, hheld⟩, hf₂⟩
    have hk := hk₁.trans hk₂
    have hassigns : Assigns F s.fn.freeReg (t :: earlier) s₂ :=
      ⟨by rw [hk.level]; exact h.low, fun u hu => (hall u hu).mono hk (Nat.le_refl _), hholds⟩
    refine .bind ((storeTop_storing hassigns (hheld.storing hf hp hall hlen hn hlow)).still hf₂) ?_
    rintro _ s₃ ⟨⟨-, hs⟩, hf₃⟩
    exact .pure ⟨rfl, hs, hf₃⟩

/-- What is left of an assignment when the first of the targets `pending` comes up. -/
def Remaining (W : World V H) (F : List Pending) (s₀ s : State) (n : Nat) (targets : List Var)
    (values : List Term)
    (pending : List Exp) : Prop :=
  ∃ base, Assigns F base pending s ∧ Storing W s₀ s n base targets values pending

theorem Remaining.store {targets : List Var} {values : List Term} {pending : List Exp}
    (h : Remaining W F s₀ s n targets values (t :: pending)) :
    Via Keeps (storeTop t) s fun _ s' => Remaining W F s₀ s' n targets values pending := by
  obtain ⟨base, hassigns, hstoring⟩ := h
  exact ((storeTop_spec hassigns).and (storeTop_storing hassigns hstoring)).mono fun _ _ _ h =>
    ⟨base, h⟩

theorem Remaining.atLevel {targets : List Var} {values : List Term} {pending : List Exp}
    {depth deepest : Nat}
    (h : Remaining W F s₀ s n targets values pending) : Remaining W F s₀ (s.atLevel depth deepest) n
    targets values pending := by
  obtain ⟨base, hassigns, hfree, hle, hcount, hspares, g, hg, hrel⟩ := h
  have hk : Keeps s (s.atLevel depth deepest) := Coded.atLevel.toKeeps
  refine ⟨base, hassigns.atLevel, hfree, hle, hcount, hspares, g, hg.andStill rfl rfl fun _ _ h =>
    h, fun z hz m => ?_⟩
  exact (hrel z (hz.after hk) m).mono fun p m' h =>
    ⟨h.same, h.places.imp fun _ _ h => h.mono hk, h.values⟩

theorem Read.variableReady (h : Read F base e s) (hv : e.isVariable = true) : Ready F s :=
  ⟨h.bareInv (Exp.unsettled hv), Nat.le_trans h.low h.base_le⟩

theorem checkReadOnly_found {targets : List Var} {i : List Token} (h : Read F base e s)
    (hl : s.Lawful e) (hv : e.isVariable = true)
    (hall : ∀ t ∈ earlier, s.Target s.fn.freeReg t.kind)
    (hf : Found W s₀ s n (e :: earlier) targets) (hfaces : s.Faces i) :
    Ensures (do
      noteWrite e
      checkReadOnly e) s fun _ s' => (Keeps s s' ∧ s'.fn.freeReg = s.fn.freeReg) ∧ Ready F s' ∧
      (∀ t ∈ e :: earlier, s'.Target s'.fn.freeReg t.kind) ∧
        Found W s₀ s' n (e :: earlier) targets ∧ s'.Faces i := by
  refine (checkReadOnly_spec h.toVal hl hv).ensures.mono ?_
  rintro _ _ ⟨hk, ⟨writes, rfl⟩, hconst⟩
  have hread : Read F base e (s.relog s.target writes) := h.relog
  obtain ⟨g, hg, hrel⟩ := hf
  refine ⟨⟨hk, rfl⟩, hread.variableReady hv,
    List.forall_mem_cons.2 ⟨hread.toVal.target hv hconst, fun t ht => ?_⟩, ?_,
    ⟨hfaces.1, hfaces.2, hfaces.3, hfaces.4⟩⟩
  · exact (hall t ht).mono hk (Nat.le_refl _)
  · exact ⟨g, hg.andStill rfl rfl fun _ _ h => h,
      fun z hz m => (hrel z (hz.after hk) m).mono fun ls m' h =>
        ⟨h.1, h.2.imp fun _ _ h => h.mono hk⟩⟩

theorem assignRest_values {targets : List Var} {k : Nat} (h : Read F base e s) (hlaw : s.Lawful e)
    (hall : ∀ t ∈ earlier, s.Target s.fn.freeReg t.kind)
    (hf : Found W s₀ s n (e :: earlier) targets) (hp : (e :: earlier).Pairwise Exp.Spares)
    (hlen : targets.length = earlier.length + 1)
    (hn : n ≤ s.fn.freeReg) (hlow : s.level ≤ n) (hstop : Avoids afterTerm (ahead rest))
    (hcomma : ahead rest ≠ .char ',')
    (hfaces : s.Faces (.byte (byte '=') :: (separated Term.tokens (term :: ts) ++ rest))) :
    Ensures (assignRest (nested k) e earlier) s fun pending s' =>
      Remaining W F s₀ s' n targets (term :: ts) pending ∧ pending.length = earlier.length ∧
        s'.Faces rest := by
  have hspec := (assignRest_spec (nested_ok k) h hlaw hall).ensures
  have hstored : Ensures (assignRest (nested k) e earlier) s fun pending s' =>
      pending = earlier ∧ Storing W s₀ s' n s.fn.freeReg targets (term :: ts) earlier ∧
        s'.Faces rest := by
    unfold assignRest
    refine .ite (fun _ => .bind (Via.syntaxError (R := Keeps) (Q := fun _ _ => False)).ensures
      fun _ _ h => h.2.elim) fun hvar => ?_
    rw [checked_eq]
    refine .bind (checkReadOnly_found h hlaw (by simpa using hvar) hall hf hfaces) ?_
    rintro _ s₁ ⟨⟨hk₁, hfree⟩, hready, hall₁, hf₁, hfaces₁⟩
    refine .step (testNext_false hfaces₁ (show TokenKind.char '=' ≠ .char ',' by decide))
      (.ite (fun he => by cases he) fun _ => ?_)
    obtain ⟨x, hx, he, hfaces'⟩ := checkNext_passes hready.inv.base hfaces₁
    refine .step he ?_
    have hk := (Coded.setLexer hx).toKeeps
    rw [← hfree] at hn ⊢
    exact assignValues_storing (nested_ok k) (nested_readsTerms k) (hready.setLexer hx)
      (fun u hu => (hall₁ u hu).mono hk (Nat.le_refl _))
      (hf₁.setLexer hx) hp hlen hn (hk₁.level.symm ▸ hlow) hstop hcomma hfaces'
  refine (hspec.and hstored).mono ?_
  rintro _ s' ⟨⟨-, -, base', hassigns⟩, rfl, hstoring, hfaces'⟩
  have hbase : base' = s.fn.freeReg :=
    Nat.add_right_cancel (hassigns.holds.1.symm.trans hstoring.free)
  exact ⟨⟨_, hbase ▸ hassigns, hstoring⟩, rfl, hfaces'⟩

/-- The target before those of the rest of an assignment gets the value that is left for it. -/
theorem storeLast_remaining {targets : List Var} {values : List Term} {m : M (List Exp)}
    (h : Ensures m s fun pending s' => Remaining W F s₀ s' n targets values pending ∧
    pending.length = earlier.length + 1 ∧ s'.Faces rest) :
    Ensures (do
      match ← m with
      | target :: earlier =>
        storeTop target
        return earlier
      | [] => broken .indexInRange) s fun pending s' =>
        Remaining W F s₀ s' n targets values pending ∧ pending.length = earlier.length ∧
          s'.Faces rest := by
  refine .bind h ?_
  rintro pending s₁ ⟨hrem, hleft, hf₁⟩
  cases pending with
  | nil => exact absurd hleft (Nat.succ_ne_zero _).symm
  | cons t pending =>
    refine .bind (hrem.store.still hf₁) ?_
    rintro _ s₂ ⟨⟨-, hrem'⟩, hf₂⟩
    exact .pure ⟨hrem', Nat.succ.inj hleft, hf₂⟩

theorem assignRest_remaining {later targets : List Var} {k : Nat} (h : Read F base e s)
    (hlaw : s.Lawful e) (hall : ∀ t ∈ earlier, s.Target s.fn.freeReg t.kind)
    (hf : Found W s₀ s n (e :: earlier) targets) (hp : (e :: earlier).Pairwise Exp.Spares)
    (hlen : targets.length = earlier.length + 1)
    (hn : n ≤ s.fn.freeReg) (hlow : s.level ≤ n) (hstop : Avoids afterTerm (ahead rest))
    (hcomma : ahead rest ≠ .char ',')
    (hfaces : s.Faces (later.flatMap (fun x => .byte (byte ',') :: x.tokens) ++
      .byte (byte '=') :: (separated Term.tokens (term :: ts) ++ rest))) :
    Ensures (assignRest (nested k) e earlier) s fun pending s' =>
      Remaining W F s₀ s' n (targets ++ later) (term :: ts) pending ∧
        pending.length = earlier.length ∧ s'.Faces rest := by
  induction later generalizing k base e earlier targets s with
  | nil =>
    rw [List.append_nil]
    exact assignRest_values h hlaw hall hf hp hlen hn hlow hstop hcomma hfaces
  | cons y later ih =>
    have hfaces₁ : s.Faces (.byte (byte ',') ::
        (y.tokens ++ (later.flatMap (fun x => .byte (byte ',') :: x.tokens) ++
        .byte (byte '=') :: (separated Term.tokens (term :: ts) ++ rest)))) := by simpa using hfaces
    unfold assignRest
    refine .ite (fun _ => .bind (Via.syntaxError (R := Keeps) (Q := fun _ _ => False)).ensures
      fun _ _ h => h.2.elim) fun hvar => ?_
    rw [checked_eq]
    refine .bind (checkReadOnly_found h hlaw (by simpa using hvar) hall hf hfaces₁) ?_
    rintro _ s₁ ⟨⟨hk₁, hfree⟩, hready, hall₁, hf₁, hfaces₁⟩
    obtain ⟨x, hx, he, hfaces₂⟩ := testNext_passes hready.inv.base hfaces₁
    refine .step he (.ite (fun _ => ?_) fun hne => absurd rfl hne)
    have hnext : Avoids suffixKinds (ahead (later.flatMap (fun x => .byte (byte ',') :: x.tokens) ++
        .byte (byte '=') :: (separated Term.tokens (term :: ts) ++ rest))) := by
      cases later with
      | nil => exact (by decide : Avoids suffixKinds (.char '='))
      | cons => exact (by decide : Avoids suffixKinds (.char ','))
    refine .bind (((suffixed_spec (nested_ok k) (hready.setLexer hx)).ensures).and
      (suffixed_stands (W := W) (nested_readsTerms k) (hready.setLexer hx) hfaces₂ hnext)) ?_
    rintro v s₂ ⟨⟨hk₂, h₂, hlaw₂⟩, hv, hfaces₃⟩
    -- the targets after this one, once none of those before uses it
    have htail : ∀ {us : List Exp} {s₃ : State} {base' : Nat}, Read F base' v s₃ → s₃.Lawful v →
        (∀ u ∈ us, s₃.Target s₃.fn.freeReg u.kind) →
        Found W s₀ s₃ n (v :: us) (targets ++ [y]) → (v :: us).Pairwise Exp.Spares →
          us.length = earlier.length + 1 →
        n ≤ s₃.fn.freeReg → s₃.level ≤ n →
          s₃.Faces (later.flatMap (fun x => .byte (byte ',') :: x.tokens) ++
          .byte (byte '=') :: (separated Term.tokens (term :: ts) ++ rest)) →
        Ensures ((nested k).assign v us) s₃ fun pending s' =>
          Remaining W F s₀ s' n (targets ++ y :: later) (term :: ts) pending ∧
            pending.length = earlier.length + 1 ∧ s'.Faces rest := by
      intro us s₃ base' hread hlaw₃ hus hfound hpairs hcount hn₃ hlow₃ hf₃
      cases k with
      | zero =>
        intro a s' he
        cases he
      | succ k =>
        have hnext : ∀ depth deepest, Ensures (assignRest (nested k) v us)
            (s₃.atLevel depth deepest) fun pending s' =>
            Remaining W F s₀ s' n (targets ++ y :: later) (term :: ts) pending ∧
              pending.length = earlier.length + 1 ∧ s'.Faces rest := by
          intro depth deepest
          have hread' : Read F base' v (s₃.atLevel depth deepest) := hread.atLevel
          refine (ih hread' ?_ (fun u hu => State.target_atLevel (hus u hu)) hfound.atLevel hpairs
            (by simp [hlen, hcount])
            hn₃ hlow₃ (hf₃.atLevel depth deepest)).mono fun pending s₄ hp => ?_
          · exact hlaw₃
          · rw [List.append_assoc, List.singleton_append, hcount] at hp
            exact hp
        exact .metered ((hnext _ _).mono fun pending s₄ hp _ _ =>
          ⟨hp.1.atLevel, hp.2.1, hp.2.2.atLevel _ _⟩)
    have hk := (Coded.setLexer hx).toKeeps.trans hk₂
    have hle : s₁.fn.freeReg ≤ s₂.fn.freeReg := h₂.read.base_le
    rw [← hfree] at hn
    have hall₂ : ∀ u ∈ e :: earlier, s₂.Target s₂.fn.freeReg u.kind :=
      fun u hu => (hall₁ u hu).mono hk hle
    have hlow₁ : s₁.level ≤ n := hk₁.level.symm ▸ hlow
    have hlow₂ : s₂.level ≤ n := hk.level.symm ▸ hlow₁
    have hfound : Found W s₀ s₂ n (v :: e :: earlier) (targets ++ [y]) :=
      (hf₁.setLexer hx).cons hn hlow₁
        (fun u hu => (hall₁ u hu).mono (Coded.setLexer hx).toKeeps (Nat.le_refl _)) hv
    refine .ite (fun hi => ?_) fun _ => ?_
    · have hpairs : (v :: e :: earlier).Pairwise Exp.Spares :=
        List.pairwise_cons.2 ⟨fun _ _ => .of_indexed hi, hp⟩
      exact .step rfl (storeLast_remaining
        (htail h₂.read hlaw₂ hall₂ hfound hpairs rfl (Nat.le_trans hn hle) hlow₂ hfaces₃))
    · refine .bind (((copyConflicts_spec h₂.read hlaw₂ hall₂).and
        (copyConflicts_found h₂.read (Nat.le_trans hn hle) hall₂ hfound hp)).still hfaces₃) ?_
      rintro us s₃ ⟨⟨hk₃, ⟨hcount, htargets, hlaw₃, base', hread⟩, hle₃, hfound', hpairs⟩, hf₃⟩
      exact storeLast_remaining
        (htail hread hlaw₃ htargets hfound' hpairs hcount (Nat.le_trans hn (Nat.le_trans hle hle₃))
          (hk₃.level.symm ▸ hlow₂) hf₃)

/-- The code since `s` is a multiple assignment, but for registers from `n` on. -/
def Performs (W : World V H) (s s' : State) (n : Nat) (targets : List Var) (values : List Term) :
    Prop :=
  ∃ g, Effect W s s' g ∧ ∀ z, s'.Later z →
    ∀ m, Option.Rel (Machine.Same n) (perform W z targets values m) (g m)

theorem Remaining.performs {targets : List Var} {values : List Term}
    (h : Remaining W F s₀ s n targets values []) :
    Performs W s₀ s n targets values := by
  obtain ⟨base, -, hstoring⟩ := h
  obtain ⟨g, hg, hrel⟩ := hstoring.run
  refine ⟨g, hg, fun z hz m => ?_⟩
  rw [perform_eq]
  exact (hrel z hz m).map_left fun p m' hmid => hmid.same

theorem expressionStatement_performs {x : Var} {xs : List Var} {k : Nat} (h : Ready F s)
    (hstop : Avoids afterTerm (ahead rest))
    (hcomma : ahead rest ≠ .char ',')
    (hfaces
    : s.Faces (separated Var.tokens (x :: xs) ++ .byte (byte '=') ::
    (separated Term.tokens (term :: ts) ++ rest))) :
    Ensures (expressionStatement (nested k)) s fun _ s' =>
      Performs W s s' s.fn.freeReg (x :: xs) (term :: ts) := by
  have hfaces₁ : s.Faces (x.tokens ++ (xs.flatMap (fun x => .byte (byte ',') :: x.tokens) ++
      .byte (byte '=') :: (separated Term.tokens (term :: ts) ++
        rest))) := by simpa [separated] using hfaces
  have hnext : ∃ c, c ∈ [TokenKind.char '=', .char ','] ∧
      ahead (xs.flatMap (fun x => .byte (byte ',') :: x.tokens) ++
      .byte (byte '=') :: (separated Term.tokens (term :: ts) ++ rest)) = c := by
    cases xs with
    | nil => exact ⟨.char '=', by simp, rfl⟩
    | cons => exact ⟨.char ',', by simp, rfl⟩
  obtain ⟨c, hc, hahead⟩ := hnext
  unfold expressionStatement
  refine .bind ((suffixed_spec (nested_ok k) h).ensures.and
    (suffixed_stands (W := W) (nested_readsTerms k) h hfaces₁ ?_)) ?_
  · rw [hahead]
    rcases List.mem_pair.1 hc with rfl | rfl <;> decide
  rintro e s₁ ⟨⟨-, -, hlaw⟩, hx, hfaces₂⟩
  refine .step (currentKind_eq hfaces₂) (.ite (fun _ => ?_) fun hne => ?_)
  · have hfound : Found W s s₁ s.fn.freeReg [e] [x] :=
      Found.nil.cons (Nat.le_refl _) h.low (by simp) hx
    have hle : s.fn.freeReg ≤ s₁.fn.freeReg := hx.read.base_le
    refine (Ensures.discard (assignRest_remaining hx.read hlaw (by simp) hfound
      (List.pairwise_singleton ..) rfl hle
      (hx.keeps.level.symm ▸ h.low) hstop hcomma hfaces₂)).mono ?_
    rintro _ s₂ ⟨pending, hrem, hlen, -⟩
    rw [List.length_eq_zero_iff.1 hlen] at hrem
    exact hrem.performs
  · rw [hahead] at hne
    rcases List.mem_pair.1 hc with rfl | rfl <;> simp at hne

theorem Performs.setFree {targets : List Var} {values : List Term}
    (h : Performs W s s' n targets values) (free : Nat) :
    Performs W s (s'.setFree free) n targets values := by
  obtain ⟨g, hg, hrel⟩ := h
  exact ⟨g, hg.andStill rfl rfl fun _ _ h => h, fun z hz => hrel z (hz.after (Keeps.setFree _ _))⟩

theorem activeRegisters_still : Ensures activeRegisters s fun _ s' => s' = s := by
  intro level s' he
  rw [activeRegisters_eq] at he
  cases hl : registersOf s.vars s.fn.firstVar s.fn.active with
  | none =>
    rw [hl] at he
    cases he
  | some l =>
    rw [hl] at he
    cases he
    rfl

theorem statement_performs {x : Var} {xs : List Var} {k : Nat} (h : Rests F s)
    (hstop : Avoids afterTerm (ahead rest))
    (hcomma : ahead rest ≠ .char ',')
    (hfaces
    : s.Faces (separated Var.tokens (x :: xs) ++ .byte (byte '=') ::
    (separated Term.tokens (term :: ts) ++ rest))) :
    Ensures (statement (nested k)) s fun _ s' =>
      Performs W s s' s.level (x :: xs) (term :: ts) := by
  have hbody : ∀ line, statementBody (nested k) line s = expressionStatement (nested k) s := by
    intro line
    obtain ⟨y, i, hy⟩ := x.starts (xs.flatMap (fun x => .byte (byte ',') :: x.tokens) ++
      .byte (byte '=') :: (separated Term.tokens (term :: ts) ++ rest))
    have hname : s.Faces (.name y :: i) := by
      rw [← hy]
      simpa [separated] using hfaces
    unfold statementBody
    rw [bind_eq (currentKind_eq hname)]
    rfl
  have hassign : Ensures (statementBody (nested k) s.lexer.line) s fun _ s' =>
      Performs W s s' s.level (x :: xs) (term :: ts) := by
    intro a s' he
    rw [hbody] at he
    rw [← h.free]
    exact expressionStatement_performs h.ready hstop hcomma hfaces a s' he
  unfold statement
  refine .step (show currentLine s = .ok s.lexer.line s from rfl) (.bind hassign fun _ s₁ h₁ => ?_)
  refine .step (show (get : M State) s₁ = .ok s₁ s₁ from rfl) (.bind activeRegisters_still ?_)
  rintro level _ rfl
  refine .ite (fun _ => .bind (Q := fun _ _ => False) (fun a s' he => by cases he) fun _ _ h =>
    h.elim) fun _ => ?_
  intro _ s' he
  cases he
  exact h₁.setFree level

theorem State.From.end (h : ∀ i, s.previous = some i → i.opcode? ≠ some .loadNil) :
    s.From s.fn.code.size where
  le := Nat.le_refl _
  whole := by
    rw [List.drop_eq_nil_of_le (by simp)]
    trivial
  fresh := fun _ => h

end Compile

open Compile

/-- A multiple assignment is simultaneous, whatever its targets and its values are. The code of the
statement, run after the code from any position before it, finds all places and all values first and
then stores the values, the last one first; registers of temporary values may have changed. -/
theorem assignment_simultaneous {V H : Type} (W : World V H) {F : List Pending} {s s' : State}
    {k : Nat} {x : Var} {xs : List Var}
    {t : Term} {ts : List Term} {rest : List Token} (h : Rests F s)
    (hstop : Avoids afterTerm (ahead rest))
    (hcomma : ahead rest ≠ .char ',')
    (hfaces
    : s.Faces (separated Var.tokens (x :: xs) ++ .byte (byte '=') ::
    (separated Term.tokens (t :: ts) ++ rest)))
    (hrun : statement (nested k) s = .ok () s') {K : Array Value} (hK : s'.PoolIn K) {p : Nat}
    (hp : s.From p) (m : Machine V H) :
    Option.Rel (Machine.Same s.level)
      ((Machine.exec W K (s.fn.code.toList.drop p) m).bind (perform W s' (x :: xs) (t :: ts)))
      (Machine.exec W K (s'.fn.code.toList.drop p) m) := by
  obtain ⟨g, hg, hrel⟩ := statement_performs h hstop hcomma hfaces () s' hrun
  obtain ⟨-, hsettles, -⟩ := (statement_spec (nested_ok k) h).ensures () s' hrun
  have hbase : Base s' := by
    rcases hsettles with h | ⟨-, h⟩
    · exact h.inv.base
    · exact h.toBase
  rw [hg.run K p m hK hp]
  exact (Option.Rel.diag (R := (· = ·)) fun _ => rfl).bind fun _ m' he =>
    he ▸ hrel s' ⟨Keeps.refl _, hbase⟩ m'

/-- The tokens that a state is before, if they can be read. -/
def Compile.State.tokens? (s : State) : Option (List Token) :=
  if s.lexer.failure.isNone && s.lexer.ahead.isNone then
    (Lexer.tokensFrom? s.lexer.numberOf (s.lexer.input.length + 1) s.lexer.input s.lexer.line).map
      (s.lexer.token :: ·)
  else none

theorem Compile.State.Faces.of_tokens? {s : State} {i : List Token} (h : s.tokens? = some i)
    (hi : ∀ t ∈ i, t.kind ≠ .eos) : s.Faces i := by
  unfold tokens? at h
  split at h
  · rename_i hc
    simp only [Bool.and_eq_true, Option.isNone_iff_eq_none] at hc
    obtain ⟨ts, hts, rfl⟩ := Option.map_eq_some_iff.1 h
    refine ⟨hc.1, rfl, ?_, hi⟩
    unfold Lexer.Yields
    rw [hc.2]
    exact .of_tokensFrom? hts
  · cases h

theorem Compile.ran_of_run' {α β : Type} {m : Compile.M α} {f : α → Compile.M β} {s : Compile.State}
    {b : β}
    (h : (m >>= f).run' s = some b) : ∃ a s', m s = .ok a s' ∧ (f a).run' s' = some b := by
  cases hm : m s with
  | ok a s' =>
    refine ⟨a, s', rfl, ?_⟩
    rw [← h]
    unfold EStateM.run' EStateM.run
    rw [bind_eq hm]
  | error e s' =>
    have hfail : (m >>= f) s = .error e s' := by
      show EStateM.bind m f s = _
      unfold EStateM.bind
      rw [hm]
    unfold EStateM.run' EStateM.run at h
    rw [hfail] at h
    cases h

/-- The first target of `i, t[i] = t, i` is the key of the second. -/
def keyTargets : List Var := [.name (utf8 "i"), .item (.name (utf8 "t")) (.name (utf8 "i"))]

def keyValues : List Term := [.var (.name (utf8 "t")), .var (.name (utf8 "i"))]

theorem assignment_simultaneous_key : ∃ s s',
    (do Compile.next; statement (nested 3) : Compile.M Unit)
    (opened (utf8 "a") (utf8 "local t, i = 1, 2 i, t[i] = t, i")) = .ok () s ∧
    statement (nested 3) s = .ok () s' ∧ ∀ (V H : Type) (W : World V H) (m : Machine V H),
      Option.Rel (Machine.Same s.level)
      (perform W s' keyTargets keyValues m)
        (Machine.exec W s'.fn.pool.values (s'.fn.code.toList.drop s.fn.code.size) m) := by
  have hok : ((do Compile.next; statement (nested 3) : Compile.M Unit) >>= fun _ => get >>= fun s =>
      statement (nested 3) >>= fun _ =>
      pure (decide (s.tokens?
        = some (separated Var.tokens keyTargets ++ .byte (byte '=') ::
        (separated Term.tokens keyValues ++ []))) &&
        s.previous.all (·.opcode? ≠ some .loadNil))).run'
          (opened (utf8 "a") (utf8 "local t, i = 1, 2 i, t[i] = t, i")) = some true := by
    unfold opened initial Lexer.start
    rw [Interner.reservedIndex_markAll]
    decide +kernel
  have hstart : Rests [] (opened (utf8 "a") (utf8 "local t, i = 1, 2 i, t[i] = t, i")) :=
    opened_rests _ _
  have hsettles : Ensures (do Compile.next; statement (nested 3) : Compile.M Unit)
      (opened (utf8 "a") (utf8 "local t, i = 1, 2 i, t[i] = t, i")) fun _ s => Settles [] s := by
    have hpass : Via Coded Compile.next
        (opened (utf8 "a") (utf8 "local t, i = 1, 2 i, t[i] = t, i")) fun _ s' =>
        ∃ l, (opened (utf8 "a") (utf8 "local t, i = 1, 2 i, t[i] = t, i")).Passes l ∧
          s' = State.setLexer _ l :=
      Via.pass hstart.inv.base fun l hl => ⟨l, hl, rfl⟩
    refine .bind hpass.ensures ?_
    rintro _ _ ⟨-, l, hl, rfl⟩
    exact (statement_spec (nested_ok 3) (hstart.setLexer hl)).ensures.mono fun _ _ h => h.2.1
  obtain ⟨_, s, hrun, hok⟩ := ran_of_run' hok
  obtain ⟨_, _, ⟨⟩, hok⟩ := ran_of_run' hok
  obtain ⟨_, s', hs', hok⟩ := ran_of_run' hok
  obtain ⟨htokens, hlast⟩ := Bool.and_eq_true_iff.1 (Option.some.inj hok)
  have hfaces := State.Faces.of_tokens? (of_decide_eq_true htokens) (by decide)
  have hrests := (hsettles _ s hrun).rests (by rw [hfaces.kind]; decide)
  refine ⟨s, s', hrun, hs', fun V H W m => ?_⟩
  have hend : s.From s.fn.code.size := State.From.end fun i hi hop => by
    rw [hi] at hlast
    exact of_decide_eq_true hlast hop
  have hall := assignment_simultaneous W hrests (by decide) (by decide) hfaces hs' (fun _ _ h => h)
    hend m
  rw [List.drop_eq_nil_of_le (Nat.le_of_eq s.fn.code.length_toList)] at hall
  exact hall

end LuaChunk