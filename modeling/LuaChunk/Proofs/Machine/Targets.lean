import LuaChunk.Proofs.Machine.Terms

set_option autoImplicit false

namespace LuaChunk

theorem mapM_concat {α β : Type} (f : α → Option β) (l : List α) (a : α) :
    (l ++ [a]).mapM f = (l.mapM f).bind fun xs => (f a).map fun x => xs ++ [x] := by
  rw [List.mapM_append]
  cases l.mapM f with
  | none => rfl
  | some xs => cases hf : f a <;> simp [hf]

theorem mapM_length {α β : Type} {f : α → Option β} {l : List α} {ys : List β}
    (h : l.mapM f = some ys) : ys.length = l.length := by
  induction l generalizing ys with
  | nil =>
    cases h
    rfl
  | cons a l ih =>
    simp only [List.mapM_cons, Option.bind_eq_bind, Option.bind_eq_some_iff, Option.pure_def,
      Option.some.injEq] at h
    obtain ⟨y, -, ys', hys, rfl⟩ := h
    rw [List.length_cons, List.length_cons, ih hys]

namespace Compile

variable {V H : Type} {W : World V H} {F : List Pending} {base base₂ n copy : Nat} {e t u v : Exp}
  {kind : ExpKind}
  {s₀ s₁ s₂ s s' : State} {m m' : Machine V H} {l lv : Loc V} {earlier : List Exp}

def Points (W : World V H) (s : State) (m : Machine V H) (e : Exp) (l : Loc V) : Prop :=
  ∃ loc, e.kind.loc? W s = some loc ∧ loc m = l

def ExpKind.Reads (q : Nat) : ExpKind → Prop
  | .indexInt t _ | .indexStr t _ _ => t = q
  | .indexed t k _ => t = q ∨ k = q
  | _ => False

def ExpKind.ReadsUp (i : Nat) : ExpKind → Prop
  | .indexUp t _ _ => t = i
  | _ => False

/-- What `t` stands for does not depend on the variable `v`. -/
structure Exp.Spares (v t : Exp) : Prop where
  reg : ∀ q i, v.kind = .localVar q i → ¬ t.kind.Reads q
  up : ∀ i, v.kind = .upvalue i → ¬ t.kind.ReadsUp i

namespace Points

theorem mono (h : Points W s m e l) (hk : Keeps s s') : Points W s' m e l := by
  obtain ⟨loc, hloc, hl⟩ := h
  exact ⟨loc, ExpKind.loc?_mono hloc hk.vars hk.pool, hl⟩

theorem same (h : Points W s m e l) (ht : s.Target base e.kind) (hm : m.Same base m') :
    Points W s m' e l := by
  obtain ⟨loc, hloc, hl⟩ := h
  exact ⟨loc, hloc, (ht.loc_same hloc hm).trans hl⟩

theorem write {x : V} (h : Points W s m v lv) (hw : lv.write W m x = some m') :
    (∀ q, (∀ i, v.kind ≠ .localVar q i) → m'.reg q = m.reg q) ∧ ∀ j, v.kind ≠ .upvalue j →
      m'.up j = m.up j := by
  obtain ⟨loc, hloc, rfl⟩ := h
  obtain ⟨kind, T, E⟩ := v
  have hcell : ∀ {table key : V}, Loc.write W m x (.cell table key) = some m' → m'.reg = m.reg ∧
      m'.up = m.up := by
    intro table key hw
    obtain ⟨heap, -, rfl⟩ := Option.map_eq_some_iff.1 hw
    exact ⟨rfl, rfl⟩
  cases kind with
  | localVar r i =>
    cases hloc
    cases hw
    exact ⟨fun q hq => Machine.setReg_ne fun he => hq i (by rw [he]), fun _ _ => rfl⟩
  | upvalue i =>
    cases hloc
    cases hw
    exact ⟨fun _ _ => rfl, fun j hj => if_neg fun he => hj (by rw [he])⟩
  | indexed | indexInt =>
    cases hloc
    obtain ⟨hreg, hup⟩ := hcell hw
    exact ⟨fun q _ => congrFun hreg q, fun j _ => congrFun hup j⟩
  | indexUp | indexStr =>
    obtain ⟨c, -, rfl⟩ := Option.map_eq_some_iff.1 hloc
    obtain ⟨hreg, hup⟩ := hcell hw
    exact ⟨fun q _ => congrFun hreg q, fun j _ => congrFun hup j⟩
  | konst | constVar =>
    obtain ⟨c, -, rfl⟩ := Option.map_eq_some_iff.1 hloc
    cases hw
  | nil | true_ | false_ | int | float | str | inReg =>
    cases hloc
    cases hw
  | _ => cases hloc

theorem congr (h : Points W s m t l) (ht : s.Target base t.kind)
    (hreg : ∀ q, t.kind.Reads q → m'.reg q = m.reg q)
    (hup : ∀ i, t.kind.ReadsUp i → m'.up i = m.up i) : Points W s m' t l := by
  obtain ⟨loc, hloc, rfl⟩ := h
  refine ⟨loc, hloc, ?_⟩
  obtain ⟨kind, T, E⟩ := t
  cases kind with
  | localVar | upvalue =>
    cases hloc
    rfl
  | indexUp q k a =>
    obtain ⟨c, -, rfl⟩ := Option.map_eq_some_iff.1 hloc
    simp only [hup q rfl]
  | indexInt q k =>
    cases hloc
    simp only [hreg q rfl]
  | indexStr q k a =>
    obtain ⟨c, -, rfl⟩ := Option.map_eq_some_iff.1 hloc
    simp only [hreg q rfl]
  | indexed q k a =>
    cases hloc
    simp only [hreg q (.inl rfl), hreg k (.inr rfl)]
  | _ => exact ht.elim

theorem spared {x : V} (h : Points W s m t l) (ht : s.Target base t.kind) (hv : Points W s m v lv)
    (hs : v.Spares t)
    (hw : lv.write W m x = some m') : Points W s m' t l := by
  obtain ⟨hreg, hup⟩ := hv.write hw
  exact h.congr ht (fun q hq => hreg q fun i he => hs.reg q i he hq) fun i hi => hup i fun he =>
    hs.up i he hi

theorem withCopy {x : V} (h : Points W s m t l) (ht : s.Target copy t.kind) (hv : Points W s m v lv)
    (hx : lv.read W m = some x)
    (hm : m.Same copy m') (hc : m'.reg copy = x) : Points W s m' (t.withCopy v copy).1 l := by
  obtain ⟨loc, hloc, hl⟩ := h.same ht hm
  obtain ⟨locv, hlocv, rfl⟩ := hv
  obtain ⟨kind, T, E⟩ := t
  obtain ⟨kv, Tv, Ev⟩ := v
  have hreg : ∀ {q i : Nat}, kv = .localVar q i → q < copy → m'.reg copy = m'.reg q := by
    rintro q i rfl hq
    cases hlocv
    cases hx
    exact hc.trans (hm.reg q hq).symm
  unfold Exp.withCopy
  split
  · rename_i q k a i hk hkv
    obtain rfl : kind = _ := hk
    obtain rfl : kv = _ := hkv
    obtain ⟨c, hc', rfl⟩ := Option.map_eq_some_iff.1 hloc
    cases hlocv
    cases hx
    split
    · rename_i he
      refine ⟨_, Option.map_eq_some_iff.2 ⟨c, hc', rfl⟩, ?_⟩
      rw [← hl, he]
      show Loc.cell (m'.reg copy) _ = Loc.cell (m'.up i) _
      rw [hm.up, hc]
    · exact ⟨_, hloc, hl⟩
  · rename_i q k r i hk hkv
    obtain rfl : kind = _ := hk
    split
    · rename_i he
      cases hloc
      refine ⟨_, rfl, ?_⟩
      rw [← hl, hreg hkv (he ▸ ht.1), he]
    · exact ⟨_, hloc, hl⟩
  · rename_i q k a r i hk hkv
    obtain rfl : kind = _ := hk
    split
    · rename_i he
      obtain ⟨c, hc', rfl⟩ := Option.map_eq_some_iff.1 hloc
      refine ⟨_, Option.map_eq_some_iff.2 ⟨c, hc', rfl⟩, ?_⟩
      rw [← hl, hreg hkv (he ▸ ht.1), he]
    · exact ⟨_, hloc, hl⟩
  · rename_i q k a r i hk hkv
    obtain rfl : kind = _ := hk
    cases hloc
    refine ⟨_, rfl, ?_⟩
    have hif : ∀ {q : Nat}, q < copy → m'.reg (if q = r then copy else q) = m'.reg q := by
      intro q hq
      split
      · rename_i he
        rw [hreg hkv (he ▸ hq), he]
      · rfl
    rw [← hl, hif ht.1, hif ht.2]
  · exact ⟨_, hloc, hl⟩

end Points

theorem State.Target.loc? (h : s.Target base kind) : ∃ loc, kind.loc? W s = some loc := by
  have hkey : ∀ {k : PoolEntry} {f : Value → Machine V H → Loc V}, s.ShortKey k →
      ∃ loc, (s.fn.pool.values[k.index]?).map f = some loc := fun h =>
    ⟨_, Option.map_eq_some_iff.2 ⟨_, Array.getElem?_eq_getElem h.holds.lt, rfl⟩⟩
  cases kind with
  | localVar | upvalue | indexInt | indexed => exact ⟨_, rfl⟩
  | indexUp | indexStr => exact hkey h.2
  | _ => exact h.elim

theorem withCopy_reads {q : Nat} (h : (t.withCopy v copy).1.kind.Reads q) :
    q = copy ∨ t.kind.Reads q ∧ ∀ i, v.kind ≠ .localVar q i := by
  obtain ⟨kind, T, E⟩ := t
  unfold Exp.withCopy at h
  split at h
  · split at h
    · exact .inl h.symm
    · rename_i hk _ _
      obtain rfl : kind = _ := hk
      exact h.elim
  · rename_i hk hkv
    obtain rfl : kind = _ := hk
    rw [hkv]
    split at h
    · exact .inl h.symm
    · rename_i hne
      exact .inr ⟨h, fun i he => hne (by cases he; exact h)⟩
  · rename_i hk hkv
    obtain rfl : kind = _ := hk
    rw [hkv]
    split at h
    · exact .inl h.symm
    · rename_i hne
      exact .inr ⟨h, fun i he => hne (by cases he; exact h)⟩
  · rename_i p k a r i hk hkv
    obtain rfl : kind = _ := hk
    rw [hkv]
    have hif : ∀ p, (if p = r then copy else p) = q → q = copy ∨ p = q ∧ r ≠ q := by
      intro p hp
      split at hp
      · exact .inl hp.symm
      · exact .inr ⟨hp, fun he => absurd (hp.trans he.symm) ‹_›⟩
    rcases h with h | h
    · exact (hif p h).imp_right fun hp => ⟨.inl hp.1, fun i he => hp.2 (by cases he; rfl)⟩
    · exact (hif k h).imp_right fun hp => ⟨.inr hp.1, fun i he => hp.2 (by cases he; rfl)⟩
  · rename_i hint hstr hindexed
    refine .inr ⟨h, fun i he => ?_⟩
    cases kind with
    | indexInt p k => exact hint p k q i rfl he
    | indexStr p k a => exact hstr p k a q i rfl he
    | indexed p k a => exact hindexed p k a q i rfl he
    | _ => exact h

theorem withCopy_readsUp {i : Nat} (h : (t.withCopy v copy).1.kind.ReadsUp i) : t.kind.ReadsUp i ∧
    v.kind ≠ .upvalue i := by
  obtain ⟨kind, T, E⟩ := t
  unfold Exp.withCopy at h
  split at h
  · rename_i hk hkv
    obtain rfl : kind = _ := hk
    rw [hkv]
    split at h
    · exact h.elim
    · rename_i hne
      exact ⟨h, fun he => hne (by cases he; exact h)⟩
  · rename_i hk _
    obtain rfl : kind = _ := hk
    split at h <;> exact h.elim
  · rename_i hk _
    obtain rfl : kind = _ := hk
    split at h <;> exact h.elim
  · exact h.elim
  · rename_i hup _ _ _
    refine ⟨h, fun he => ?_⟩
    cases kind with
    | indexUp p k a => exact hup p k a i rfl he
    | _ => exact h

theorem withCopy_kind : (t.withCopy v copy).1 = t ∨
    (∀ q i, (t.withCopy v copy).1.kind ≠ .localVar q i) ∧
      ∀ i, (t.withCopy v copy).1.kind ≠ .upvalue i := by
  unfold Exp.withCopy
  split
  · split
    · exact .inr ⟨by simp, by simp⟩
    · exact .inl rfl
  · split
    · exact .inr ⟨by simp, by simp⟩
    · exact .inl rfl
  · split
    · exact .inr ⟨by simp, by simp⟩
    · exact .inl rfl
  · exact .inr ⟨by simp, by simp⟩
  · exact .inl rfl

namespace Exp.Spares

theorem of_same (h : (t.withCopy v copy).2 = false) : v.Spares t := by
  obtain ⟨kind, T, E⟩ := t
  obtain ⟨kv, Tv, Ev⟩ := v
  constructor
  · rintro q i rfl hq
    cases kind with
    | indexInt p k | indexStr p k a =>
      obtain rfl : p = q := hq
      simp [Exp.withCopy] at h
    | indexed p k a => rcases hq with rfl | rfl <;> simp [Exp.withCopy] at h
    | _ => exact hq
  · rintro i rfl hi
    cases kind with
    | indexUp p k a =>
      obtain rfl : p = i := hi
      simp [Exp.withCopy] at h
    | _ => exact hi

theorem withCopy_self (h : ∀ q i, v.kind = .localVar q i → q < copy) :
    v.Spares (t.withCopy v copy).1 where
  reg q i hv hq := by
    rcases withCopy_reads hq with rfl | ⟨-, hne⟩
    · exact Nat.lt_irrefl _ (h _ i hv)
    · exact hne i hv
  up i hv hi := (withCopy_readsUp hi).2 hv

theorem withCopy_right (h : v.Spares t) (hv : ∀ q i, v.kind = .localVar q i → q < copy) :
    v.Spares (t.withCopy u copy).1 where
  reg q i hk hq := by
    rcases withCopy_reads hq with rfl | ⟨hq, -⟩
    · exact Nat.lt_irrefl _ (hv _ i hk)
    · exact h.reg q i hk hq
  up i hk hi := h.up i hk (withCopy_readsUp hi).1

theorem withCopy_left (h : v.Spares t) : Exp.Spares (v.withCopy u copy).1 t := by
  rcases @withCopy_kind copy v u with he | ⟨hreg, hup⟩
  · rw [he]
    exact h
  · exact ⟨fun q i hk => absurd hk (hreg q i), fun i hk => absurd hk (hup i)⟩

theorem of_indexed (h : v.isIndexed = true) : v.Spares t := by
  unfold Exp.isIndexed at h
  split at h
  all_goals first
    | (rename_i hk; exact ⟨fun _ _ he => (nomatch hk.symm.trans he),
      fun _ he => (nomatch hk.symm.trans he)⟩)
    | cases h

end Exp.Spares

/-- The targets that have been read, the last one first, stand for their places; registers from `n`
on may have changed. -/
def Found (W : World V H) (s₀ s : State) (n : Nat) (ts : List Exp) (targets : List Var) : Prop :=
  ∃ g, Effect W s₀ s g ∧ ∀ z, s.Later z → ∀ m,
    Option.Rel (fun ls m' => m.Same n m' ∧ List.Forall₂ (Points W s m') ts ls.reverse)
      (targets.mapM (·.loc? W z m)) (g m)

theorem Found.nil : Found W s s n [] [] := ⟨some, Effect.refl, fun _ _ _ => .some ⟨.refl _ _, .nil⟩⟩

theorem Found.setLexer {ts : List Exp} {targets : List Var} {x : Lexer}
    (h : Found W s₀ s n ts targets) (hx : s.Passes x) :
    Found W s₀ (s.setLexer x) n ts targets := by
  obtain ⟨g, hg, hrel⟩ := h
  have hk : Keeps s (s.setLexer x) := (Coded.setLexer hx).toKeeps
  exact ⟨g, hg.setLexer x, fun z hz m => (hrel z (hz.after hk) m).mono fun ls m' h =>
    ⟨h.1, h.2.imp fun _ _ h => h.mono hk⟩⟩

theorem Found.atLevel {ts : List Exp} {targets : List Var} {depth deepest : Nat}
    (h : Found W s₀ s n ts targets) :
    Found W s₀ (s.atLevel depth deepest) n ts targets := by
  obtain ⟨g, hg, hrel⟩ := h
  have hk : Keeps s (s.atLevel depth deepest) := Coded.atLevel.toKeeps
  exact ⟨g, hg.andStill rfl rfl fun _ _ h => h,
    fun z hz m => (hrel z (hz.after hk) m).mono fun ls m' h =>
      ⟨h.1, h.2.imp fun _ _ h => h.mono hk⟩⟩

theorem points_mono {ts : List Exp} {ls : List (Loc V)} (h : List.Forall₂ (Points W s m) ts ls)
    (hk : Keeps s s')
    (hall : ∀ t ∈ ts, s.Target base t.kind) (hm : m.Same base m') : List.Forall₂ (Points W s' m') ts
    ls :=
  ((List.forall₂_and_left _ _).2 ⟨hall, h⟩).imp fun _ _ h => (h.2.same h.1 hm).mono hk

/-- What a variable stands for that is neither a register nor an upvalue still to be loaded. -/
theorem Denotes.here_of {P : Nat → Prop} {L : Machine V H → Option (Machine V H × Loc V)}
    (hd : Denotes W s₀ s P kind L)
    (hs : kind.isSettled = false) :
    ∃ g loc, kind.loc? W s = some loc ∧ Effect W s₀ s g ∧ ∀ m, L m = (g m).map fun m' =>
      (m', loc m') := by
  cases hd with
  | here hk hg hL => exact ⟨_, _, hk, hg, hL⟩
  | opened => cases hs

theorem Found.cons {ts : List Exp} {targets : List Var} {x : Var} (h : Found W s₀ s n ts targets)
    (hn : n ≤ s.fn.freeReg)
    (hlow : s.level ≤ n) (hall : ∀ t ∈ ts, s.Target s.fn.freeReg t.kind)
    (hx : Stands W F s (.var x) e s₂) :
    Found W s₀ s₂ n (e :: ts) (targets ++ [x]) := by
  obtain ⟨g, hg, hrel⟩ := h
  obtain ⟨-, hkeep, -, ⟨L, hd, hL⟩, hnamed⟩ := hx
  obtain ⟨g', loc, hloc, hg', hgL⟩ := hd.here_of (Exp.unsettled (hnamed x rfl))
  refine ⟨_, hg.trans hg', fun z hz m => ?_⟩
  have hlevel : z.level ≤ n := by
    rw [hz.keeps.level, hkeep.level]
    exact hlow
  rw [mapM_concat]
  refine (hrel z (hz.after hkeep) m).bind ?_
  rintro ls m' ⟨hm, hpoints⟩
  have hplace : Option.Rel _ (x.loc? W z m') (L m') := hL z hz m'
  rw [Var.loc?_same hz.base hlevel hm, hgL m'] at hplace
  refine hplace.of_map.map_left ?_
  rintro l m'' ⟨hm', rfl⟩
  refine ⟨hm.trans (hm'.mono hn), ?_⟩
  rw [List.reverse_append]
  exact .cons ⟨loc, hloc, rfl⟩ (points_mono hpoints hkeep hall hm')

theorem points_withCopy {x : V} {ts : List Exp} {ls : List (Loc V)}
    (h : List.Forall₂ (Points W s m) ts ls)
    (hall : ∀ t ∈ ts, s.Target copy t.kind) (hv : Points W s m v lv) (hx : lv.read W m = some x)
    (hm : m.Same copy m')
    (hc : m'.reg copy = x) (hk : Keeps s s') : List.Forall₂ (Points W s' m')
    (ts.map fun t => (t.withCopy v copy).1) ls :=
  List.forall₂_map_left_iff.2
    (((List.forall₂_and_left _ _).2 ⟨hall, h⟩).imp fun _ _ h =>
    (h.2.withCopy h.1 hv hx hm hc).mono hk)

theorem Found.copied {ts : List Exp} {targets : List Var} {g : Machine V H → Option (Machine V H)}
    (h : Found W s₀ s n (v :: ts) targets)
    (hn : n ≤ s.fn.freeReg) (hall : ∀ t ∈ v :: ts, s.Target s.fn.freeReg t.kind) (hk : Keeps s s')
    (hg : Effect W s s' g)
    (hcopy : ∀ m lv, Points W s m v lv → ∃ x, lv.read W m = some x ∧
    g m = some (m.setReg s.fn.freeReg x)) :
    Found W s₀ s' n (v :: ts.map fun t => (t.withCopy v s.fn.freeReg).1) targets := by
  obtain ⟨g₀, hg₀, hrel⟩ := h
  refine ⟨_, hg₀.trans hg, fun z hz m => ?_⟩
  have hm := hrel z (hz.after hk) m
  generalize targets.mapM (·.loc? W z m) = found, g₀ m = reached at hm
  cases hm with
  | none => exact .none
  | @some ls m' hm =>
    obtain ⟨hsame, hpoints⟩ := hm
    generalize hplaces : ls.reverse = places at hpoints
    cases hpoints with
    | @cons _ lv _ rest hv hrest =>
      obtain ⟨x, hx, hgm⟩ := hcopy m' lv hv
      have hcopied : m'.Same s.fn.freeReg (m'.setReg s.fn.freeReg x) := .setReg (Nat.le_refl _)
      show Option.Rel _ (some ls) (g m')
      rw [hgm]
      refine .some ⟨hsame.trans (.setReg hn), ?_⟩
      rw [hplaces]
      refine .cons ((hv.same (hall v (List.mem_cons_self ..)) hcopied).mono hk) ?_
      exact points_withCopy hrest (fun t ht => hall t (List.mem_cons_of_mem _ ht)) hv hx hcopied
        Machine.setReg_same hk

theorem State.Target.local_lt {q i : Nat} (h : s.Target base v.kind) (hk : v.kind = .localVar q i) :
    q < s.level := by
  rw [hk] at h
  exact h

theorem copyConflicts_found {targets : List Var} (h : Read F base v s) (hn : n ≤ s.fn.freeReg)
    (hall : ∀ t ∈ earlier, s.Target s.fn.freeReg t.kind)
    (hf : Found W s₀ s n (v :: earlier) targets) (hp : earlier.Pairwise Exp.Spares) :
    Via Keeps (copyConflicts v earlier) s fun ts s' => s.fn.freeReg ≤ s'.fn.freeReg ∧
      Found W s₀ s' n (v :: ts) targets ∧
      (v :: ts).Pairwise Exp.Spares := by
  have hplace := h.place
  have hroom := h.room
  have hstack := h.toVal.maxStack_le
  have hups := h.toBase.upvalues_le
  have hlow : s.level ≤ s.fn.freeReg := Nat.le_trans h.low h.base_le
  have hlocal : ∀ q i, v.kind = .localVar q i → q < s.fn.freeReg := by
    intro q i hk
    rw [hk] at hplace
    exact Nat.lt_of_lt_of_le hplace.2.1 hlow
  refine Via.next (Via.freeReg (Via.ite (fun hany => ?_) fun hnone => ?_))
  · -- a copy is made, and it is used by all that need it
    obtain ⟨p, hmem, hchanged⟩ := List.any_eq_true.1 hany
    obtain ⟨t, -, rfl⟩ := List.mem_map.1 hmem
    have hvar := withCopy_variable hchanged
    have hpairs : (v :: (earlier.map fun t => (t.withCopy v s.fn.freeReg).1)).Pairwise
        Exp.Spares := by
      refine List.pairwise_cons.2 ⟨fun t ht => ?_, ?_⟩
      · obtain ⟨u, -, rfl⟩ := List.mem_map.1 ht
        exact Exp.Spares.withCopy_self hlocal
      · rw [List.pairwise_map]
        refine hp.imp_of_mem fun {t u} ht _ hs => ?_
        refine Exp.Spares.withCopy_left (hs.withCopy_right fun q i hk => ?_)
        exact Nat.lt_of_lt_of_le ((hall t ht).local_lt hk) hlow
    have htarget : s.Target s.fn.freeReg v.kind := by
      rcases hvar with ⟨q, i, hk⟩ | ⟨i, hk⟩
      · rw [hk] at hplace ⊢
        exact hplace.2.1
      · rw [hk] at hplace ⊢
        exact hplace.2
    have hcopied : ∀ {d : Draft} {g : Machine V H → Option (Machine V H)}, Effect W s (s.emit d) g →
        (∀ m lv, Points W s m v lv → ∃ x, lv.read W m = some x ∧
          g m = some (m.setReg s.fn.freeReg x)) →
        Via Keeps (do
          reserve 1
          return (earlier.map fun t => t.withCopy v s.fn.freeReg).map (·.1)) (s.emit d) fun ts s' =>
            s.fn.freeReg ≤ s'.fn.freeReg ∧ Found W s₀ s' n (v :: ts) targets ∧
              (v :: ts).Pairwise Exp.Spares := by
      intro d g hg hcopy
      refine Via.next (Via.reserve (s := s.emit d) hstack fun k hk _ _ => Via.pure ?_)
      have hkeep : Keeps s (((s.emit d).raise k).setFree (s.fn.freeReg + 1)) :=
        (Coded.emit s d).toKeeps.trans ((Keeps.raise _ hk).trans (Keeps.setFree _ _))
      rw [List.map_map]
      exact ⟨Nat.le_succ _, hf.copied hn (List.forall_mem_cons.2 ⟨htarget, hall⟩) hkeep
        (hg.andStill rfl rfl fun _ _ h => h) hcopy, hpairs⟩
    rcases hvar with ⟨q, i, hk⟩ | ⟨i, hk⟩
    · have hq := hlocal q i hk
      rw [hk]
      refine Via.next (Via.discard
        (Via.emit (hcopied (g := fun m => some (m.setReg s.fn.freeReg (m.reg q))) ?_ ?_)))
      · refine .emitABC (by omega) (by simp) fun K w m _ hw ha hb _ _ => ?_
        simp only [Machine.step, hw, ha, hb]
      · rintro m lv ⟨loc, hloc, rfl⟩
        rw [hk] at hloc
        cases hloc
        exact ⟨_, rfl, rfl⟩
    · have hi : i < s.fn.upvalues.size := by
        rw [hk] at hplace
        exact hplace.2
      rw [hk]
      refine Via.next (Via.discard
        (Via.emit (hcopied (g := fun m => some (m.setReg s.fn.freeReg (m.up i))) ?_ ?_)))
      · refine .emitABC (by omega) (by simp) fun K w m _ hw ha hb _ _ => ?_
        simp only [Machine.step, hw, ha, hb]
      · rintro m lv ⟨loc, hloc, rfl⟩
        rw [hk] at hloc
        cases hloc
        exact ⟨_, rfl, rfl⟩
  · -- nothing is changed
    have hsame : ∀ t ∈ earlier, (t.withCopy v s.fn.freeReg).2 = false := by simpa using hnone
    have hmap : (earlier.map fun t => t.withCopy v s.fn.freeReg).map (·.1) = earlier := by
      rw [List.map_map]
      refine (List.map_congr_left fun t ht => ?_).trans (List.map_id _)
      exact withCopy_same (hsame t ht)
    refine Via.pure ?_
    rw [hmap]
    exact ⟨Nat.le_refl _, hf, List.pairwise_cons.2 ⟨fun t ht => .of_same (hsame t ht), hp⟩⟩

end Compile

end LuaChunk
