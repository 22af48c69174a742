import LuaChunk.Proofs.Parallel.Variable
import LuaChunk.Compile.Function

set_option autoImplicit false

namespace LuaChunk.Compile

open LuaChunk

variable {ρ : Renaming} {α β : Type} {L : Like β} {s s' : State} {vars vars' : Array Variable}

theorem VarsLike.push {v v' : Variable} (h : VarsLike ρ vars vars') (hv : v.Like ρ v') :
    VarsLike ρ (vars.push v) (vars'.push v') where
  size := by rw [Array.size_push, Array.size_push, h.size]
  like i w w' hw hw' := by
    rw [Array.getElem?_push] at hw hw'
    rw [h.size] at hw'
    split at hw
    · rw [if_pos ‹_›] at hw'
      cases hw
      cases hw'
      exact hv
    · rw [if_neg ‹_›] at hw'
      exact h.like i w w' hw hw'

theorem VarsLike.modify {change change' : Variable → Variable} (h : VarsLike ρ vars vars') (i : Nat)
    (hc : ∀ v v' : Variable, v.Like ρ v' → (change v).Like ρ (change' v')) :
    VarsLike ρ (vars.modify i change) (vars'.modify i change') where
  size := by rw [Array.size_modify, Array.size_modify, h.size]
  like j w w' hw hw' := by
    rw [Array.getElem?_modify] at hw hw'
    split at hw
    · obtain ⟨v, hv, rfl⟩ := Option.map_eq_some_iff.1 hw
      rw [if_pos ‹_›] at hw'
      obtain ⟨v', hv', rfl⟩ := Option.map_eq_some_iff.1 hw'
      exact hc v v' (h.like j v v' hv hv')
    · rw [if_neg ‹_›] at hw'
      exact h.like j w w' hw hw'

theorem VarsLike.shrink (h : VarsLike ρ vars vars') (n : Nat) : VarsLike ρ (vars.shrink n)
    (vars'.shrink n) where
  size := by rw [Array.size_shrink, Array.size_shrink, h.size]
  like i v v' hv hv' := by
    have hi : i < n := by
      have := (Array.getElem?_eq_some_iff.1 hv).1
      rw [Array.size_shrink] at this
      omega
    rw [getElem?_shrink hi] at hv hv'
    exact h.like i v v' hv hv'

theorem follows_declare {name name' : Option Bytes} {kind : VarKind} {declaredAt : Option Nat}
    {control : Bool}
    (hn : ρ.Names declaredAt name name') (hk : ρ.Is declaredAt → kind.isGlobal = false) :
    Follows ρ .same (declare name kind declaredAt control)
      (declare name' kind declaredAt control) := by
  have hpush : Follows ρ .same
      (modify fun s => { s with vars := s.vars.push { kind, name, declaredAt, control } } : M Unit)
      (modify fun s => { s with
        vars := s.vars.push { kind, name := name', declaredAt, control } }) :=
    .modify (fun _ => .of_eq rfl rfl) (fun _ => .of_eq rfl rfl) fun _ _ h =>
      { h with vars := h.vars.push ⟨rfl, rfl, rfl, rfl, rfl, hn, hk⟩ }
  refine .seq hpush fun _ => ?_
  refine .get (fun s => (s.vars.size, s.fn.firstVar)) (K := .same) (fun _ s s' h => ?_)
    fun _ s s' h => ?_
  · exact Prod.ext h.vars.size h.firstVar
  · obtain ⟨hsize, hfirst⟩ : s'.vars.size = s.vars.size ∧ s'.fn.firstVar = s.fn.firstVar :=
      Prod.mk.inj h
    rw [hsize, hfirst]
    infer_instance

theorem follows_declareKept (name : Option Bytes) (kind : VarKind)
    (h : ρ.declaration.isSome → name ≠ some ρ.new) :
    Follows ρ .same (declare name kind) (declare name kind) :=
  follows_declare ⟨fun hi => (Renaming.not_is_none hi).elim, fun _ => ⟨rfl, h⟩⟩ fun hi =>
    (Renaming.not_is_none hi).elim

/-- The hidden variables of the parser. None of them has a name that a variable may be given. -/
theorem follows_declareHidden {name : String} (h : name = "self" ∨ name = loopStateName) :
    Follows ρ .same (declareHidden name) (declareHidden name) := by
  have hfresh : ∀ ρ : Renaming, ρ.declaration.isSome → some (utf8 name) ≠ some ρ.new := by
    intro ρ hd he
    obtain ⟨-, -, hself, hstate⟩ := ρ.fresh hd
    rcases h with rfl | rfl
    · exact hself (Option.some.inj he).symm
    · exact hstate (Option.some.inj he).symm
  unfold declareHidden
  refine .seq inferInstance fun _ => ?_
  have := follows_declareKept _ .regular (hfresh ρ)
  infer_instance

theorem follows_modifyVariable {change : Variable → Variable} (i : Nat)
    (hc : ∀ (ρ : Renaming) (v v' : Variable), v.Like ρ v' → (change v).Like ρ (change v')) :
    Follows ρ .same (modifyVariable i change) (modifyVariable i change) := by
  unfold modifyVariable
  refine .get (·.vars.size) (K := .same) (fun _ _ _ h => h.vars.size) fun ρ s s' h => ?_
  rw [show s'.vars.size = s.vars.size from h]
  have hmodify : Follows ρ .same
      (modify fun s => { s with vars := s.vars.modify i change } : M Unit)
      (modify fun s => { s with vars := s.vars.modify i change }) :=
    .modify (fun _ => .of_eq rfl rfl) (fun _ => .of_eq rfl rfl) fun _ _ h =>
      { h with vars := h.vars.modify i (hc ρ) }
  infer_instance

instance follows_localsSize : Follows ρ .same (ofFn (·.locals.size)) (ofFn (·.locals.size)) :=
  .ofFn fun _ => Array.size_replicate ..

theorem follows_registerLocal {v v' : Variable} (h : v.Like ρ v') (reg : Nat) :
    Follows ρ .same (registerLocal v reg) (registerLocal v' reg) := by
  have hpush : ∀ x x' : Builder → Span,
      Follows ρ .same (modifyFn fun f => { f with locals := f.locals.push (x f) })
      (modifyFn fun f => { f with locals := f.locals.push (x' f) }) := fun x x' =>
    .modifyFn (v := fun f => { f with
      locals := Array.replicate (f.locals.size + 1) ⟨none, .regular, 0, 0, 0, none⟩ })
      (fun f => by simp [Builder.erase]) (fun f => by simp [Builder.erase]) fun _ => rfl
  have hname := isSome_of_like h
  unfold registerLocal
  refine .seq inferInstance fun place => .seq (hpush _ _) fun _ => ?_
  cases hn : v.name <;> cases hn' : v'.name <;> rw [hn, hn'] at hname <;>
    first | (cases hname; done) | infer_instance

instance follows_modifyLocal (i : Nat) (change change' : Span → Span) :
    Follows ρ .same (modifyLocal i change) (modifyLocal i change') := by
  have hmodify : Follows ρ .same (modifyFn fun f => { f with locals := f.locals.modify i change })
      (modifyFn fun f => { f with locals := f.locals.modify i change' }) :=
    .modifyFn (v := id) (fun f => by simp [Builder.erase]) (fun f => by simp [Builder.erase])
      fun _ => rfl
  unfold modifyLocal
  infer_instance

instance follows_addActive (n : Nat) :
    Follows ρ .same (modifyFn fun f => { f with active := f.active + n })
    (modifyFn fun f => { f with active := f.active + n }) :=
  .modifyFn (v := fun f => { f with active := f.active + n }) (fun _ => rfl) (fun _ => rfl) fun _ =>
    rfl

instance follows_endActive : Follows ρ .same (modifyFn fun f => { f with active := f.active - 1 })
    (modifyFn fun f => { f with active := f.active - 1 }) :=
  .modifyFn (v := fun f => { f with active := f.active - 1 }) (fun _ => rfl) (fun _ => rfl) fun _ =>
    rfl

instance follows_activateFrom (n level : Nat) : Follows ρ .same (activateFrom n level)
    (activateFrom n level) := by
  induction n generalizing ρ level with
  | zero => exact .pureSame ()
  | succ n ih =>
    unfold activateFrom
    refine .get (fun s => s.fn.firstVar + s.fn.active) (K := .same) (fun _ s s' h => ?_)
      fun ρ s s' h => ?_
    · exact congrArg₂ (· + ·) h.firstVar h.active
    rw [show s'.fn.firstVar + s'.fn.active = s.fn.firstVar + s.fn.active from h]
    refine .seq inferInstance fun _ => .bind (follows_variableAt _) fun ρ v v' h => ?_
    refine .seq (follows_registerLocal h level) fun debug => ?_
    refine .seq (follows_modifyVariable _ fun ρ v v' h => { h with reg := rfl, debug := rfl })
      fun _ => ?_
    split <;> infer_instance

instance follows_activate (n : Nat) : Follows ρ .same (activate n) (activate n) := by
  unfold activate
  infer_instance

instance follows_activateUnplaced (n : Nat) : Follows ρ .same (activateUnplaced n)
    (activateUnplaced n) :=
  follows_addActive n

instance follows_endScopes (n : Nat) : Follows ρ .same (endScopes n) (endScopes n) := by
  induction n generalizing ρ with
  | zero => exact .pureSame ()
  | succ n ih =>
    unfold endScopes
    refine .seq inferInstance fun _ => .get (·.fn.active) (K := .same) (fun _ _ _ h => h.active)
      fun ρ s s' h => ?_
    rw [show s'.fn.active = s.fn.active from h]
    refine .bind (follows_ownVariable _) fun ρ v v' h => ?_
    rw [h.kind, h.debug]
    split <;> infer_instance

instance follows_removeVariables (level : Nat) : Follows ρ .same (removeVariables level)
    (removeVariables level) := by
  unfold removeVariables
  refine .get (·.fn.active) (K := .same) (fun _ _ _ h => h.active) fun ρ s s' h => ?_
  rw [show s'.fn.active = s.fn.active from h]
  refine .seq inferInstance fun _ => .get (·.vars.size) (K := .same) (fun _ _ _ h => h.vars.size)
    fun ρ s s' h => ?_
  rw [show s'.vars.size = s.vars.size from h]
  have hshrink : ∀ n, Follows ρ .same
      (modify fun s => { s with vars := s.vars.shrink (s.vars.size - n) } : M Unit)
      (modify fun s => { s with vars := s.vars.shrink (s.vars.size - n) }) := fun n =>
    .modify (fun _ => .of_eq rfl rfl) (fun _ => .of_eq rfl rfl) fun _ _ h =>
      { h with vars := h.vars.size ▸ h.vars.shrink _ }
  dsimp only
  split <;> infer_instance

def Like.labels : Like (List Label) := .by_ (List.map Label.erase)

theorem findLabel?_erase (labels : Array Label) (start : Nat) (name : Bytes) :
    findLabel? (labels.map Label.erase) start name = (findLabel? labels start name).map
      Label.erase := by
  unfold findLabel?
  rw [Array.size_map, ← Array.map_extract, Array.find?_map]
  rfl

theorem Twin.findLabel? (h : Twin ρ s s') (start : Nat) (name : Bytes) :
    (Compile.findLabel? s'.labels start name).map Label.erase =
      (Compile.findLabel? s.labels start name).map Label.erase := by
  rw [← findLabel?_erase, h.labels, findLabel?_erase]

theorem Twin.labels_size (h : Twin ρ s s') : s'.labels.size = s.labels.size := by
  have := congrArg Array.size h.labels
  rwa [Array.size_map, Array.size_map] at this

theorem Twin.gotos_size (h : Twin ρ s s') : s'.gotos.size = s.gotos.size := by
  have := congrArg Array.size h.gotos
  rwa [Array.size_map, Array.size_map] at this

instance follows_addGoto (name : Bytes) (line line' : Nat) : Follows ρ .same (addGoto name line)
    (addGoto name line') := by
  have hpush : ∀ (ρ : Renaming) (pc : Nat), Follows ρ .same
      (modify fun s => { s with gotos := s.gotos.push ⟨name, pc, line, s.fn.active, false⟩ } :
      M Unit)
      (modify fun s => { s with gotos := s.gotos.push ⟨name, pc, line', s.fn.active, false⟩ }) :=
        fun ρ pc =>
    .modify (fun _ => .of_eq rfl rfl) (fun _ => .of_eq rfl rfl) fun s s' h => { h with
      gotos := by
        simp only [Array.map_push, h.gotos, Label.erase, h.active] }
  unfold addGoto
  infer_instance

instance follows_blocks : Follows ρ .same (ofFn (·.blocks)) (ofFn (·.blocks)) := .ofFn fun _ => rfl

instance follows_setBlocks (blocks : List Block) :
    Follows ρ .same (modifyFn fun f => { f with blocks })
    (modifyFn fun f => { f with blocks }) :=
  .modifyFn (v := fun f => { f with blocks }) (fun _ => rfl) (fun _ => rfl) fun _ => rfl

instance follows_currentBlock : Follows ρ .same currentBlock currentBlock := by
  unfold currentBlock
  refine .seq inferInstance fun blocks => ?_
  cases blocks <;> infer_instance

instance follows_addLabel (name : Bytes) (line line' : Nat) (isLast : Bool) :
    Follows ρ .same (addLabel name line isLast) (addLabel name line' isLast) := by
  have hpush : ∀ (ρ : Renaming) (pc level : Nat), Follows ρ .same
      (modify fun s => { s with labels := s.labels.push ⟨name, pc, line, level, false⟩ } : M Unit)
      (modify fun s => { s with labels := s.labels.push ⟨name, pc, line', level, false⟩ }) :=
        fun ρ pc level =>
    .modify (fun _ => .of_eq rfl rfl) (fun _ => .of_eq rfl rfl) fun s s' h => { h with
      labels := by simp only [Array.map_push, h.labels, Label.erase] }
  unfold addLabel
  refine .seq inferInstance fun pc => ?_
  dsimp only
  split <;> infer_instance

theorem label_eq {l l' : Label} (h : l'.erase = l.erase) :
    l'.name = l.name ∧ l'.pc = l.pc ∧ l'.level = l.level ∧ l'.close = l.close := by
  simpa only [Label.erase, Label.mk.injEq, true_and] using h

theorem follows_jumpIntoScope {K : Like α} {g g' : Label} (hg : g'.erase = g.erase) :
    Follows ρ K (jumpIntoScope g) (jumpIntoScope g') := by
  unfold jumpIntoScope
  rw [(label_eq hg).2.2.1]
  exact .bind (follows_ownVariable _) fun _ _ _ _ => .semanticError _ _

instance follows_spliceClose (pc level : Nat) : Follows ρ .same (spliceClose pc level)
    (spliceClose pc level) := by
  unfold spliceClose
  infer_instance

theorem follows_resolveGoto {g g' l l' : Label} (hg : g'.erase = g.erase) (hl : l'.erase = l.erase)
    (captured : Bool) :
    Follows ρ .same (resolveGoto g l captured) (resolveGoto g' l' captured) := by
  obtain ⟨-, hpc, hlevel, hclose⟩ := label_eq hg
  obtain ⟨-, hpc', hlevel', -⟩ := label_eq hl
  have hjump := follows_jumpIntoScope (ρ := ρ) (K := (.same : Like Unit)) hg
  unfold resolveGoto
  rw [hpc, hlevel, hclose, hpc', hlevel']
  dsimp only
  split <;> split <;> infer_instance

theorem erase_leaving {g g' : Label} (h : g'.erase = g.erase) (b : Block) (outside inside : Nat) :
    (leaving b g' outside inside).erase = (leaving b g outside inside).erase := by
  obtain ⟨hname, hpc, -, hclose⟩ := label_eq h
  simp only [leaving, Label.erase, hname, hpc, hclose]

theorem follows_resolveGotos (b : Block) {gs gs' : List Label} (h : Like.labels.rel ρ gs gs') :
    Follows ρ .labels (resolveGotos b gs) (resolveGotos b gs') := by
  induction gs generalizing ρ gs' with
  | nil =>
    obtain rfl := List.map_eq_nil_iff.1 h
    exact .pure rfl
  | cons g gs ih =>
    obtain ⟨g', gs', rfl, hg, hgs⟩ :=
      List.map_eq_cons_iff.1 (show gs'.map Label.erase = g.erase :: gs.map Label.erase from h)
    unfold resolveGotos
    refine .get (fun s => findLabel? s.labels b.firstLabel g.name)
      (K := .by_ (Option.map Label.erase))
      (fun _ s s' h => h.findLabel? _ _) fun ρ s s' h => ?_
    replace h : (findLabel? s'.labels b.firstLabel g.name).map Label.erase
      = (findLabel? s.labels b.firstLabel g.name).map Label.erase := h
    obtain ⟨hname, -, hlevel, -⟩ := label_eq hg
    rw [hname, hlevel]
    cases hf : findLabel? s.labels b.firstLabel g.name <;>
      cases hf' : findLabel? s'.labels b.firstLabel g.name <;>
      rw [hf, hf'] at h
    case some.some l l' =>
      exact .seq (follows_resolveGoto hg (Option.some.inj h) _) fun _ => ih hgs
    case none.none =>
      refine .seq inferInstance fun outside => .seq inferInstance fun inside => ?_
      refine .bind (ih hgs) fun ρ left left' hleft => .pure ?_
      show List.map _ _ = List.map _ _
      rw [List.map_cons, List.map_cons, erase_leaving hg]
      exact congrArg _ hleft
    all_goals cases h

theorem map_shrink {γ : Type} (xs : Array α) (f : α → γ) (n : Nat) :
    (xs.shrink n).map f = (xs.map f).shrink n := by
  rw [Array.shrink_eq_take, Array.shrink_eq_take, Array.take_eq_extract, Array.take_eq_extract,
    Array.map_extract]

theorem follows_modifyGotos (u u' : Array Label → Array Label)
    (h : ∀ gotos gotos' : Array Label, gotos'.map Label.erase = gotos.map Label.erase →
      (u' gotos').map Label.erase = (u gotos).map Label.erase) :
    Follows ρ .same (modify fun s => { s with gotos := u s.gotos } : M Unit)
      (modify fun s => { s with gotos := u' s.gotos }) :=
  .modify (fun _ => .of_eq rfl rfl) (fun _ => .of_eq rfl rfl) fun _ _ ht =>
    { ht with gotos := h _ _ ht.gotos }

instance follows_solveGotos (b : Block) : Follows ρ .same (solveGotos b) (solveGotos b) := by
  have hwaiting : Follows ρ .labels
      (modifyGet fun s => ((s.gotos.extract b.firstGoto s.gotos.size).toList, s) : M (List Label))
      (modifyGet fun s => ((s.gotos.extract b.firstGoto s.gotos.size).toList, s)) := by
    refine ⟨.refl, .refl, fun s s' h _ _ => .ok ?_ h⟩
    show List.map _ _ = List.map _ _
    rw [← Array.toList_map, ← Array.toList_map, Array.map_extract, Array.map_extract, h.gotos,
      h.gotos_size]
  have hforget : ∀ ρ : Renaming,
      Follows ρ .same (modify fun s => { s with gotos := s.gotos.shrink b.firstGoto } : M Unit)
      (modify fun s => { s with gotos := s.gotos.shrink b.firstGoto }) := fun ρ =>
    follows_modifyGotos (·.shrink b.firstGoto) (·.shrink b.firstGoto) fun gotos gotos' h => by
      rw [map_shrink, map_shrink, h]
  have hkeep : ∀ (ρ : Renaming) (left left' : List Label), Like.labels.rel ρ left left' →
      Follows ρ .same (modify fun s => { s with gotos := s.gotos ++ left.toArray } : M Unit)
        (modify fun s => { s with gotos := s.gotos ++ left'.toArray }) := by
    intro ρ left left' hleft
    refine follows_modifyGotos (· ++ left.toArray) (· ++ left'.toArray) fun gotos gotos' h => ?_
    have harray : left'.toArray.map Label.erase = left.toArray.map Label.erase := by
      rw [List.map_toArray, List.map_toArray]
      exact congrArg List.toArray hleft
    rw [Array.map_append, Array.map_append, h, harray]
  have hlabels : ∀ ρ : Renaming,
      Follows ρ .same (modify fun s => { s with labels := s.labels.shrink b.firstLabel } : M Unit)
      (modify fun s => { s with labels := s.labels.shrink b.firstLabel }) := by
    intro ρ
    refine .modify (fun _ => .of_eq rfl rfl) (fun _ => .of_eq rfl rfl) fun s s' h =>
      { h with labels := ?_ }
    rw [map_shrink, map_shrink, h.labels]
  unfold solveGotos
  refine .bind hwaiting fun ρ waiting waiting' hw => .seq (hforget ρ) fun _ => ?_
  refine .bind (follows_resolveGotos b hw) fun ρ left left' hleft =>
    .seq (hkeep ρ _ _ hleft) fun _ => ?_
  refine .get (·.labels.size) (K := .same) (fun _ _ _ h => h.labels_size) fun ρ s s' h => ?_
  rw [show s'.labels.size = s.labels.size from h]
  have := hlabels ρ
  dsimp only
  split <;> infer_instance

instance follows_enterBlock (loop : Loop) : Follows ρ .same (enterBlock loop)
    (enterBlock loop) := by
  have hpush : ∀ (ρ : Renaming) (b : Block),
      Follows ρ .same (modifyFn fun f => { f with blocks := b :: f.blocks })
      (modifyFn fun f => { f with blocks := b :: f.blocks }) := fun ρ b =>
    .modifyFn (v := fun f => { f with blocks := b :: f.blocks }) (fun _ => rfl) (fun _ => rfl)
      fun _ => rfl
  unfold enterBlock
  refine .get (fun s => (s.labels.size, s.gotos.size, s.fn.active, s.fn.blocks)) (K := .same)
    (fun _ s s' h => ?_)
    fun ρ s s' h => ?_
  · refine Prod.ext h.labels_size (Prod.ext h.gotos_size (Prod.ext h.active ?_))
    exact h.same (·.blocks) fun _ => rfl
  · replace h : (s'.labels.size, s'.gotos.size, s'.fn.active, s'.fn.blocks)
      = (s.labels.size, s.gotos.size, s.fn.active, s.fn.blocks) := h
    simp only [Prod.mk.injEq] at h
    obtain ⟨hlabels, hgotos, hactive, hblocks⟩ := h
    dsimp only
    rw [hlabels, hgotos, hactive, hblocks]
    infer_instance

theorem follows_unlessWaiting {m m' : M β} (i : Nat) (hm : ∀ ρ, Follows ρ L m m') : Follows ρ L
    (do
      match (← get).gotos[i]? with
      | some g =>
        let r : Unit ← noLabel g
        (fun _ => m) r
      | none => m)
    (do
      match (← get).gotos[i]? with
      | some g =>
        let r : Unit ← noLabel g
        (fun _ => m') r
      | none => m') := by
  refine .get (fun s => (s.gotos[i]?).isSome) (K := .same) (fun _ s s' h => ?_) fun ρ s s' h => ?_
  · have := congrArg (fun gotos : Array Label => (gotos[i]?).isSome) h.gotos
    show (s'.gotos[i]?).isSome = (s.gotos[i]?).isSome
    simpa using this
  · replace h : (s'.gotos[i]?).isSome = (s.gotos[i]?).isSome := h
    have hm := hm ρ
    cases hg : s.gotos[i]? <;> cases hg' : s'.gotos[i]? <;> rw [hg, hg'] at h
    case none.none => exact hm
    case some.some g g' => exact .seq (.semanticError _ _) fun _ => hm
    all_goals cases h

instance follows_leaveBlock : Follows ρ .same leaveBlock leaveBlock := by
  unfold leaveBlock
  refine .get (·.fn.blocks) (K := .same) (fun _ s s' h => h.same (·.blocks) fun _ => rfl)
    fun ρ s s' h => ?_
  rw [show s'.fn.blocks = s.fn.blocks from h]
  cases s.fn.blocks with
  | nil => infer_instance
  | cons b rest =>
    dsimp only
    repeat' first
      | infer_instance
      | refine follows_unlessWaiting _ fun ρ => ?_
      | refine .seq inferInstance fun _ => ?_
      | split

instance follows_markBroken : Follows ρ .same markBroken markBroken := by
  unfold markBroken
  refine .seq inferInstance fun blocks => ?_
  cases modifyFirst? _ _ blocks <;> infer_instance

theorem bare_prototype {f f' : Builder} (h : f'.erase = f.erase) (source source' : Bytes) :
    (f'.prototype source').bare = (f.prototype source).bare := by
  have hups : ∀ f : Builder, f.upvalues.map (fun u => { u with name := none })
      = f.erase.upvalues.map (fun u => { u with name := none }) := by
    intro f
    show _ = (f.upvalues.map Upvalue.erase).map _
    rw [Array.map_map]
    rfl
  have hnested : ∀ f : Builder, Prototype.bareAll f.nested.toList = f.erase.nested.toList := by
    intro f
    show _ = (f.nested.map Prototype.bare).toList
    rw [Prototype.bareAll_eq_map, Array.toList_map]
  have hbare : ∀ (f : Builder) (source : Bytes), (f.prototype source).bare =
      { numParams := f.erase.numParams, flag := if f.erase.isVararg then flagVararg else 0
        maxStackSize := f.erase.maxStack
        code := f.erase.code, constants := f.erase.pool.values, nested := f.erase.nested.toList
        upvalues := f.erase.upvalues.map fun u => { u with name := none } } := by
    intro f source
    unfold Builder.prototype Prototype.bare
    rw [hups, hnested]
    rfl
  rw [hbare, hbare, h]

instance follows_openFunction : Follows ρ .same openFunction openFunction := by
  unfold openFunction
  refine .get (fun _ => ()) (K := .any) (fun _ _ _ _ => trivial) fun ρ s s' _ => ?_
  infer_instance

instance follows_nestedSize : Follows ρ .same (ofFn (·.nested.size)) (ofFn (·.nested.size)) :=
  .ofFn fun _ => Array.size_map ..

instance follows_startNested (line line' : Nat) : Follows ρ .same (startNested line)
    (startNested line') := by
  have hstart : ∀ (ρ : Renaming) (id id' : Nat), Follows ρ .same
      (modify fun s => { s with
        nextId := id + 1, fn := .start id line s.vars.size s.labels.size,
        outer := s.fn :: s.outer } : M Unit)
      (modify fun s => { s with
        nextId := id' + 1, fn := .start id' line' s.vars.size s.labels.size,
        outer := s.fn :: s.outer }) := by
    intro ρ id id'
    refine .modify (fun _ => .of_eq rfl rfl) (fun _ => .of_eq rfl rfl) fun s s' h => { h with
      fn := ?_, outer := ?_, distinct := ?_ }
    · rw [h.vars.size, h.labels_size]
      rfl
    · rw [List.map_cons, List.map_cons, h.fn, h.outer]
    · intro f hf
      rcases List.mem_cons.1 hf with rfl | hf
      · intro i j u w hu
        simp [Builder.start] at hu
      · exact h.distinct f hf
  unfold startNested
  dsimp only
  refine .seq inferInstance fun n => ?_
  have hopen : Follows ρ .same
      (do
        let id := (← get).nextId
        stored (.nested · id)
        modify fun s => { s with
          nextId := id + 1, fn := .start id line s.vars.size s.labels.size,
          outer := s.fn :: s.outer }
        openFunction)
      (do
        let id := (← get).nextId
        stored (.nested · id)
        modify fun s => { s with
          nextId := id + 1, fn := .start id line' s.vars.size s.labels.size,
          outer := s.fn :: s.outer }
        openFunction) :=
    .get (·.nextId) (K := .any) (fun _ _ _ _ => trivial) fun ρ s s' _ => by
      have := hstart ρ s.nextId s'.nextId
      infer_instance
  split
  · exact .seq inferInstance fun _ => hopen
  · exact hopen

instance follows_marks : Follows ρ .same
    (ofFn fun f => ReturnMarks.mk f.needClose f.isVararg f.numParams)
    (ofFn fun f => ReturnMarks.mk f.needClose f.isVararg f.numParams) := .ofFn fun _ => rfl

instance follows_closeFunction : Follows ρ .same closeFunction closeFunction := by
  have hclosing : ∀ ρ : Renaming, Follows ρ .same
      (modify fun s => { s with
        closings :=
          s.closings.push ⟨s.fn.code, s.fn.aims, s.fn.locals, s.fn.scopes, s.fn.meant⟩ } : M Unit)
      (modify fun s => { s with
        closings :=
          s.closings.push ⟨s.fn.code, s.fn.aims, s.fn.locals, s.fn.scopes, s.fn.meant⟩
            }) := fun ρ =>
    .modify (fun _ => .of_eq rfl rfl) (fun _ => .of_eq rfl rfl) fun _ _ h => { h with }
  unfold closeFunction
  infer_instance

theorem attach_eq (s : State) : attach s = (match s.outer with
    | [] => .error (.broken .indexInRange) s
    | b :: rest =>
      .ok () { s with
        fn := { b with nested := b.nested.push (s.fn.prototype s.lexer.source) },
        outer := rest }) := by
  show (match s.outer with
    | [] => broken .indexInRange
    | b :: rest => _ : M Unit) s = _
  cases s.outer <;> rfl

theorem evolving_attach : Evolving attach := by
  intro s
  rw [attach_eq]
  cases s.outer with
  | nil => exact .refl s
  | cons b rest => exact .of_eq rfl rfl

instance follows_attach : Follows ρ .same attach attach := by
  refine ⟨evolving_attach, evolving_attach, fun s s' h => ?_⟩
  rw [attach_eq, attach_eq]
  cases ho : s.outer with
  | nil => exact fun hl => (hl trivial).elim
  | cons b rest =>
    cases ho' : s'.outer with
    | nil => exact fun _ hl' => (hl' trivial).elim
    | cons b' rest' =>
      have hin := h.enclosing ho ho'
      refine fun _ _ => .ok rfl (hin.setFn ?_ hin.distinct_fn)
      have hpush : ∀ (b : Builder) (p : Prototype), { b with nested := b.nested.push p }.erase
          = { b.erase with nested := b.erase.nested.push p.bare } := by
        intro b p
        simp only [Builder.erase, Array.map_push]
      rw [hpush, hpush, bare_prototype h.fn s.lexer.source s'.lexer.source,
        show b'.erase = b.erase from hin.fn]

theorem endNested_eq : endNested = (do closeFunction; attach) := rfl

instance follows_endNested : Follows ρ .same endNested endNested := by
  rw [endNested_eq]
  infer_instance

instance follows_setVararg (numParams : Nat) : Follows ρ .same (setVararg numParams)
    (setVararg numParams) := by
  have hset : Follows ρ .same (modifyFn fun f => { f with isVararg := true })
      (modifyFn fun f => { f with isVararg := true }) :=
    .modifyFn (v := fun f => { f with isVararg := true }) (fun _ => rfl) (fun _ => rfl) fun _ => rfl
  unfold setVararg
  infer_instance

instance follows_emitClosure : Follows ρ .same emitClosure emitClosure := by
  unfold emitClosure
  infer_instance

end LuaChunk.Compile
