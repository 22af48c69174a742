import LuaChunk.Proofs.Hash.Serialize
import LuaChunk.Proofs.Parallel.Renaming

/-!
Two compilations side by side. Their sources have the same tokens but for a renaming, so they go
through states that differ only in lines and names, and end alike.

Which names are renamed is known only from what the first compilation finds out. So the two are
compared under the assumption that the renaming is consistent with it at the end: a run that is not,
that takes a name for a wrong declaration, or that breaks an assertion is lost, and says nothing.
-/

set_option autoImplicit false

namespace LuaChunk

namespace Prototype

mutual

/-- Removes everything that is not executed, from the function and from all functions nested
in it. -/
def bare : Prototype → Prototype
  | { numParams, flag, maxStackSize, code, constants, nested, upvalues, .. } =>
    { numParams, flag, maxStackSize, code, constants
      nested := bareAll nested
      upvalues := upvalues.map fun u => { u with name := none } }

def bareAll : List Prototype → List Prototype
  | [] => []
  | p :: rest => bare p :: bareAll rest

end

theorem bareAll_eq_map (ps : List Prototype) : bareAll ps = ps.map bare := by
  induction ps with
  | nil => rfl
  | cons p rest ih => rw [bareAll, ih, List.map_cons]

mutual

theorem program_bare : (p : Prototype) → p.bare.program = p.program
  | { nested, upvalues, .. } => by
    have hu : (upvalues.map fun u => { u with name := none }).toList.map (Upvalue.seen id)
        = upvalues.toList.map (Upvalue.seen id) := by
      rw [Array.toList_map, List.map_map]
      rfl
    simp only [program, bare, seen, hu, programs_bareAll nested]

theorem programs_bareAll : (ps : List Prototype) → seenAll id (bareAll ps) = seenAll id ps
  | [] => rfl
  | p :: rest => by
    have h := program_bare p
    unfold program at h
    simp only [bareAll, seenAll, h, programs_bareAll rest]

end

theorem program_of_bare {p q : Prototype} (h : q.bare = p.bare) : q.program = p.program := by
  rw [← program_bare, h, program_bare]

end Prototype

namespace Compile

/-- The upvalue without its name, unless that is the environment's. -/
def Upvalue.erase (u : Upvalue) : Upvalue :=
  { u with name := u.name.map fun s => if s = envName then s else [] }

def Builder.erase (f : Builder) : Builder :=
  { f with
    id := 0
    lineDefined := 0
    lastLineDefined := 0
    lines := { previous := 0 }
    upvalues := f.upvalues.map Upvalue.erase
    locals := Array.replicate f.locals.size ⟨none, .regular, 0, 0, 0, none⟩
    scopes := #[]
    nested := f.nested.map Prototype.bare }

def Label.erase (l : Label) : Label := { l with line := 0 }

/-- A declaration in both runs. The renamed variable is a local one. -/
structure Variable.Like (ρ : Renaming) (v v' : Variable) : Prop where
  kind : v'.kind = v.kind
  reg : v'.reg = v.reg
  debug : v'.debug = v.debug
  value : v'.value = v.value
  declaredAt : v'.declaredAt = v.declaredAt
  names : ρ.Names v.declaredAt v.name v'.name
  isLocal : ρ.Is v.declaredAt → v.kind.isGlobal = false

theorem Variable.Like.of_none (v : Variable) : v.Like .none v :=
  ⟨rfl, rfl, rfl, rfl, rfl, .of_none _, fun h => (Renaming.none_not_is h).elim⟩

structure VarsLike (ρ : Renaming) (vars vars' : Array Variable) : Prop where
  size : vars'.size = vars.size
  like : ∀ (i : Nat) (v v' : Variable), vars[i]? = some v → vars'[i]? = some v' → v.Like ρ v'

def Builder.Distinct (f : Builder) : Prop :=
  ∀ (i j : Nat) (u w : Upvalue), f.upvalues[i]? = some u → f.upvalues[j]? = some w →
    u.inStack = w.inStack → u.index = w.index → i = j

structure Twin (ρ : Renaming) (s s' : State) : Prop where
  lexer : Lexer.Twin ρ s.lexer s'.lexer
  fn : s'.fn.erase = s.fn.erase
  outer : s'.outer.map Builder.erase = s.outer.map Builder.erase
  vars : VarsLike ρ s.vars s'.vars
  labels : s'.labels.map Label.erase = s.labels.map Label.erase
  gotos : s'.gotos.map Label.erase = s.gotos.map Label.erase
  items : s'.maxItems = s.maxItems
  distinct : ∀ f ∈ s.fn :: s.outer, f.Distinct

theorem VarsLike.get {ρ : Renaming} {vars vars' : Array Variable} (h : VarsLike ρ vars vars')
    (i : Nat) :
    vars[i]? = none ∧ vars'[i]? = none ∨ ∃ v v', vars[i]? = some v ∧ vars'[i]? = some v' ∧
      v.Like ρ v' := by
  by_cases hi : i < vars.size
  · have hv := Array.getElem?_eq_getElem hi
    have hv' := Array.getElem?_eq_getElem (show i < vars'.size by rw [h.size]; exact hi)
    exact .inr ⟨_, _, hv, hv', h.like i _ _ hv hv'⟩
  · refine .inl ⟨Array.getElem?_eq_none (Nat.le_of_not_lt hi), Array.getElem?_eq_none ?_⟩
    rw [h.size]
    exact Nat.le_of_not_lt hi

namespace Twin

variable {ρ : Renaming} {s s' : State}

theorem same {α : Type} (h : Twin ρ s s') (g : Builder → α) (hg : ∀ f, g f.erase = g f) :
    g s'.fn = g s.fn := by
  rw [← hg s'.fn, ← hg s.fn, h.fn]

theorem firstVar (h : Twin ρ s s') : s'.fn.firstVar = s.fn.firstVar :=
  h.same (·.firstVar) fun _ => rfl

theorem active (h : Twin ρ s s') : s'.fn.active = s.fn.active := h.same (·.active) fun _ => rfl

theorem code (h : Twin ρ s s') : s'.fn.code = s.fn.code := h.same (·.code) fun _ => rfl

theorem setFn {f f' : Builder} (h : Twin ρ s s') (hf : f'.erase = f.erase) (hd : f.Distinct) :
    Twin ρ { s with fn := f } { s' with fn := f' } :=
  { h with
    fn := hf
    distinct := by
      intro g hg
      rcases List.mem_cons.1 hg with rfl | hg
      · exact hd
      · exact h.distinct g (List.mem_cons_of_mem _ hg) }

theorem distinct_fn (h : Twin ρ s s') : s.fn.Distinct := h.distinct _ (List.mem_cons_self ..)

end Twin

/-- What one run keeps: a wrong turn that was taken, and what its names stand for. -/
structure Evolves (s t : State) : Prop where
  strayed : s.strayed = true → t.strayed = true
  lexer : s.lexer.Extends t.lexer

namespace Evolves

variable {s t u : State}

theorem refl (s : State) : Evolves s s := ⟨id, .refl _⟩

theorem trans (h : Evolves s t) (h' : Evolves t u) : Evolves s u :=
  ⟨fun hs => h'.strayed (h.strayed hs), h.lexer.trans h'.lexer⟩

theorem of_eq (hs : t.strayed = s.strayed) (hl : t.lexer = s.lexer) : Evolves s t :=
  ⟨fun h => hs.trans h, hl ▸ .refl _⟩

end Evolves

/-- The state after an action, whether it failed or not. -/
def final {α : Type} : EStateM.Result Failure State α → State
  | .ok _ t => t
  | .error _ t => t

def Astray (ρ : Renaming) (s : State) : Prop := s.strayed = true ∨ ¬ ρ.Consistent s.lexer.bindings

theorem Astray.evolve {ρ : Renaming} {s t : State} (h : Astray ρ s) (he : Evolves s t) :
    Astray ρ t :=
  h.imp he.strayed fun hc hd => hc fun e hm => hd e (he.lexer.bindings e hm)

def Lost (ρ : Renaming) {α : Type} : EStateM.Result Failure State α → Prop
  | .error (.broken _) _ => True
  | r => Astray ρ (final r)

/-- How the results of two runs are alike. A result is like itself if nothing is renamed. -/
structure Like (α : Type) where
  rel : Renaming → α → α → Prop
  refl : ∀ a, rel .none a a

namespace Like

variable {α β : Type}

def same : Like α := ⟨fun _ a a' => a' = a, fun _ => rfl⟩

def any : Like α := ⟨fun _ _ _ => True, fun _ => trivial⟩

def by_ (f : α → β) : Like α := ⟨fun _ a a' => f a' = f a, fun _ => rfl⟩

end Like

/-- Both runs end with results that are alike, or with errors of one kind. -/
inductive Both (ρ : Renaming) {α : Type} (L : Like α) :
    (r r' : EStateM.Result Failure State α) → Prop
  | ok {a a' : α} {t t' : State} (ha : L.rel ρ a a') (ht : Twin ρ t t') : Both ρ L (.ok a t)
    (.ok a' t')
  | error {e e' : CompileError} {t t' : State} (hk : e'.kind = e.kind) :
    Both ρ L (.error (.error e) t) (.error (.error e') t')

/-- Both runs end alike, unless one of them is lost. -/
def Agrees (ρ : Renaming) {α : Type} (L : Like α) (r r' : EStateM.Result Failure State α) : Prop :=
  ¬ Lost ρ r → ¬ Lost .none r' → Both ρ L r r'

def Evolving {α : Type} (m : M α) : Prop := ∀ s, Evolves s (final (m s))

/-- The second action does in the second run what the first one does in the first. -/
class Follows (ρ : Renaming) {α : Type} (L : Like α) (m m' : M α) : Prop where
  evolving : Evolving m
  evolving' : Evolving m'
  agrees : ∀ s s', Twin ρ s s' → Agrees ρ L (m s) (m' s')

section

variable {α β : Type} {ρ : Renaming} {K : Like α} {L : Like β} {m m' : M α} {f f' : α → M β}

theorem Evolving.bind (h : Evolving m) (hf : ∀ a, Evolving (f a)) : Evolving (m >>= f) := by
  intro s
  have hs := h s
  show Evolves s (final (EStateM.bind m f s))
  unfold EStateM.bind
  cases hm : m s with
  | error e t =>
    rw [hm] at hs
    exact hs
  | ok a t =>
    rw [hm] at hs
    exact hs.trans (hf a t)

theorem Lost.bind {s : State} (h : Lost ρ (m s)) (hf : ∀ a, Evolving (f a)) :
    Lost ρ ((m >>= f) s) := by
  show Lost ρ (EStateM.bind m f s)
  unfold EStateM.bind
  cases hm : m s with
  | error e t =>
    rw [hm] at h
    cases e <;> exact h
  | ok a t =>
    rw [hm] at h
    have ht : Astray ρ (final (f a t)) := Astray.evolve h (hf a t)
    simp only
    cases hr : f a t with
    | ok b u =>
      rw [hr] at ht
      exact ht
    | error e u =>
      rw [hr] at ht
      cases e <;> trivial

theorem Agrees.bind {s s' : State} (h : Agrees ρ K (m s) (m' s')) (he : ∀ a, Evolving (f a))
    (he' : ∀ a, Evolving (f' a))
    (hf : ∀ a a' t t', K.rel ρ a a' → Twin ρ t t' → Agrees ρ L (f a t) (f' a' t')) :
    Agrees ρ L ((m >>= f) s) ((m' >>= f') s') := by
  intro hl hl'
  have hb := h (fun h => hl (h.bind he)) (fun h => hl' (h.bind he'))
  revert hl hl'
  show ¬ Lost ρ (EStateM.bind m f s) → ¬ Lost .none (EStateM.bind m' f' s')
    → Both ρ L (EStateM.bind m f s) (EStateM.bind m' f' s')
  unfold EStateM.bind
  generalize m s = r at hb
  generalize m' s' = r' at hb
  cases hb with
  | ok ha ht => exact hf _ _ _ _ ha ht
  | error hk => exact fun _ _ => .error hk

namespace Follows

theorem bind_of (h : Follows ρ K m m') (he : ∀ a, Evolving (f a)) (he' : ∀ a, Evolving (f' a))
    (hf : ∀ a a', K.rel ρ a a' → Follows ρ L (f a) (f' a')) : Follows ρ L (m >>= f) (m' >>= f')
    where
  evolving := h.evolving.bind he
  evolving' := h.evolving'.bind he'
  agrees _ _ ht := (h.agrees _ _ ht).bind he he' fun a a' t t' ha ht => (hf a a' ha).agrees t t' ht

/-- One action after another. That a lost run stays lost is the case where nothing is renamed. -/
theorem bind (h : Follows ρ K m m')
    (hf : ∀ (ρ : Renaming) (a a' : α), K.rel ρ a a' → Follows ρ L (f a) (f' a')) :
    Follows ρ L (m >>= f) (m' >>= f') :=
  h.bind_of (fun a => (hf .none a a (K.refl a)).evolving)
    (fun a => (hf .none a a (K.refl a)).evolving') (hf ρ)

theorem bindIf (P : Renaming → Prop) (hnone : P .none) (hρ : P ρ) (h : Follows ρ K m m')
    (hf : ∀ (ρ : Renaming) (a a' : α), P ρ → K.rel ρ a a' → Follows ρ L (f a) (f' a')) :
    Follows ρ L (m >>= f) (m' >>= f') :=
  h.bind_of (fun a => (hf .none a a hnone (K.refl a)).evolving)
    (fun a => (hf .none a a hnone (K.refl a)).evolving')
    fun a a' => hf ρ a a' hρ

instance bindSame [h : Follows ρ .same m m'] [hf : ∀ a, Follows ρ L (f a) (f' a)] :
    Follows ρ L (m >>= f) (m' >>= f') :=
  h.bind_of (fun a => (hf a).evolving) (fun a => (hf a).evolving') fun a a' ha => by
    cases ha
    exact hf a

theorem seq (h : Follows ρ .same m m') (hf : ∀ a, Follows ρ L (f a) (f' a)) : Follows ρ L (m >>= f)
    (m' >>= f') :=
  bindSame

instance bindAny [h : Follows ρ .any m m'] [hf : ∀ a a', Follows ρ L (f a) (f' a')] :
    Follows ρ L (m >>= f) (m' >>= f') :=
  h.bind_of (fun a => (hf a a).evolving) (fun a => (hf a a).evolving') fun a a' _ => hf a a'

theorem seqAny (h : Follows ρ .any m m') (hf : ∀ a a', Follows ρ L (f a) (f' a')) :
    Follows ρ L (m >>= f) (m' >>= f') :=
  bindAny

theorem weaken {K' : Like α} (h : Follows ρ K m m') (hK : ∀ {a a'}, K.rel ρ a a' → K'.rel ρ a a') :
    Follows ρ K' m m' where
  evolving := h.evolving
  evolving' := h.evolving'
  agrees s s' ht hl hl' := by
    have hb := h.agrees s s' ht hl hl'
    revert hb
    generalize m s = r
    generalize m' s' = r'
    intro hb
    cases hb with
    | ok ha ht => exact .ok (hK ha) ht
    | error hk => exact .error hk

theorem pure {a a' : α} {K : Like α} (h : K.rel ρ a a') : Follows ρ K (Pure.pure a)
    (Pure.pure a') :=
  ⟨.refl, .refl, fun _ _ ht _ _ => .ok h ht⟩

instance pureSame (a : α) : Follows ρ .same (Pure.pure a : M α) (Pure.pure a) := .pure rfl

theorem map {g g' : α → β} (h : Follows ρ K m m')
    (hg : ∀ (ρ : Renaming) a a', K.rel ρ a a' → L.rel ρ (g a) (g' a')) :
    Follows ρ L (g <$> m) (g' <$> m') := by
  rw [map_eq_pure_bind, map_eq_pure_bind]
  exact h.bind fun ρ a a' ha => .pure (hg ρ a a' ha)

instance mapSame {g : α → β} [h : Follows ρ .same m m'] : Follows ρ .same (g <$> m) (g <$> m') :=
  h.map fun _ _ _ ha => congrArg g ha

instance discardSame [h : Follows ρ .same m m'] : Follows ρ .same (discard m) (discard m') :=
  h.map fun _ _ _ _ => rfl

instance ite {c : Prop} [Decidable c] {n n' : M α} [h : Follows ρ K m m'] [h' : Follows ρ K n n'] :
    Follows ρ K (if c then m else n) (if c then m' else n') := by
  split
  · exact h
  · exact h'

/-- A step that both runs take or neither does. -/
theorem optional {c : Prop} [Decidable c] {rest rest' : M β} (h : Follows ρ .same m m')
    (hrest : Follows ρ L rest rest') :
    Follows ρ L (if c then m >>= fun _ => rest else rest)
      (if c then m' >>= fun _ => rest' else rest') :=
  have : Follows ρ L (m >>= fun _ => rest) (m' >>= fun _ => rest') := h.seq fun _ => hrest
  inferInstance

instance fail (kind : ErrorKind) (message message' near near' : Bytes) :
    Follows ρ K (fail kind message near) (fail kind message' near') :=
  ⟨.refl, .refl, fun _ _ _ _ _ => .error rfl⟩

instance syntaxError (message message' : Bytes) :
    Follows ρ K (syntaxError message) (syntaxError message') :=
  ⟨.refl, .refl, fun _ _ _ _ _ => .error rfl⟩

instance semanticError (message message' : Bytes) :
    Follows ρ K (semanticError message) (semanticError message') :=
  ⟨.refl, .refl, fun _ _ _ _ _ => .error rfl⟩

instance limitError (limit limit' : Int) (what what' : String) :
    Follows ρ K (limitError limit what) (limitError limit' what') :=
  ⟨.refl, .refl, fun _ _ _ _ _ => .error rfl⟩

instance broken (a a' : Assertion) : Follows ρ K (broken a) (broken a') :=
  ⟨.refl, .refl, fun _ _ _ hl _ => (hl trivial).elim⟩

theorem get {γ : Type} (g : State → γ) {K : Like γ} {f f' : State → M β}
    (hg : ∀ (ρ : Renaming) s s', Twin ρ s s' → K.rel ρ (g s) (g s'))
    (hf : ∀ (ρ : Renaming) s s', K.rel ρ (g s) (g s') → Follows ρ L (f s) (f' s')) :
    Follows ρ L (MonadState.get >>= f) (MonadState.get >>= f') where
  evolving s := (hf .none s s (K.refl (g s))).evolving s
  evolving' s := (hf .none s s (K.refl (g s))).evolving' s
  agrees s s' ht := (hf ρ s s' (hg ρ s s' ht)).agrees s s' ht

theorem modify {u u' : State → State} (he : ∀ s, Evolves s (u s)) (he' : ∀ s, Evolves s (u' s))
    (h : ∀ s s', Twin ρ s s' → Twin ρ (u s) (u' s')) :
    Follows ρ .same (modify u : M PUnit) (modify u') :=
  ⟨he, he', fun s s' ht _ _ => .ok rfl (h s s' ht)⟩

theorem ofFn {g : Builder → α} (h : ∀ f, g f.erase = g f) : Follows ρ .same (ofFn g) (ofFn g) :=
  ⟨.refl, .refl, fun _ _ ht _ _ => .ok (ht.same g h) ht⟩

/-- The function is changed: it does not depend on lines and names how, but for lines and names. -/
theorem modifyFn {u u' v : Builder → Builder} (h : ∀ f, (u f).erase = v f.erase)
    (h' : ∀ f, (u' f).erase = v f.erase) (hu : ∀ f, (u f).upvalues = f.upvalues) :
    Follows ρ .same (modifyFn u) (modifyFn u') :=
  .modify (fun _ => .of_eq rfl rfl) (fun _ => .of_eq rfl rfl) fun s s' ht =>
    ht.setFn (by rw [h, h', ht.fn]) (by unfold Builder.Distinct; rw [hu]; exact ht.distinct_fn)

end Follows

theorem follows_checked {c c' : Builder → Bool} {a a' : Assertion} [h : Follows ρ K m m'] :
    Follows ρ K (do if ← ofFn c then m else broken a) (do if ← ofFn c' then m' else broken a') where
  evolving := Evolving.bind (fun s => .refl s) fun b => by
    cases b
    · exact fun s => .refl s
    · exact h.evolving
  evolving' := Evolving.bind (fun s => .refl s) fun b => by
    cases b
    · exact fun s => .refl s
    · exact h.evolving'
  agrees s s' ht hl hl' := by
    have heq : ∀ (c : Builder → Bool) (m : M α) (a : Assertion) (s : State),
        (do if ← ofFn c then m else broken a : M α) s = (if c s.fn then m else broken a) s :=
        fun _ _ _ _ => rfl
    rw [heq] at hl hl' ⊢
    rw [heq]
    split at hl
    · split at hl'
      · rw [if_pos ‹_›, if_pos ‹_›]
        exact h.agrees s s' ht hl hl'
      · exact (hl' trivial).elim
    · exact (hl trivial).elim

theorem evolving_inEnclosing (h : Evolving m) : Evolving (inEnclosing m) := by
  intro s
  cases ho : s.outer with
  | nil =>
    rw [inEnclosing_nil ho]
    exact .refl s
  | cons b rest =>
    rw [inEnclosing_cons ho]
    have hm := h { s with fn := b, outer := rest }
    have hout : Evolves s { s with fn := b, outer := rest } := .of_eq rfl rfl
    cases hr : m { s with fn := b, outer := rest } <;>
      · rw [hr] at hm
        exact (hout.trans hm).trans (.of_eq rfl rfl)

theorem Twin.enclosing {s s' : State} {b b' : Builder} {rest rest' : List Builder} (h : Twin ρ s s')
    (ho : s.outer = b :: rest) (ho' : s'.outer = b' :: rest') :
    Twin ρ { s with fn := b, outer := rest } { s' with fn := b', outer := rest' } := by
  have houter := h.outer
  rw [ho, ho', List.map_cons, List.map_cons, List.cons.injEq] at houter
  exact { h with
    fn := houter.1
    outer := houter.2
    distinct := fun f hf => h.distinct f (List.mem_cons_of_mem _ (ho ▸ hf)) }

theorem Twin.inner {s s' t t' : State} (h : Twin ρ s s') (ht : Twin ρ t t') :
    Twin ρ (t.backIn s.fn) (t'.backIn s'.fn) :=
  { ht with
    fn := h.fn
    outer := by
      show (t'.fn :: t'.outer).map Builder.erase = (t.fn :: t.outer).map Builder.erase
      rw [List.map_cons, List.map_cons, ht.fn, ht.outer]
    distinct := by
      intro f hf
      rcases List.mem_cons.1 hf with rfl | hf
      · exact h.distinct _ (List.mem_cons_self ..)
      · exact ht.distinct f hf }

theorem Lost.backIn {r : EStateM.Result Failure State α} {fn : Builder} (h : Lost ρ r) :
    Lost ρ (inState (·.backIn fn) r) := by
  cases r with
  | ok => exact h
  | error e => cases e <;> exact h

theorem lost_inEnclosing {s : State} {b : Builder} {rest : List Builder} (ho : s.outer = b :: rest)
    (h : Lost ρ (m { s with fn := b, outer := rest })) : Lost ρ (Compile.inEnclosing m s) := by
  rw [inEnclosing_cons ho]
  exact h.backIn

theorem Agrees.inEnclosing {s s' : State} (ht : Twin ρ s s')
    (h : ∀ b rest b' rest', s.outer = b :: rest → s'.outer = b' :: rest' →
      Agrees ρ K (m { s with fn := b, outer := rest }) (m' { s' with fn := b', outer := rest' })) :
    Agrees ρ K (Compile.inEnclosing m s) (Compile.inEnclosing m' s') := by
  cases ho : s.outer with
  | nil =>
    rw [inEnclosing_nil ho]
    exact fun hl => (hl trivial).elim
  | cons b rest =>
    cases ho' : s'.outer with
    | nil =>
      rw [inEnclosing_nil ho']
      exact fun _ hl' => (hl' trivial).elim
    | cons b' rest' =>
      rw [inEnclosing_cons ho, inEnclosing_cons ho']
      intro hl hl'
      have hb := h b rest b' rest' ho ho' (fun h => hl h.backIn) (fun h => hl' h.backIn)
      generalize m { s with fn := b, outer := rest } = r at hb
      generalize m' { s' with fn := b', outer := rest' } = r' at hb
      cases hb with
      | ok ha htt => exact .ok ha (ht.inner htt)
      | error hk => exact .error hk

namespace Follows

instance inEnclosing [h : Follows ρ K m m'] : Follows ρ K (inEnclosing m) (inEnclosing m') where
  evolving := evolving_inEnclosing h.evolving
  evolving' := evolving_inEnclosing h.evolving'
  agrees _ _ ht := .inEnclosing ht fun _ _ _ _ ho ho' => h.agrees _ _ (ht.enclosing ho ho')

theorem evolving_checkAdvance (taken : Nat) : Evolving (Compile.checkAdvance taken) := fun s => by
  by_cases h : taken < s.lexer.taken
  · rw [checkAdvance_of_lt h]
    exact .refl s
  · rw [checkAdvance_of_not_lt h]
    exact .refl s

theorem checkAdvance (taken taken' : Nat) : Follows ρ .same (Compile.checkAdvance taken)
    (Compile.checkAdvance taken') where
  evolving := evolving_checkAdvance taken
  evolving' := evolving_checkAdvance taken'
  agrees s s' ht hl hl' := by
    have hpass : ∀ {ρ : Renaming} {taken : Nat} {s : State},
        ¬ Lost ρ (Compile.checkAdvance taken s) → taken < s.lexer.taken :=
      fun hl => Decidable.of_not_not fun h => hl (by rw [checkAdvance_of_not_lt h]; trivial)
    rw [checkAdvance_of_lt (hpass hl), checkAdvance_of_lt (hpass hl')]
    exact .ok rfl ht

theorem evolving_iterate {turn : α → M (Turn α β)} (h : ∀ a, Evolving (turn a)) (n : Nat) (a : α) :
    Evolving (Compile.iterate turn n a) := by
  induction n generalizing a with
  | zero => exact .refl
  | succ n ih =>
    refine Evolving.bind (m := tokensTaken) .refl fun taken => (h a).bind fun t => ?_
    cases t with
    | again a => exact (evolving_checkAdvance taken).bind fun _ => ih a
    | done b => exact .refl

theorem iterate {turn turn' : α → M (Turn α β)} (h : ∀ a, Follows ρ .same (turn a) (turn' a))
    (n n' : Nat)
    (a : α) : Follows ρ .same (Compile.iterate turn n a) (Compile.iterate turn' n' a) := by
  induction n generalizing n' a with
  | zero =>
    exact ⟨.refl, evolving_iterate (fun a => (h a).evolving') n' a, fun _ _ _ hl =>
      (hl trivial).elim⟩
  | succ n ih =>
    cases n' with
    | zero =>
      exact ⟨evolving_iterate (fun a => (h a).evolving) (n + 1) a, .refl, fun _ _ _ _ hl' =>
        (hl' trivial).elim⟩
    | succ n' =>
      have htaken : Follows ρ .any tokensTaken tokensTaken :=
        ⟨.refl, .refl, fun _ _ ht _ _ => .ok trivial ht⟩
      refine htaken.seqAny fun taken taken' => (h a).seq fun t => ?_
      cases t with
      | again a => exact (checkAdvance taken taken').seq fun _ => ih n' a
      | done b => exact pureSame b

instance repeatTurn {turn turn' : α → M (Turn α β)} [h : ∀ a, Follows ρ .same (turn a) (turn' a)]
    (a : α) :
    Follows ρ .same (repeatTurn turn a) (repeatTurn turn' a) where
  evolving s := evolving_iterate (fun a => (h a).evolving) s.bound a s
  evolving' s := evolving_iterate (fun a => (h a).evolving') s.bound a s
  agrees s s' ht := (iterate h s.bound s'.bound a).agrees s s' ht

theorem turns {turn turn' : α → M (Turn α β)} (h : ∀ a, Follows ρ .same (turn a) (turn' a))
    (a : α) :
    Follows ρ .same (Compile.repeatTurn turn a) (Compile.repeatTurn turn' a) := repeatTurn a

end Follows

end

end Compile

end LuaChunk
