import LuaChunk.Proofs.Action.Regular

/-!
How the compiler is built: which actions it is composed of, and how. A single action tells nothing
of the input to come and stores nothing but texts of its function. All else is sequences, loops,
moves to the next token, actions on the enclosing function, and nested functions. What holds of
every compilation is proved by induction on this.
-/

set_option autoImplicit false

namespace LuaChunk

/-- What matters of the token stream: neither its lines nor what was recorded. -/
def Lexer.core (l : Lexer) :
    Bytes × Token × Nat × Option Token × (Bytes → Nat) × Bytes × Option Bytes :=
  (l.input, l.token, l.number, l.ahead, l.numberOf, l.source, l.failure)

/-- The text of a string. -/
def Value.text? : Value → Option Bytes
  | .str s => some s
  | _ => none

namespace Compile

/-- The same state with more input, which does not fail, and room for more turns. -/
def State.continued (s : State) (more : Bytes) (turns : Nat) : State :=
  { s with
    lexer := { s.lexer with input := s.lexer.input ++ more, failure := none },
    bound := s.bound + turns }

/-- The texts that are stored in a function: string constants, names of local variables and of
upvalues. -/
def textsOf (constants : Array Value) (locals : Array (Option Bytes)) (upvalues : Array Upvalue) :
    List Bytes :=
  constants.toList.filterMap Value.text? ++ locals.toList.filterMap id
    ++ upvalues.toList.filterMap (·.name)

section

variable (constants : Array Value) (locals : Array (Option Bytes)) (upvalues : Array Upvalue)

theorem textsOf_constant (v : Value) : (textsOf (constants.push v) locals upvalues).Perm
    (textsOf constants locals upvalues ++ v.text?.toList) := by
  unfold textsOf
  rw [Array.toList_push, List.filterMap_append,
    show List.filterMap Value.text? [v] = v.text?.toList by cases v <;> rfl]
  simp only [List.append_assoc]
  refine List.Perm.append_left _ ?_
  rw [← List.append_assoc _ _ v.text?.toList]
  exact List.perm_append_comm

theorem textsOf_local (name : Option Bytes) : (textsOf constants (locals.push name) upvalues).Perm
    (textsOf constants locals upvalues ++ name.toList) := by
  unfold textsOf
  rw [Array.toList_push, List.filterMap_append,
    show List.filterMap id [name] = name.toList by cases name <;> rfl]
  simp only [List.append_assoc]
  exact List.Perm.append_left _ (List.Perm.append_left _ List.perm_append_comm)

theorem textsOf_upvalue (u : Upvalue) : textsOf constants locals (upvalues.push u)
    = textsOf constants locals upvalues ++ u.name.toList := by
  unfold textsOf
  rw [Array.toList_push, List.filterMap_append, List.append_assoc _ _ u.name.toList]
  obtain ⟨name, inStack, index, kind⟩ := u
  cases name <;> rfl

end

def Builder.texts (f : Builder) : List Bytes :=
  textsOf f.pool.values (f.locals.map (·.name)) f.upvalues

/-- What a single action changes: no token is taken, and the function stays under construction. -/
structure Touches (s t : State) : Prop where
  lexer : t.lexer.core = s.lexer.core
  outer : t.outer = s.outer
  nextId : t.nextId = s.nextId
  id : t.fn.id = s.fn.id
  nested : t.fn.nested = s.fn.nested
  level : t.depth = s.depth ∧ t.deepest = s.deepest
  texts : ∃ texts : List Bytes,
    t.stores.toList = s.stores.toList ++ texts.map (.text s.fn.id) ∧
      t.fn.texts.Perm (s.fn.texts ++ texts)

structure Single {α : Type} (P : α → Prop) (m : M α) : Prop where
  ok : ∀ s a t, s.Clean → m s = .ok a t → P a ∧ t.Clean ∧ Touches s t
  error : ∀ s e t, s.Clean → m s = .error e t → Touches s t ∧ ∀ message, e ≠ .read message
  continued : ∀ (s : State) (x : Bytes) (k : Nat),
    m (s.continued x k) = inState (·.continued x k) (m s)

def State.nest (s : State) (line : Nat) : State :=
  { s with
    nextId := s.nextId + 1
    fn := .start s.nextId line s.vars.size s.labels.size
    outer := s.fn :: s.outer
    stores := (s.stores.push (.nested s.fn.id s.nextId)).push (.source s.nextId s.lexer.source) }

def nest (line : Nat) : M Unit := modify (·.nest line)

/-- How an action is composed, and which results it may have. `levels` says how many levels deeper
it may go; without any it starts no nested function either. -/
inductive Built : (levels : Option Nat) → {α : Type} → (α → Prop) → M α → Prop
  | single {levels : Option Nat} {α : Type} {P : α → Prop} {m : M α} (h : Single P m) : Built levels
    P m
  | bind {levels : Option Nat} {α β : Type} {P : α → Prop} {Q : β → Prop} {m : M α} {f : α → M β}
    (hm : Built levels P m)
      (hf : ∀ a, P a → Built levels Q (f a)) : Built levels Q (m >>= f)
  | get {levels : Option Nat} {β : Type} {Q : β → Prop} {f : State → M β}
    (hf : ∀ s, s.Clean → Built levels Q (f s))
      (hc : ∀ (s : State) (x : Bytes) (k : Nat), f (s.continued x k) = f s) : Built levels Q
      (get >>= f)
  | next {levels : Option Nat} : Built levels (fun _ => True) next
  | lookahead {levels : Option Nat} : Built levels (fun _ => True) lookahead
  | loop {levels : Option Nat} {α β : Type} {P : α → Prop} {Q : β → Prop} {turn : α → M (Turn α β)}
    {a : α} (ha : P a)
      (ht : ∀ a, P a → Built levels (fun | .again a => P a | .done b => Q b) (turn a)) : Built
      levels Q (repeatTurn turn a)
  | enclosing {levels : Option Nat} {α : Type} {P : α → Prop} {m : M α} (h : Built none P m) : Built
    levels P (inEnclosing m)
  | metered {deep : Nat} {α : Type} {P : α → Prop} {m : M α} (h : Built (some deep) P m) : Built
    (some (deep + 1)) P (metered m)
  | nested {deep : Nat} {α : Type} {P : α → Prop} {m : M α} (line : Nat)
    (h : Built (some deep) P m) :
      Built (some deep) P (do
        nest line
        let a ← m
        attach
        return a)

section

variable {α β : Type} {s t : State}

theorem onLexer_ok {act : Lexer.M α} {a : α} (h : onLexer act s = .ok a t) :
    ∃ l, act s.lexer = .ok a l ∧ t = { s with lexer := l } := by
  unfold onLexer at h
  dsimp only at h
  cases hl : act s.lexer with
  | ok b l =>
    rw [hl] at h
    cases h
    exact ⟨l, rfl, rfl⟩
  | error e l =>
    rw [hl] at h
    cases h

theorem exists_of_bind {m : M α} {f : α → M β} {b : β} (h : (m >>= f) s = .ok b t) :
    ∃ a u, m s = .ok a u ∧ f a u = .ok b t := by
  change EStateM.bind m f s = _ at h
  unfold EStateM.bind at h
  cases hm : m s with
  | ok a u =>
    rw [hm] at h
    exact ⟨a, u, rfl, h⟩
  | error e u =>
    rw [hm] at h
    cases h

theorem exists_of_inState {g : State → State} {r : EStateM.Result Failure State α} {a : α}
    (h : inState g r = .ok a t) :
    ∃ u, r = .ok a u ∧ t = g u := by
  cases r with
  | ok b u =>
    cases h
    exact ⟨u, rfl, rfl⟩
  | error e u => cases h

theorem attach_nil (h : s.outer = []) : attach s = .error (.broken .indexInRange) s := by
  have hget : (get : M State) s = .ok s s := rfl
  unfold attach
  show EStateM.bind get _ s = _
  rw [EStateM.bind, hget]
  dsimp only
  rw [h]
  rfl

theorem attach_cons {b : Builder} {rest : List Builder} (h : s.outer = b :: rest) : attach s
    = .ok () { s with
      fn := { b with nested := b.nested.push (s.fn.prototype s.lexer.source) },
      outer := rest } := by
  have hget : (get : M State) s = .ok s s := rfl
  unfold attach
  show EStateM.bind get _ s = _
  rw [EStateM.bind, hget]
  dsimp only
  rw [h]
  rfl

end

class Acts (levels : Option Nat) {α : Type} [Regularity α] (m : M α) : Prop where
  built : Built levels regular m

theorem Acts.nesting (deep : Nat) {α : Type} [Regularity α] {m : M α} [h : Acts (some deep) m] :
    Built (some deep) regular m := h.built

section

variable {levels : Option Nat} {α β : Type} [Regularity α] [Regularity β] {m m' : M α} {f : α → M β}

theorem Acts.of_single (h : Single regular m) : Acts levels m := ⟨.single h⟩

instance Acts.bind [hm : Acts levels m] [hf : ∀ a : Allowed α, Acts levels (f a.val)] :
    Acts levels (m >>= f) :=
  ⟨.bind hm.built fun a ha => (hf ⟨a, ha⟩).built⟩

theorem Acts.seq (hm : Acts levels m) (hf : ∀ a, Good a → Acts levels (f a)) :
    Acts levels (m >>= f) :=
  ⟨.bind hm.built fun a ha => (hf a ⟨ha⟩).built⟩

theorem Acts.get {f : State → M β} (hf : ∀ s, s.Clean → Acts levels (f s))
    (hc : ∀ (s : State) (x : Bytes) (k : Nat), f (s.continued x k) = f s := by intros; rfl) : Acts
    levels (get >>= f) :=
  ⟨.get (fun s hs => (hf s hs).built) hc⟩

instance : Acts levels next := ⟨.next⟩

instance : Acts levels lookahead := ⟨.lookahead⟩

instance Acts.loop {turn : α → M (Turn α β)} {a : α} [ha : Good a]
    [ht : ∀ a : Allowed α, Acts levels (turn a.val)] :
    Acts levels (repeatTurn turn a) := by
  refine ⟨.loop ha.regular fun a ha => ?_⟩
  have h := (ht ⟨a, ha⟩).built
  convert h using 1
  funext r
  cases r <;> rfl

theorem Acts.turns {turn : α → M (Turn α β)} {a : α} (ha : Good a)
    (ht : ∀ a, Good a → Acts levels (turn a)) : Acts levels (repeatTurn turn a) :=
  have (a : Allowed α) : Acts levels (turn a.val) := ht a.val inferInstance
  inferInstance

instance Acts.enclosing [h : Acts none m] : Acts levels (inEnclosing m) := ⟨.enclosing h.built⟩

instance {deep : Nat} [h : Acts (some deep) m] : Acts (some (deep + 1)) (metered m) :=
  ⟨.metered h.built⟩

instance {c : Prop} [Decidable c] [h : Acts levels m] [h' : Acts levels m'] :
    Acts levels (if c then m else m') := by
  split
  · exact h
  · exact h'

-- A step that is taken or not: what comes after it is looked at once.
instance Acts.optional {c : Prop} [Decidable c] {rest : M β} [hm : Acts levels m]
    [h : Acts levels rest] :
    Acts levels (if c then m >>= fun _ => rest else rest) := by
  split
  · exact hm.seq fun _ _ => h
  · exact h

end

def Builder.core (f : Builder) :
    Nat × Array Prototype × Array Value × Array (Option Bytes) × Array Upvalue :=
  (f.id, f.nested, f.pool.values, f.locals.map (·.name), f.upvalues)

theorem Builder.core_eq {f g : Builder} (h : g.core = f.core) :
    g.id = f.id ∧ g.nested = f.nested ∧ g.pool.values = f.pool.values ∧ g.texts = f.texts := by
  obtain ⟨hid, hnested, hpool, hlocals, hups⟩ := by simpa only [core, Prod.mk.injEq] using h
  exact ⟨hid, hnested, hpool, by rw [texts, texts, hpool, hlocals, hups]⟩

theorem Builder.Clean.of_core {f g : Builder} (hf : f.Clean) (h : g.core = f.core)
    (hm : RegularRows g.meant) : g.Clean := by
  obtain ⟨-, hnested, hpool, -⟩ := Builder.core_eq h
  exact ⟨by rw [hpool]; exact hf.pool, by rw [hnested]; exact hf.nested, hm⟩

/-- What matters of a state besides the function, the declarations and the floats. -/
def State.core (s : State) := (s.lexer.core, s.outer, s.nextId, s.stores, s.depth, s.deepest)

/-- What was recorded of the constants that instructions are emitted for. -/
def State.rows (s : State) := (s.fn.meant, s.closings)

theorem Touches.of_core {s t : State} (h : t.core = s.core) (hf : t.fn.core = s.fn.core) :
    Touches s t := by
  obtain ⟨hlexer, houter, hnext, hstores, hlevel⟩ := by
    simpa only [State.core, Prod.mk.injEq] using h
  obtain ⟨hid, hnested, -, htexts⟩ := Builder.core_eq hf
  exact ⟨hlexer, houter, hnext, hid, hnested, hlevel, [], by simp [hstores], by simp [htexts]⟩

theorem Touches.refl (s : State) : Touches s s := .of_core rfl rfl

theorem Touches.trans {s t u : State} (h : Touches s t) (h' : Touches t u) : Touches s u := by
  obtain ⟨texts, hstores, htexts⟩ := h.texts
  obtain ⟨texts', hstores', htexts'⟩ := h'.texts
  refine ⟨h'.lexer.trans h.lexer, h'.outer.trans h.outer, h'.nextId.trans h.nextId,
    h'.id.trans h.id,
    h'.nested.trans h.nested, ⟨h'.level.1.trans h.level.1, h'.level.2.trans h.level.2⟩,
      texts ++ texts', ?_, ?_⟩
  · rw [hstores', hstores, h.id, List.map_append, List.append_assoc]
  · rw [← List.append_assoc]
    exact htexts'.trans (htexts.append_right _)

theorem State.Clean.of_core {s t : State} (hs : s.Clean) (h : t.core = s.core)
    (hf : t.fn.core = s.fn.core) (hr : t.rows = s.rows)
    (hv : ∀ v ∈ t.vars, v.value.Regular) (hfloats : t.floats = s.floats)
    (hspilled : s.spilled = true → t.spilled = true) :
    t.Clean := by
  obtain ⟨hmeant, hclosings⟩ := by simpa only [State.rows, Prod.mk.injEq] using hr
  obtain ⟨⟨-, htoken, -, hahead, -⟩, houter, -⟩ := by
    simpa only [State.core, Lexer.core, Prod.mk.injEq] using h
  exact ⟨by rw [htoken]; exact hs.token, by rw [hahead]; exact hs.ahead, hv,
    hs.fn.of_core hf (by rw [hmeant]; exact hs.fn.meant), by rw [houter]; exact hs.outer,
    by rw [hfloats]; exact hs.floats.imp_left hspilled, by rw [hclosings]; exact hs.closings⟩

section

variable {levels : Option Nat} {α : Type} {P : α → Prop}

theorem Single.pure {a : α} (h : P a) : Single P (pure a) where
  ok s b t hs hr := by
    cases hr
    exact ⟨h, hs, .refl s⟩
  error s e t _ hr := by cases hr
  continued s x k := rfl

theorem Single.throw {f : State → Failure} (hf : ∀ s message, f s ≠ .read message)
    (hc : ∀ (s : State) (x : Bytes) (k : Nat), f (s.continued x k) = f s) :
    Single (α := α) P fun s => .error (f s) s where
  ok s b t hs hr := by cases hr
  error s e t _ hr := by
    cases hr
    exact ⟨.refl s, hf s⟩
  continued s x k := by rw [hc]; rfl

theorem Single.update {g : State → α} {h : State → State} (hg : ∀ s, s.Clean → P (g s))
    (hh : ∀ s, s.Clean → (h s).Clean ∧ Touches s (h s))
    (hgc : ∀ (s : State) (x : Bytes) (k : Nat), g (s.continued x k) = g s)
    (hhc : ∀ (s : State) (x : Bytes) (k : Nat), h (s.continued x k) = (h s).continued x k) :
    Single P fun s => .ok (g s) (h s) where
  ok s b t hs hr := by
    cases hr
    exact ⟨hg s hs, hh s hs⟩
  error s e t _ hr := by cases hr
  continued s x k := by rw [hgc, hhc]; rfl

theorem single_checkAdvance (taken : Nat) : Single (fun _ => True) (checkAdvance taken) where
  ok s _ t hs hr := by
    obtain ⟨-, rfl⟩ := ok_of_checkAdvance hr
    exact ⟨trivial, hs, .refl t⟩
  error s e t _ hr := by
    by_cases h : taken < s.lexer.taken
    · rw [checkAdvance_of_lt h] at hr
      cases hr
    · rw [checkAdvance_of_not_lt h] at hr
      cases hr
      exact ⟨.refl s, nofun⟩
  continued s x k := by
    by_cases h : taken < s.lexer.taken
    · rw [checkAdvance_of_lt h, checkAdvance_of_lt (s := s.continued x k) h]
      rfl
    · rw [checkAdvance_of_not_lt h, checkAdvance_of_not_lt (s := s.continued x k) h]
      rfl

variable [Regularity α]

instance (a : α) [h : Good a] : Acts levels (pure a) := .of_single (.pure h.regular)

instance (a : Assertion) : Acts levels (broken a : M α) :=
  .of_single (.throw (f := fun _ => .broken a) (by simp) fun _ _ _ => rfl)

instance (kind : ErrorKind) (message near : Bytes) : Acts levels (fail kind message near : M α) :=
  .of_single (.throw (f := fun s => .error ⟨kind, s.lexer.source, s.lexer.line, message, near⟩)
    (by simp) fun _ _ _ => rfl)

instance [h : Floatless α] (g : Builder → α) : Acts levels (ofFn g) :=
  .of_single (.update (g := fun s => g s.fn) (h := id) (fun _ _ => h.regular _)
    (fun s hs => ⟨hs, .refl s⟩) (fun _ _ _ => rfl)
    fun _ _ _ => rfl)

theorem Acts.modify {h : State → State} (hs : ∀ s, (h s).core = s.core := by intros; rfl)
    (hf : ∀ s, (h s).fn.core = s.fn.core := by intros; rfl)
    (hv : ∀ s, s.Clean → ∀ v ∈ (h s).vars, v.value.Regular := by exact fun _ hs => hs.vars)
    (hfloats : ∀ s, (h s).floats = s.floats := by intros; rfl)
    (hspilled : ∀ s, s.spilled = true → (h s).spilled = true := by exact fun _ => id)
    (hc : ∀ (s : State) (x : Bytes) (k : Nat),
    h (s.continued x k) = (h s).continued x k := by intros; rfl)
    (hr : ∀ s, (h s).rows = s.rows := by intros; rfl) : Acts levels (modify h : M Unit) :=
  .of_single (.update (g := fun _ => ()) (h := h) (fun _ _ => trivial)
    (fun s hs' => ⟨hs'.of_core (hs s) (hf s) (hr s) (hv s hs') (hfloats s) (hspilled s),
      .of_core (hs s) (hf s)⟩) (fun _ _ _ => rfl) hc)

theorem Acts.modifyFn {h : Builder → Builder} (hf : ∀ f, (h f).core = f.core := by intros; rfl)
    (hm : ∀ f, (h f).meant = f.meant := by intros; rfl) : Acts levels (modifyFn h) :=
  .modify (h := fun s => { s with fn := h s.fn }) (fun _ => rfl) (fun s => hf s.fn)
    (fun _ hs => hs.vars) (fun _ => rfl)
    (fun _ => id) (fun _ _ _ => rfl) fun s => congrArg (·, s.closings) (hm s.fn)

theorem Acts.modifyRows {h : Builder → Builder}
    (hm : ∀ f, RegularRows f.meant → RegularRows (h f).meant)
    (hf : ∀ f, (h f).core = f.core := by intros; rfl) : Acts levels (Compile.modifyFn h) :=
  .of_single (.update (g := fun _ => ()) (h := fun s => { s with fn := h s.fn })
    (fun _ _ => trivial)
    (fun s hs => ⟨{ hs with fn := hs.fn.of_core (hf s.fn) (hm s.fn hs.fn.meant) },
      .of_core rfl (hf s.fn)⟩) (fun _ _ _ => rfl) fun _ _ _ => rfl)

instance : Acts levels currentToken := .get fun s hs =>
  have : Good s.lexer.token := ⟨hs.token⟩
  inferInstance

instance : Acts levels currentKind := .get fun _ _ => inferInstance

instance : Acts levels currentLine := .get fun _ _ => inferInstance

instance : Acts levels currentNear := .get fun _ _ => inferInstance

instance (s : Bytes) : Acts levels (intern s) :=
  .modify (h := fun st => { st with lexer := { st.lexer with noted := st.lexer.noted.push s } })

instance (declaration : Option Nat) : Acts levels (nextName declaration) := by
  have hbind : Acts levels (modify fun s => { s with
      lexer :=
        { s.lexer with bindings := s.lexer.bindings.push (s.lexer.number, declaration) } } :
          M Unit) := .modify
  exact hbind.seq fun _ _ => (inferInstance : Acts levels next)

instance {β : Type} [Regularity β] {m : M β} {f : β → α} [hm : Acts levels m]
    [hf : ∀ b : Allowed β, Good (f b.val)] :
    Acts levels (f <$> m) :=
  hm.seq fun b hb =>
    have := hf ⟨b, hb.regular⟩
    (inferInstance : Acts levels (pure (f b)))

instance {m : M α} [hm : Acts levels m] : Acts levels (discard m) :=
  hm.seq fun _ _ => (inferInstance : Acts levels (pure ()))

instance (message : Bytes) : Acts levels (syntaxError message : M α) := by
  unfold syntaxError
  infer_instance

instance (message : Bytes) : Acts levels (semanticError message : M α) := by
  unfold semanticError
  infer_instance

instance (limit : Int) (what : String) : Acts levels (limitError limit what : M α) :=
  .get fun _ _ => inferInstance

end

end Compile

end LuaChunk
