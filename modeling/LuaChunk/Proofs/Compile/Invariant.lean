import LuaChunk.Compile.Chunk
import LuaChunk.Proofs.Source.Progress
import LuaChunk.Proofs.Compile.Linking
import LuaChunk.Proofs.Compile.Span
import LuaChunk.Proofs.Compile.Write
import LuaChunk.Proofs.Code.Final
import LuaChunk.Proofs.Code.Refers

set_option autoImplicit false

namespace LuaChunk

namespace LineTable

/-- The table has a line for each of `n` instructions, and an absolute line for each marker. -/
structure Fits (t : LineTable) (n : Nat) : Prop where
  size : t.info.size = n
  absolute : t.info.toList.count lineMarker = t.absolute.size

end LineTable

namespace Compile

def Builder.view (f : Builder) : CodeView := ⟨f.code, f.aims, f.lastTarget, f.maxStack, f.numParams⟩

def Builder.references (f : Builder) : References := ⟨f.pool.values, f.upvalues.size, f.nested.size⟩

/-- The functions nested in a function find their upvalues in it. -/
def Adopts (nested : List Prototype) (maxStack : Int) (upvalues : Nat) : Prop :=
  ∀ p ∈ nested, ∀ u ∈ p.upvalues, u.Within maxStack upvalues

theorem Adopts.mono {nested : List Prototype} {m m' : Int} {n n' : Nat} (h : Adopts nested m n)
    (hm : m ≤ m') (hn : n ≤ n') :
    Adopts nested m' n' := fun p hp u hu => (h p hp u hu).mono hm hn

/-- What holds of every finished function. A late load costs the certificate. -/
structure FunctionOk (late : Bool) (p : Prototype) : Prop where
  lines : p.lineInfo.size = p.code.size
  code : ∃ maxStack params : Nat, p.maxStackSize = maxStack ∧ p.numParams = params ∧ 2 ≤ maxStack ∧
    maxStack ≤ 254 ∧ params ≤ maxLocals ∧ Finished late p.code maxStack params
  upvalues : p.upvalues.size ≤ maxUpvalues
  refers : Referring ⟨p.constants, p.upvalues.size, p.nested.length⟩ p.code
  adopts : Adopts p.nested p.maxStackSize p.upvalues.size

/-- Every jump has been sent to a destination. -/
def Closing.Aimed (c : Closing) : Prop :=
  ∀ (p : Nat) (i : Instruction), c.code[p]? = some i → i.opcode? = some .jmp →
    ∃ t : Nat, (p, t) ∈ c.aims ∧ i.sj = (t : Int) - (p + 1)

/-- The function is what the final pass makes of the code, with the variables and constants that
were recorded. -/
structure Closing.Describes (c : Closing) (p : Prototype) : Prop where
  code : ∃ marks, JumpList.finish marks c.code = .ok p.code
  locals : p.locals = c.locals.map Span.entry
  meaning : Faithful p.constants p.code c.meant

/-- All scopes have ended, and each instruction was emitted with the variables in scope that are
shown there. -/
structure Closing.Settled (c : Closing) : Prop where
  history : History c.locals.toList c.scopes.toList
  size : c.scopes.size = c.code.size
  ended : openIn c.locals.toList = []

namespace State

/-- The registers of all active variables. -/
def level (s : State) : Nat := levelOf s.vars s.fn.firstVar s.fn.active

def waiting (s : State) : List Pending := Compile.waiting s.vars s.labels s.gotos s.fn.scope

end State

/-- What holds between any two actions, the code of the function left aside. -/
structure Base (s : State) : Prop where
  failure : s.lexer.failure = none
  progress : s.lexer.measure < s.bound
  scopes : Scoped s.vars s.labels s.gotos s.fn.scope
  enclosed : Enclosed s.vars.size (s.fn :: s.outer)
  linked : Linked s.vars ((s.fn :: s.outer).map Builder.site)
  tracked : Tracked s.vars s.fn.localView
  controls : Controls s.vars
  lexical : s.strayed = false
  stack : 2 ≤ s.fn.maxStack
  room : s.fn.freeReg ≤ s.fn.maxStack
  lines : s.fn.lines.Fits s.fn.code.size
  pool : s.fn.pool.values.size ≤ Instruction.maxAx
  known : ∀ (k : Nat) (tag : UInt8), s.fn.pool.values[k]? ≠ some (.unknown tag)
  params : s.fn.numParams ≤ maxLocals
  nested : s.fn.nested.size ≤ Instruction.maxBx
  functions : ∀ p ∈ s.fn.nested, ∀ q ∈ p.walk, FunctionOk s.lateLoad q
  refers : Referring s.fn.references s.fn.code
  meaning : Faithful s.fn.pool.values s.fn.code s.fn.meant
  adopts : Adopts s.fn.nested.toList s.fn.maxStack s.fn.upvalues.size
  fits : s.spilled = false
  items : s.maxItems ≤ 1073741823
  closings : ∀ c ∈ s.closings, c.Aimed ∧ c.Settled
  recorded : ∀ p ∈ s.fn.nested, ∀ q ∈ p.walk, ∃ c ∈ s.closings, c.Describes q

/-- The invariant: `F` is what is pending besides gotos and labels, `o` an instruction whose result
register is open, and `live` holds of the registers that are assigned. -/
structure Inv (F : List Pending) (o : Option Nat) (live : Nat → Prop) (s : State) : Prop where
  base : Base s
  sound : Sound s.fn.view s.lateLoad (F ++ s.waiting) o live
  held : Holding s.fn.openLists (F ++ s.waiting)

/-- An enclosing function stays as it is, but its variables may be captured. -/
structure Captured (f f' : Builder) : Prop where
  core : { f' with blocks := f.blocks, upvalues := f.upvalues, needClose := f.needClose } = f
  blocks : f'.blocks.map Block.scope = f.blocks.map Block.scope
  upvalues : ∀ (i : Nat) (u : Upvalue), f.upvalues[i]? = some u → f'.upvalues[i]? = some u

theorem Captured.refl (f : Builder) : Captured f f := ⟨rfl, rfl, fun _ _ h => h⟩

theorem Captured.trans {f f' f'' : Builder} (h : Captured f f') (h' : Captured f' f'') :
    Captured f f'' := by
  refine ⟨?_, h'.blocks.trans h.blocks, fun i u hu => h'.upvalues i u (h.upvalues i u hu)⟩
  have h₁ := h.core
  rw [← h'.core] at h₁
  exact h₁

def CapturedAll : List Builder → List Builder → Prop
  | [], [] => True
  | f :: rest, f' :: rest' => Captured f f' ∧ CapturedAll rest rest'
  | _, _ => False

namespace CapturedAll

theorem refl (l : List Builder) : CapturedAll l l := by
  induction l with
  | nil => trivial
  | cons f rest ih => exact ⟨.refl f, ih⟩

theorem trans {l l' l'' : List Builder} (h : CapturedAll l l') (h' : CapturedAll l' l'') :
    CapturedAll l l'' := by
  induction l generalizing l' l'' with
  | nil =>
    cases l' with
    | nil => exact h'
    | cons => cases h
  | cons f rest ih =>
    cases l' with
    | nil => cases h
    | cons f' rest' =>
      cases l'' with
      | nil => cases h'
      | cons => exact ⟨h.1.trans h'.1, ih h.2 h'.2⟩

end CapturedAll

theorem size_le_of_entries {α : Type} {xs ys : Array α}
    (h : ∀ (i : Nat) (x : α), xs[i]? = some x → ys[i]? = some x) :
    xs.size ≤ ys.size := by
  refine Nat.le_of_not_lt fun hlt => ?_
  have := (Array.getElem?_eq_some_iff.1 (h _ _ (Array.getElem?_eq_getElem hlt))).1
  omega

structure Stays (s s' : State) : Prop extends Logs s s' where
  measure : s'.lexer.measure ≤ s.lexer.measure
  bound : s'.bound = s.bound
  items : s'.maxItems = s.maxItems
  pool : ∀ (k : Nat) (v : Value), s.fn.pool.values[k]? = some v → s'.fn.pool.values[k]? = some v
  entries : ∀ (i : Nat) (u : Upvalue), s.fn.upvalues[i]? = some u → s'.fn.upvalues[i]? = some u
  nested : s.fn.nested.size ≤ s'.fn.nested.size
  numParams : s'.fn.numParams = s.fn.numParams
  isVararg : s'.fn.isVararg = s.fn.isVararg
  stack : s.fn.maxStack ≤ s'.fn.maxStack
  outer : CapturedAll s.outer s'.outer
  late : s.lateLoad = true → s'.lateLoad = true
  code : 0 < s.fn.code.size → 0 < s'.fn.code.size

namespace Stays

theorem refl (s : State) : Stays s s where
  toLogs := .refl s
  measure := Nat.le_refl _
  bound := rfl
  items := rfl
  pool _ _ h := h
  entries _ _ h := h
  nested := Nat.le_refl _
  numParams := rfl
  isVararg := rfl
  stack := Nat.le_refl _
  outer := CapturedAll.refl _
  late h := h
  code h := h

theorem trans {s s' s'' : State} (h : Stays s s') (h' : Stays s' s'') : Stays s s'' where
  toLogs := h.toLogs.trans h'.toLogs
  measure := Nat.le_trans h'.measure h.measure
  bound := h'.bound.trans h.bound
  items := h'.items.trans h.items
  pool k v hk := h'.pool k v (h.pool k v hk)
  entries i u hi := h'.entries i u (h.entries i u hi)
  nested := Nat.le_trans h.nested h'.nested
  numParams := h'.numParams.trans h.numParams
  isVararg := h'.isVararg.trans h.isVararg
  stack := Nat.le_trans h.stack h'.stack
  outer := h.outer.trans h'.outer
  late hl := h'.late (h.late hl)
  code hc := h'.code (h.code hc)

theorem upvalues {s s' : State} (h : Stays s s') : s.fn.upvalues.size ≤ s'.fn.upvalues.size :=
  size_le_of_entries h.entries

theorem references {s s' : State} (h : Stays s s') : s.fn.references.Grows s'.fn.references :=
  ⟨h.pool, h.upvalues, h.nested⟩

end Stays

structure Keeps (s s' : State) : Prop extends Stays s s' where
  vars : s'.vars = s.vars
  labels : s'.labels = s.labels
  gotos : s'.gotos = s.gotos
  scope : s'.fn.scope = s.fn.scope
  locals : s'.fn.locals = s.fn.locals

namespace Keeps

theorem refl (s : State) : Keeps s s := 
  { Stays.refl s with vars := rfl, labels := rfl, gotos := rfl, scope := rfl, locals := rfl }

theorem trans {s s' s'' : State} (h : Keeps s s') (h' : Keeps s' s'') : Keeps s s'' :=
  { h.toStays.trans h'.toStays with
    vars := h'.vars.trans h.vars
    labels := h'.labels.trans h.labels
    gotos := h'.gotos.trans h.gotos
    scope := h'.scope.trans h.scope
    locals := h'.locals.trans h.locals }

theorem waiting {s s' : State} (h : Keeps s s') : s'.waiting = s.waiting := by
  unfold State.waiting
  rw [h.vars, h.labels, h.gotos, h.scope]

theorem level {s s' : State} (h : Keeps s s') : s'.level = s.level := by
  have h₁ : s'.fn.firstVar = s.fn.firstVar := congrArg FnScope.firstVar h.scope
  have h₂ : s'.fn.active = s.fn.active := congrArg FnScope.active h.scope
  unfold State.level
  rw [h.vars, h₁, h₂]

theorem active {s s' : State} (h : Keeps s s') : s'.fn.active = s.fn.active :=
  congrArg FnScope.active h.scope

theorem firstVar {s s' : State} (h : Keeps s s') : s'.fn.firstVar = s.fn.firstVar :=
  congrArg FnScope.firstVar h.scope

end Keeps

/-- What emitting code keeps: also the registers in use. -/
structure Coded (s s' : State) : Prop extends Keeps s s' where
  freeReg : s'.fn.freeReg = s.fn.freeReg
  maxStack : s'.fn.maxStack = s.fn.maxStack

namespace Coded

theorem refl (s : State) : Coded s s := { Keeps.refl s with freeReg := rfl, maxStack := rfl }

theorem trans {s s' s'' : State} (h : Coded s s') (h' : Coded s' s'') : Coded s s'' :=
  { h.toKeeps.trans h'.toKeeps with
    freeReg := h'.freeReg.trans h.freeReg
    maxStack := h'.maxStack.trans h.maxStack }

end Coded

/-- A relation between the states before and after an action. -/
class Steps (R : State → State → Prop) : Prop where
  refl : ∀ s : State, R s s
  trans : ∀ {s s' s'' : State}, R s s' → R s' s'' → R s s''
  logs : ∀ {s s' : State}, R s s' → Logs s s'

/-- A relation between the states before and after an action that may emit code. -/
class Frame (R : State → State → Prop) : Prop extends Steps R where
  coded : ∀ {s s' : State}, Coded s s' → R s s'

/-- A relation between the states before and after an action that may use registers. -/
class Wide (R : State → State → Prop) : Prop extends Frame R where
  keeps : ∀ {s s' : State}, Keeps s s' → R s s'

instance : Steps Coded := ⟨Coded.refl, Coded.trans, fun h => h.toLogs⟩

instance : Steps Keeps := ⟨Keeps.refl, Keeps.trans, fun h => h.toLogs⟩

instance : Steps Stays := ⟨Stays.refl, Stays.trans, Stays.toLogs⟩

instance : Frame Coded := ⟨id⟩

instance : Frame Keeps := ⟨Coded.toKeeps⟩

instance : Frame Stays := ⟨fun h => h.toStays⟩

instance : Wide Keeps := ⟨id⟩

instance : Wide Stays := ⟨Keeps.toStays⟩

/-- The action breaks no assertion. If it ends with a result, the states before and after it are
related; and even if it fails, no name has been taken for a wrong declaration on the way, and no
variable written that may not be. -/
def Via (R : State → State → Prop) {α : Type} (m : M α) (s : State) (Q : α → State → Prop) : Prop :=
  match m s with
  | .ok a s' => R s s' ∧ Q a s'
  | .error e s' => Aborts s e s'

theorem bind_eq {α β : Type} {m : M α} {f : α → M β} {a : α} {s t : State} (h : m s = .ok a t) :
    (m >>= f) s = f a t := by
  show EStateM.bind m f s = _
  unfold EStateM.bind
  rw [h]

namespace Via

variable {R : State → State → Prop} {α β : Type} {m : M α} {s : State} {P Q : α → State → Prop}

theorem of_eq {a : α} {s' : State} (h : m s = .ok a s') (hr : R s s') (hq : Q a s') :
    Via R m s Q := by
  unfold Via
  rw [h]
  exact ⟨hr, hq⟩

theorem mono (h : Via R m s P) (hi : ∀ a s', R s s' → P a s' → Q a s') : Via R m s Q := by
  unfold Via at h ⊢
  split at h
  · exact ⟨h.1, hi _ _ h.1 h.2⟩
  · exact h

theorem weaken {R' : State → State → Prop} (h : Via R m s Q) (hi : ∀ s', R s s' → R' s s') :
    Via R' m s Q := by
  unfold Via at h ⊢
  split at h
  · exact ⟨hi _ h.1, h.2⟩
  · exact h

theorem bind [Steps R] {f : α → M β} {Q : β → State → Prop} (h : Via R m s P)
    (hf : ∀ a s', R s s' → P a s' → Via R (f a) s' Q) : Via R (m >>= f) s Q := by
  unfold Via at h ⊢
  show match EStateM.bind m f s with | .ok a s' => R s s' ∧ Q a s' | .error e s' => _
  unfold EStateM.bind
  cases hm : m s with
  | error e s' =>
    rw [hm] at h
    exact h
  | ok a s' =>
    rw [hm] at h
    have hrest := hf a s' h.1 h.2
    unfold Via at hrest
    cases hfa : f a s' with
    | ok b s'' =>
      rw [hfa] at hrest
      simp only [hfa]
      exact ⟨Steps.trans h.1 hrest.1, hrest.2⟩
    | error e s'' =>
      rw [hfa] at hrest
      simp only [hfa]
      exact hrest.after (Steps.logs h.1)

theorem pure [Steps R] {a : α} (h : Q a s) : Via R (Pure.pure a) s Q :=
  ⟨Steps.refl s, h⟩

theorem map {f : α → β} {Q : β → State → Prop} (h : Via R m s fun a s' => Q (f a) s') :
    Via R (f <$> m) s Q := by
  unfold Via at h ⊢
  show match EStateM.map f m s with | .ok a s' => R s s' ∧ Q a s' | .error e s' => _
  unfold EStateM.map
  cases hm : m s with
  | ok | error =>
    rw [hm] at h
    exact h

theorem discard {Q : PUnit → State → Prop} (h : Via R m s fun _ s' => Q ⟨⟩ s') :
    Via R (discard m) s Q := Via.map h

theorem get [Steps R] {Q : State → State → Prop} (h : Q s s) : Via R MonadState.get s Q :=
  ⟨Steps.refl s, h⟩

theorem ofFn [Steps R] {f : Builder → α} (h : Q (f s.fn) s) : Via R (ofFn f) s Q :=
  ⟨Steps.refl s, h⟩

theorem ite {c : Prop} [Decidable c] {m' : M α} (h : c → Via R m s Q) (h' : ¬ c → Via R m' s Q) :
    Via R (if c then m else m') s Q := by
  split
  · exact h ‹_›
  · exact h' ‹_›

theorem syntaxError {message : Bytes} : Via R (syntaxError message) s Q :=
  Aborts.of_same trivial rfl rfl rfl rfl

theorem semanticError {message : Bytes} (h : Failure.refusalStart.isPrefixOf message = false) :
    Via R (semanticError message) s Q :=
  Aborts.of_same trivial (by rw [Failure.isRefusal, h, Bool.and_false]) rfl rfl rfl

theorem limitError {limit : Int} {what : String} : Via R (limitError limit what) s Q :=
  Aborts.of_same trivial rfl rfl rfl rfl

theorem iterate [Steps R] {turn : α → M (Turn α β)} {Q : β → State → Prop} {I : α → State → Prop}
    (hturn : ∀ a s, I a s → Via R (turn a) s fun t s' =>
      match t with
      | .again a' => I a' s' ∧ s'.lexer.measure < s.lexer.measure
      | .done b => Q b s')
    (n : Nat) {a : α} {s : State} (h : I a s) (hn : s.lexer.measure < n) :
    Via R (Compile.iterate turn n a) s Q := by
  induction n generalizing a s with
  | zero => omega
  | succ n ih =>
    refine Via.bind (m := tokensTaken) (P := fun n s' => n = s'.lexer.taken ∧ s' = s)
      ⟨Steps.refl s, rfl, rfl⟩ ?_
    rintro _ s - ⟨rfl, rfl⟩
    refine Via.bind (hturn a s h) ?_
    intro t s' hs ht
    cases t with
    | again a' =>
      have htokens := (Steps.logs hs).tokens
      refine Via.bind (Via.of_eq (Q := fun _ s'' => s'' = s') (checkAdvance_of_lt (by omega))
        (Steps.refl s') rfl) ?_
      rintro _ _ _ rfl
      exact ih ht.1 (by omega)
    | done b => exact Via.pure ht

theorem repeatTurn [Steps R] {turn : α → M (Turn α β)} {Q : β → State → Prop}
    (I : α → State → Prop) {a : α} (h : I a s) (hp : s.lexer.measure < s.bound)
    (hturn : ∀ a s, I a s → Via R (turn a) s fun t s' =>
      match t with
      | .again a' => I a' s' ∧ s'.lexer.measure < s.lexer.measure
      | .done b => Q b s') :
    Via R (Compile.repeatTurn turn a) s Q := by
  unfold Compile.repeatTurn
  exact Via.bind (Via.get (Q := fun t s' => t = s ∧ s' = s) ⟨rfl, rfl⟩)
    fun t s' _ ⟨ht, hs⟩ => by
      subst ht hs
      exact Via.iterate hturn _ h hp

end Via

end Compile

end LuaChunk
