import LuaChunk.Proofs.Compile.Chunk
import LuaChunk.Proofs.Source.Lines
import LuaChunk.Proofs.Syntax.Results
import LuaChunk.Proofs.Syntax.Scope
import LuaChunk.Proofs.Syntax.Tree

set_option autoImplicit false

namespace LuaChunk

open Compile

/-- Something that is done one level deeper, where `n` levels are left. -/
def Compile.deeper {α : Type} (n : Nat) (m : Nat → M α) : M α :=
  match n with
  | 0 => tooDeep
  | n + 1 => m n

/-- Codes a tree as the parser does that reads its text from line 1, with a number of levels left.
Parentheses take levels as well, but the coding of the tree needs none for them. -/
def Tree.emit : Tree → (levels : Nat) → M Exp
  | .name s, _ => readVariable s
  | .int n, _ => pure ⟨.int n, none, none⟩
  | .float x, _ => pure ⟨.float x, none, none⟩
  | .string s, _ => pure ⟨.str s, none, none⟩
  | .nil, _ => pure ⟨.nil, none, none⟩
  | .true_, _ => pure ⟨.true_, none, none⟩
  | .false_, _ => pure ⟨.false_, none, none⟩
  | .unary op t, n => do unaryExp op (← deeper n t.emit) 1
  | .binary op l r, n => do
    let e ← l.emit n
    let left ← prepareLeft op.op e
    let right ← deeper n r.emit
    binaryExp op.op left right 1

/-- A lexer on line 1 that has some tokens to give, the first of which is the current one. The
spelling of the tokens does not matter. -/
structure Lexer.Gives (l : Lexer) (ts : List Token) : Prop where
  failure : l.failure = none
  token : l.token.bare = ts.headD .eos
  rest : ∃ rest, rest.map Token.bare = ts.tail ∧ l.Yields rest
  onLine : l.OnLine 1
  lastLine : l.lastLine = 1

namespace Lexer.Gives

variable {l : Lexer} {t : Token} {ts : List Token}

theorem kind (h : l.Gives ts) : l.token.kind = (ts.headD .eos).kind := by
  rw [← Token.kind_bare, h.token]

theorem next (h : l.Gives (t :: ts)) : ∃ l', Lexer.next l = .ok () l' ∧ l'.Gives ts ∧
    l'.source = l.source := by
  obtain ⟨rest, hrest, hy⟩ := h.rest
  obtain ⟨l', hn, ht, hy', hf, -⟩ := next_yields h.failure hy
  obtain ⟨hline, hlast, hsource⟩ := onLine_next h.failure h.onLine hn
  have hrest' : rest.map Token.bare = ts := hrest
  refine ⟨l', hn, ⟨hf, ?_, ⟨rest.tail, ?_, hy'⟩, hline, hlast⟩, hsource⟩
  · rw [ht, ← hrest']
    cases rest <;> rfl
  · rw [← hrest', List.map_tail]

theorem nextName (d : Option Nat) (h : l.Gives (t :: ts)) :
    ∃ l', Lexer.nextName d l = .ok () l' ∧ l'.Gives ts ∧ l'.source = l.source := by
  have h' : Lexer.Gives { l with bindings := l.bindings.push (l.number, d) } (t :: ts) :=
    ⟨h.failure, h.token, h.rest, ⟨h.onLine.1, h.onLine.2⟩, h.lastLine⟩
  exact h'.next

end Lexer.Gives

namespace Compile

/-- The main function, with nothing declared but the environment and no goto waiting. -/
structure State.Untouched (c : State) : Prop where
  vars : c.vars = #[]
  outer : c.outer = []
  upvalues : c.fn.upvalues = #[envUpvalue]
  gotos : c.gotos = #[]

/-- A state `s` with some tokens to read, and the state `c` of coding without tokens. -/
structure At (ts : List Token) (s c : State) : Prop where
  core : s.withStream c.lexer c.progress = c
  place : s.lexer.SamePlace c.lexer
  gives : s.lexer.Gives ts
  fresh : c.Untouched

/-- Whether a failure tells nothing of the code: an assertion is broken, or the source is nested too
deep. -/
inductive Silent : Failure → Prop
  | broken (a : Assertion) : Silent (.broken a)
  | deep {e : CompileError} (h : e.message = utf8 "C stack overflow") : Silent (.error e)

/-- A run of the parser does what a run without tokens does, and leaves some tokens. -/
inductive Sim {α : Type} (ts : List Token) : (r r' : EStateM.Result Failure State α) → Prop
  | ok {a : α} {s c : State} (h : At ts s c) : Sim ts (.ok a s) (.ok a c)
  | error {e e' : Failure} {s c : State} (h : SameFailure false e e') : Sim ts (.error e s)
    (.error e' c)
  | lost {e : Failure} {s : State} {r : EStateM.Result Failure State α} (h : Silent e) : Sim ts
    (.error e s) r

variable {α β : Type} {ts ts' rest : List Token} {t : Token} {s c : State} {m m' : M α}
  {f f' : α → M β}

theorem State.Untouched.of_sameNames (h : c.Untouched) (hs : c.SameNames s) : s.Untouched :=
  ⟨hs.vars.trans h.vars, hs.outer.trans h.outer, hs.upvalues.trans h.upvalues,
    hs.gotos.trans h.gotos⟩

/-- The code generator does the same with and without tokens, where nothing is declared by it. -/
theorem Coding.sim_of {keeps : Bool} (h : Coding keeps false m) (hat : At ts s c)
    (hfresh : ∀ a c', m c = .ok a c' → c'.Untouched) : Sim ts (m s) (m c) := by
  have hrun := h.sameRun s c.lexer c.progress hat.place
  rw [hat.core] at hrun
  generalize m s = r at hrun
  generalize m c = r' at hrun hfresh
  cases hrun with
  | error h => exact .error h
  | @ok a t hl hb _ => exact .ok ⟨rfl, hl ▸ hat.place, hl ▸ hat.gives, hfresh _ _ rfl⟩

theorem Coding.keeps_untouched (h : Coding true false m) (hc : c.Untouched) {a : α} {c' : State}
    (hm : m c = .ok a c') :
    c'.Untouched := by
  have hrun := h.sameRun c c.lexer c.progress ⟨rfl, rfl, rfl⟩
  rw [hm] at hrun
  generalize m (c.withStream c.lexer c.progress) = r at hrun
  cases hrun with
  | ok _ _ hk => exact hc.of_sameNames (hk rfl)

theorem Coding.sim (h : Coding true false m) (hat : At ts s c) : Sim ts (m s) (m c) :=
  h.sim_of hat fun _ _ => h.keeps_untouched hat.fresh

theorem Sim.bind_of (h : Sim ts (m s) (m' c))
    (hf : ∀ a s' c', m' c = .ok a c' → At ts s' c' → Sim ts' (f a s') (f' a c')) :
    Sim ts' ((m >>= f) s) ((m' >>= f') c) := by
  show Sim ts' (EStateM.bind m f s) (EStateM.bind m' f' c)
  unfold EStateM.bind
  generalize m s = r at h
  generalize hr : m' c = r' at h
  cases h with
  | ok h => exact hf _ _ _ hr h
  | error h => exact .error h
  | lost h => exact .lost h

theorem Sim.bind (h : Sim ts (m s) (m' c))
    (hf : ∀ a s' c', At ts s' c' → Sim ts' (f a s') (f' a c')) :
    Sim ts' ((m >>= f) s) ((m' >>= f') c) := h.bind_of fun a s' c' _ => hf a s' c'

theorem Sim.pure (h : At ts s c) (a : α) : Sim ts ((Pure.pure a : M α) s) ((Pure.pure a : M α) c) :=
  .ok h

theorem Sim.advanced {r : EStateM.Result Failure State α} {taken : Nat} (h : Sim ts (m s) r) :
    Sim ts ((checkAdvance taken >>= fun _ => m) s) r := by
  by_cases hlt : taken < s.lexer.taken
  · rw [Compile.bind_eq (checkAdvance_of_lt hlt)]
    exact h
  · show Sim ts (EStateM.bind (checkAdvance taken) _ s) r
    rw [EStateM.bind, checkAdvance_of_not_lt hlt]
    exact .lost (.broken _)

theorem At.atLevel (h : At ts s c) (depth deepest : Nat) : At ts { s with depth, deepest } c :=
  { h with core := h.core }

theorem Sim.metered (hat : At ts s c) (h : ∀ s, At ts s c → Sim ts' (m s) (m' c)) :
    Sim ts' (metered m s) (m' c) := by
  have hm := h _ (hat.atLevel (s.depth + 1) (max s.deepest (s.depth + 1)))
  rw [← bind_pure m']
  exact hm.bind fun a s' c' hat' => .ok (hat'.atLevel _ _)

theorem At.move (h : At ts s c) {l : Lexer} (hl : l.Gives ts') (hs : l.source = s.lexer.source) :
    At ts' { s with lexer := l } c where
  core := h.core
  place := {
    line := by rw [h.place.line, h.gives.onLine.line, hl.onLine.line]
    lastLine := by rw [h.place.lastLine, h.gives.lastLine, hl.lastLine]
    source := by rw [h.place.source, hs] }
  gives := hl
  fresh := h.fresh

theorem At.next (h : At (t :: ts) s c) : ∃ s', next s = .ok () s' ∧ At ts s' c := by
  obtain ⟨l', hn, hg, hsource⟩ := h.gives.next
  refine ⟨{ s with lexer := l' }, ?_, h.move hg hsource⟩
  show onLexer Lexer.next s = _
  unfold onLexer
  dsimp only
  rw [hn]

theorem At.nextName (d : Option Nat) (h : At (t :: ts) s c) : ∃ s', nextName d s = .ok () s' ∧
    At ts s' c := by
  obtain ⟨l', hn, hg, hsource⟩ := h.gives.nextName d
  refine ⟨{ s with lexer := l' }, ?_, h.move hg hsource⟩
  show onLexer (Lexer.nextName d) s = _
  unfold onLexer
  dsimp only
  rw [hn]

theorem At.currentKind (h : At ts s c) : currentKind s = .ok (ts.headD .eos).kind s := by
  show EStateM.Result.ok s.lexer.token.kind s = _
  rw [h.gives.kind]

theorem At.currentLine (h : At ts s c) : currentLine s = .ok 1 s := by
  show EStateM.Result.ok s.lexer.line s = _
  rw [h.gives.onLine.line]

def operatorTurn (r : Nested) (limit : Nat) : Exp × Option BinaryOp →
    M (Turn (Exp × Option BinaryOp) (Exp × Option BinaryOp)) :=
  fun (e, op?) => do
    match op? with
    | none => return .done (e, none)
    | some op =>
      if op.priority.1 ≤ limit then return .done (e, some op)
      let line ← Compile.currentLine
      Compile.next
      let left ← prepareLeft op e
      let (right, after) ← r.subExpr op.priority.2
      return .again (← binaryExp op left right line, after)

theorem subExpression_eq (r : Nested) (limit : Nat) : subExpression r limit = (do
    let e ← match unaryOp? (← Compile.currentKind) with
      | some op =>
        let line ← Compile.currentLine
        Compile.next
        let (e, _) ← r.subExpr unaryPriority
        unaryExp op e line
      | none => simpleExpression r
    let op := binaryOp? (← Compile.currentKind)
    repeatTurn (operatorTurn r limit) (e, op)) := rfl

/-- What may stand after an expression: the end, a closing parenthesis, or an operator that does not
bind tighter than `stop`. -/
def MayFollow (stop : Nat) (rest : List Token) : Prop :=
  match binaryOp? (rest.headD .eos).kind with
  | some op => op.priority.1 ≤ stop
  | none => (rest.headD .eos).kind = .eos ∨ (rest.headD .eos).kind = .char ')'

theorem MayFollow.ends {stop : Nat} (h : MayFollow stop rest) {k : TokenKind}
    (hk : k = (rest.headD .eos).kind) :
    k ≠ .char '.' ∧ k ≠ .char '[' ∧ k ≠ .char ':' ∧ k ≠ .char '(' ∧ k ≠ .string ∧ k ≠ .byte 123 ∧
      k ≠ .char ',' := by
  unfold MayFollow at h
  rw [← hk] at h
  refine ⟨?_, ?_, ?_, ?_, ?_, ?_, ?_⟩
  all_goals
    rintro rfl
    rcases h with h | h <;> cases h

theorem entry?_untouched (h : c.Untouched) (name : Bytes) :
    c.fn.entry? name = if name = envName then some (0, VarKind.regular.number) else none := by
  unfold Builder.entry?
  rw [h.upvalues]
  by_cases hname : name = envName
  · subst hname
    simp [envUpvalue]
  · have hne : (some envName == some name) = false := by simpa using Ne.symm hname
    simp [hname, envUpvalue, hne]

/-- What a name means where nothing is declared but the environment. -/
def bareMeaning (name : Bytes) : Meaning :=
  if name = envName then .upvalue 0 VarKind.regular.number else .undeclared .free

theorem resolve_untouched (h : c.Untouched) (name : Bytes) :
    (∃ strayed, resolve name c = .ok (bareMeaning name) { c with strayed }) ∨
      resolve name c = .error (.broken .indexInRange) c := by
  have hsearch : c.fn.active = 0 ∨ searchFrom c.vars c.fn.firstVar name c.fn.active .free =
      none := by
    cases c.fn.active with
    | zero => exact .inl rfl
    | succ n =>
      right
      rw [h.vars]
      rfl
  have hlength : c.outer.length = 0 := by rw [h.outer, List.length_nil]
  rw [resolve_eq, hlength, resolveFrom_eq]
  rcases hsearch with hactive | hnone
  · left
    have hfree : searchFrom c.vars c.fn.firstVar name 0 .free = some (.undeclared .free) := rfl
    rw [hactive, hfree]
    dsimp only
    unfold resolveOutward bareMeaning
    rw [bind_eq (findUpvalue?_eq name c), entry?_untouched h]
    by_cases hname : name = envName
    · simp only [if_pos hname]
      exact ⟨_, rfl⟩
    · simp only [if_neg hname]
      exact ⟨c.strayed, rfl⟩
  · rw [hnone]
    exact .inr rfl

theorem meaning_untouched (h : c.Untouched) {name : Bytes} {meaning : Meaning} {c' : State}
    (hr : resolve name c = .ok meaning c') :
    meaning = bareMeaning name ∧ c'.Untouched := by
  rcases resolve_untouched h name with ⟨strayed, he⟩ | he <;> rw [he] at hr <;> cases hr
  exact ⟨rfl, h.vars, h.outer, h.upvalues, h.gotos⟩

theorem sim_resolve (hat : At ts s c) (name : Bytes) : Sim ts (resolve name s) (resolve name c) :=
  (coding_resolve name).sim_of hat fun _ _ hr => (meaning_untouched hat.fresh hr).2

theorem sim_globalAccess (hat : At ts s c) (name : Bytes) : Sim ts (globalAccess name s)
    (globalAccess name c) := by
  unfold globalAccess
  refine (sim_resolve hat envName).bind_of fun meaning s' c' hr hat' => ?_
  obtain ⟨rfl, -⟩ := meaning_untouched hat.fresh hr
  refine ((coding_noteMeaning envName _).sim hat').bind fun _ s' c' hat' => ?_
  rw [bareMeaning, if_pos rfl]
  exact Coding.sim inferInstance hat'

theorem sim_variableExp (hat : At ts s c) (name : Bytes) : Sim ts (variableExp name s)
    (variableExp name c) := by
  unfold variableExp
  refine (sim_resolve hat name).bind_of fun meaning s' c' hr hat' => ?_
  obtain ⟨rfl, -⟩ := meaning_untouched hat.fresh hr
  refine ((coding_noteMeaning name _).sim hat').bind fun _ s' c' hat' => ?_
  unfold bareMeaning
  split
  · exact .pure hat' _
  · exact (sim_globalAccess hat' name).bind fun e _ _ h => .pure h e

theorem unaryOp?_token (op : UnaryOp) : unaryOp? op.token.kind = some op := by cases op <;> rfl

theorem results_emit (t : Tree) (n : Nat) : Results (fun e => e.isMulti = false) (t.emit n) := by
  cases t with
  | name s => exact (results_readVariable s).mono fun _ => Exp.isMulti_of_isVariable
  | unary op t => exact .seq fun e => (results_unaryExp ..).mono fun _ h => h.notMulti
  | binary op l r =>
    exact .seq fun e => .seq fun left => .seq fun right => (results_binaryExp ..).mono fun _ h =>
      h.notMulti
  | _ => exact .pure rfl

theorem results_deeper {P : α → Prop} {g : Nat → M α} (h : ∀ n, Results P (g n)) (n : Nat) :
    Results P (deeper n g) := by
  cases n with
  | zero => exact .seq fun _ => .fail ..
  | succ n => exact h n

def closeParenthesis (e : Exp) : M Exp := do
  let e ← dischargeVars e
  noteTarget none
  return e

theorem emit_closeParenthesis {t : Tree} (h : t.isOperation = true) (n : Nat) :
    t.emit n >>= closeParenthesis = t.emit n := by
  have hclose : ∀ m : M Exp, Results Exp.IsValue m →
      (do let e ← m; noteTarget none; return e : M Exp) >>= closeParenthesis =
      (do let e ← m; noteTarget none; return e) := by
    intro m hm
    simp only [bind_assoc, pure_bind]
    refine hm.bind_congr fun e he => ?_
    unfold closeParenthesis
    rw [dischargeVars_value he, pure_bind]
    rfl
  cases t with
  | unary op t =>
    unfold Tree.emit unaryExp
    rw [bind_assoc]
    exact congrArg (deeper n t.emit >>= ·) (funext fun e => hclose _ (results_applyUnary ..))
  | binary op l r =>
    unfold Tree.emit binaryExp
    simp only [bind_assoc]
    refine congrArg (l.emit n >>= ·)
      (funext fun e => congrArg (prepareLeft op.op e >>= ·) (funext fun left => ?_))
    simpa only [bind_assoc] using congrArg (deeper n r.emit >>= ·)
      (funext fun right => hclose _ (results_applyBinary ..))
  | _ => cases h

/-- The first action does what the second one does, unless the source is nested too deep for it. -/
def Shallower {α : Type} (m m' : M α) : Prop :=
  ∀ c, m c = m' c ∨ ∃ e c', m c = .error (.error e) c' ∧ e.message = utf8 "C stack overflow"

namespace Shallower

theorem refl (m : M α) : Shallower m m := fun _ => .inl rfl

theorem bind (h : Shallower m m') (hf : ∀ a, Shallower (f a) (f' a)) : Shallower (m >>= f)
    (m' >>= f') := by
  intro c
  show EStateM.bind m f c = EStateM.bind m' f' c ∨ ∃ e c', EStateM.bind m f c = _ ∧ _
  unfold EStateM.bind
  rcases h c with heq | ⟨e, c', he, hmessage⟩
  · rw [heq]
    cases m' c with
    | ok a c' => exact hf a c'
    | error e c' => exact .inl rfl
  · rw [he]
    exact .inr ⟨e, c', rfl, hmessage⟩

end Shallower

theorem shallower_deeper {g : Nat → M α} (h : ∀ n, Shallower (g n) (g (n + 1))) (n : Nat) :
    Shallower (deeper n g) (g n) := by
  cases n with
  | zero => exact fun c => .inr ⟨_, c, rfl, rfl⟩
  | succ n => exact h n

theorem shallower_emit (t : Tree) : ∀ n, Shallower (t.emit n) (t.emit (n + 1)) := by
  induction t with
  | unary op t ih => exact fun n => (shallower_deeper ih n).bind fun _ => .refl _
  | binary op l r ihl ihr =>
    exact fun n => (ihl n).bind fun _ => (Shallower.refl _).bind fun _ =>
      (shallower_deeper ihr n).bind fun _ => .refl _
  | _ => exact fun n => .refl _

theorem Sim.of_shallower {r : EStateM.Result Failure State α} (h : Shallower m m')
    (hs : Sim ts r (m c)) : Sim ts r (m' c) := by
  rcases h c with heq | ⟨e, c', he, hmessage⟩
  · rwa [← heq]
  · rw [he] at hs
    cases hs with
    | lost h => exact .lost h
    | error h =>
      cases h with
      | error h _ => exact .lost (.deep (h.message.symm.trans hmessage))

/-- A text is read as the tree is coded, where operators above `limit` are read and a text follows
that the tree cannot take anything of. `K` is what is coded after the tree. -/
def TextReads (limit stop : Nat) (tree : Tree) (ts : List Token) : Prop :=
  ∀ (n : Nat) (rest rest' : List Token) (s c : State) (K : Exp → M (Exp × Option BinaryOp)),
    MayFollow stop rest → At (ts ++ rest) s c →
    (∀ (e : Exp) (s' c' : State) (k : Nat), At rest s' c' →
      Sim rest' (iterate (operatorTurn (nested n) limit) k (e, binaryOp? (rest.headD .eos).kind) s')
        (K e c')) →
    Sim rest' (subExpression (nested n) limit s) ((tree.emit n >>= K) c)

theorem sim_operators {limit : Nat} {n : Nat} {K : Exp → M (Exp × Option BinaryOp)}
    (hK : ∀ (e : Exp) (s' c' : State) (k : Nat), At ts s' c' →
      Sim ts' (iterate (operatorTurn (nested n) limit) k (e, binaryOp? (ts.headD .eos).kind) s')
        (K e c'))
    (e : Exp) (hat : At ts s c) :
    Sim ts' ((do
      let op := binaryOp? (← Compile.currentKind)
      repeatTurn (operatorTurn (nested n) limit) (e, op)) s) (K e c) := by
  rw [Compile.bind_eq hat.currentKind]
  exact hK e s c s.bound hat

theorem operatorTurn_stops {limit stop : Nat} (r : Nested) (h : MayFollow stop rest)
    (hs : stop ≤ limit) (e : Exp) :
    operatorTurn r limit (e, binaryOp? (rest.headD .eos).kind)
      = (pure (.done (e, binaryOp? (rest.headD .eos).kind)) : M _) := by
  unfold MayFollow at h
  unfold operatorTurn
  cases ho : binaryOp? (rest.headD .eos).kind with
  | none => rfl
  | some op =>
    rw [ho] at h
    have hle : op.priority.1 ≤ limit := Nat.le_trans h hs
    simp only [if_pos hle]

theorem iterate_operator {limit : Nat} {op : BinaryOp} (r : Nested) (h : ¬ op.priority.1 ≤ limit)
    (k : Nat) (e : Exp) :
    iterate (operatorTurn r limit) (k + 1) (e, some op) = (do
      let taken ← tokensTaken
      let line ← Compile.currentLine
      Compile.next
      let left ← prepareLeft op e
      let p ← r.subExpr op.priority.2
      let e ← binaryExp op left p.1 line
      checkAdvance taken
      iterate (operatorTurn r limit) k (e, p.2)) := by
  have hturn : operatorTurn r limit (e, some op) = (do
      let line ← Compile.currentLine
      Compile.next
      let left ← prepareLeft op e
      let p ← r.subExpr op.priority.2
      return .again (← binaryExp op left p.1 line, p.2)) := by
    unfold operatorTurn
    simp only [if_neg h]
  rw [iterate, hturn]
  simp only [bind_assoc, pure_bind]

theorem TextReads.operand {limit stop : Nat} {tree : Tree} {ts : List Token}
    (h : TextReads limit stop tree ts) (n : Nat)
    {rest : List Token} {s c : State} (hs : stop ≤ limit) (hrest : MayFollow stop rest)
    (hat : At (ts ++ rest) s c) :
    Sim rest ((nested n).subExpr limit s)
      ((deeper n tree.emit >>= fun e => pure (e, binaryOp? (rest.headD .eos).kind)) c) := by
  cases n with
  | zero => exact .lost (.deep rfl)
  | succ n =>
    refine .metered hat fun s hat => h n rest rest s c _ hrest hat fun e s' c' k hat' => ?_
    cases k with
    | zero => exact .lost (.broken _)
    | succ k =>
      rw [iterate, Compile.bind_eq (tokensTaken_eq s'), operatorTurn_stops _ hrest hs]
      exact .pure hat' _

theorem sim_suffixed {stop : Nat} {r : Nested} {m : M Exp} (hrest : MayFollow stop rest)
    (hat : At ts s c)
    (h : Sim rest (primary r s) (m c)) : Sim rest (suffixed r s) (m c) := by
  unfold suffixed
  rw [Compile.bind_eq hat.currentLine, ← bind_pure m]
  refine h.bind fun e s' c' hat' => ?_
  obtain ⟨h₁, h₂, h₃, h₄, h₅, h₆, -⟩ := hrest.ends rfl
  show Sim rest (iterate _ s'.bound e s') _
  cases s'.bound with
  | zero => exact .lost (.broken _)
  | succ k =>
    rw [iterate, Compile.bind_eq (tokensTaken_eq s'), bind_assoc, Compile.bind_eq hat'.currentKind]
    simp only [h₁, h₂, h₃, h₄, h₅, h₆, if_false, decide_false, Bool.or_self, Bool.false_eq_true]
    exact .pure hat' e

theorem At.currentToken (hat : At (t :: rest) s c) (ht : ∀ u : Token, u.bare = t → u = t) :
    currentToken s = .ok t s := by
  show EStateM.Result.ok s.lexer.token s = _
  rw [ht _ hat.gives.token]

theorem sim_takeVariable {name : Bytes} (hat : At (.name name :: rest) s c) :
    Sim rest (takeVariable s) (readVariable name c) := by
  have hcurrent : currentToken s = .ok (.name name) s := hat.currentToken fun u hu => by
    cases u <;> cases hu
    rfl
  obtain ⟨s', hs, hat'⟩ := hat.nextName (s.declarationOf name)
  unfold takeVariable
  rw [Compile.bind_eq hcurrent]
  show Sim rest ((Compile.nextName (s.declarationOf name) >>= fun _ => readVariable name) s) _
  rw [Compile.bind_eq hs]
  exact (sim_variableExp hat' name).bind fun e _ _ hat => Coding.sim inferInstance hat

theorem sim_name {stop : Nat} {r : Nested} {name : Bytes} (hrest : MayFollow stop rest)
    (hat : At (.name name :: rest) s c) :
    Sim rest (simpleExpression r s) (readVariable name c) := by
  have hcurrent : currentToken s = .ok (.name name) s := hat.currentToken fun u hu => by
    cases u <;> cases hu
    rfl
  have hprimary : primary r s = takeVariable s := by
    unfold primary
    rw [Compile.bind_eq hcurrent]
  have hsimple : simpleExpression r s = suffixed r s := by
    unfold simpleExpression
    rw [Compile.bind_eq hcurrent]
    rfl
  rw [hsimple]
  refine sim_suffixed hrest hat ?_
  rw [hprimary]
  exact sim_takeVariable hat

theorem sim_constant {r : Nested} {kind : ExpKind} {t : Token} (hat : At (t :: rest) s c)
    (h : simpleExpression r s = (do Compile.next; return Exp.mk kind none none : M Exp) s) :
    Sim rest (simpleExpression r s) ((pure ⟨kind, none, none⟩ : M Exp) c) := by
  obtain ⟨s', hs, hat'⟩ := hat.next
  rw [h, Compile.bind_eq hs]
  exact .pure hat' _

theorem sim_leaf {stop : Nat} {r : Nested} {tree : Tree} (h : tree.isOperation = false)
    (hrest : MayFollow stop rest)
    (hat : At (tree.leaf :: rest) s c) (n : Nat) : Sim rest (simpleExpression r s)
    (tree.emit n c) := by
  have hcurrent : currentToken s = .ok s.lexer.token s := rfl
  have htoken : s.lexer.token.bare = tree.leaf := hat.gives.token
  cases tree with
  | unary | binary => cases h
  | name name => exact sim_name hrest hat
  | _ =>
    refine sim_constant hat ?_
    unfold simpleExpression
    rw [Compile.bind_eq hcurrent]
    cases ht : s.lexer.token <;> rw [ht] at htoken <;> cases htoken
    rfl

theorem sim_parenthesized {stop : Nat} {tree : Tree} (n : Nat) (ht : tree.isOperation = true)
    (h : TextReads 0 0 tree ts) (hrest : MayFollow stop rest)
    (hat : At (Tree.parenthesized ts ++ rest) s c) :
    Sim rest (simpleExpression (nested n) s) (tree.emit n c) := by
  have hat : At (.byte (byte '(') :: (ts ++ .byte (byte ')') :: rest)) s c := by
    simpa [Tree.parenthesized] using hat
  have hcurrent : currentToken s = .ok (.byte (byte '(')) s := hat.currentToken fun u hu => by
    cases u <;> cases hu
    rfl
  obtain ⟨s', hs, hat'⟩ := hat.next
  have hprimary : primary (nested n) s = (do
      let p ← (nested n).subExpr 0
      checkMatch (.char ')') (.char '(') 1
      closeParenthesis p.1 : M Exp) s' := by
    unfold primary
    rw [Compile.bind_eq hcurrent]
    have hopen : (Token.byte (byte '(')).kind = .char '(' := rfl
    dsimp only
    rw [if_pos hopen, Compile.bind_eq hat.currentLine, Compile.bind_eq hs]
    unfold expression
    rw [bind_assoc]
    rfl
  have hsimple : simpleExpression (nested n) s = suffixed (nested n) s := by
    unfold simpleExpression
    rw [Compile.bind_eq hcurrent]
    rfl
  rw [hsimple]
  refine sim_suffixed hrest hat ?_
  have hfollow : MayFollow 0 (.byte (byte ')') :: rest) := .inr rfl
  have hvalue : tree.emit n =
      (tree.emit n >>= fun e => pure (e, binaryOp? (TokenKind.char ')'))) >>= fun p =>
      closeParenthesis p.1 := by
    rw [bind_assoc]
    simp only [pure_bind]
    exact (emit_closeParenthesis ht n).symm
  rw [hprimary, hvalue]
  refine .of_shallower (((shallower_deeper (shallower_emit tree) n).bind fun _ => .refl _).bind
    fun _ => .refl _) ?_
  refine (h.operand n (Nat.le_refl 0) hfollow hat').bind fun p s₁ c₁ hat₁ => ?_
  obtain ⟨s₂, hs₂, hat₂⟩ := hat₁.next
  have hclose : ((Token.byte (byte ')') :: rest).headD .eos).kind = .char ')' := rfl
  have htest : testNext (.char ')') s₁ = .ok true s₂ := by
    unfold testNext
    rw [Compile.bind_eq hat₁.currentKind, if_pos hclose, Compile.bind_eq hs₂]
    rfl
  have hmatch : checkMatch (.char ')') (.char '(') 1 s₁ = .ok () s₂ := by
    unfold checkMatch
    rw [Compile.bind_eq htest]
    rfl
  rw [Compile.bind_eq hmatch]
  unfold closeParenthesis
  exact Coding.sim inferInstance hat₂

theorem sim_simple {limit n : Nat} {tree : Tree} {K : Exp → M (Exp × Option BinaryOp)}
    (hunary : unaryOp? (ts.headD .eos).kind = none) (hat : At ts s c)
    (h : Sim rest (simpleExpression (nested n) s) (tree.emit n c))
    (hK : ∀ (e : Exp) (s' c' : State) (k : Nat), At rest s' c' →
      Sim ts' (iterate (operatorTurn (nested n) limit) k (e, binaryOp? (rest.headD .eos).kind) s')
        (K e c')) :
    Sim ts' (subExpression (nested n) limit s) ((tree.emit n >>= K) c) := by
  rw [subExpression_eq, Compile.bind_eq hat.currentKind, hunary]
  exact h.bind fun e s' c' => sim_operators hK e

theorem textReads {limit stop : Nat} {tree : Tree} (h : Tree.Written limit stop tree ts) :
    TextReads limit stop tree ts := by
  induction h with
  | @leaf limit stop tree h =>
    intro n rest rest' s c K hrest hat hK
    have hunary : unaryOp? ((tree.leaf :: rest).headD .eos).kind = none := by cases tree <;> rfl
    exact sim_simple hunary hat (sim_leaf h hrest hat n) hK
  | @parenthesized limit stop tree ts ht h ih =>
    intro n rest rest' s c K hrest hat hK
    have hunary : unaryOp? ((Tree.parenthesized ts ++ rest).headD .eos).kind = none := rfl
    exact sim_simple hunary hat (sim_parenthesized n ht ih hrest hat) hK
  | @unary limit stop op tree ts hs h ih =>
    intro n rest rest' s c K hrest hat hK
    obtain ⟨s', hs', hat'⟩ := At.next hat
    have hunary : unaryOp? ((op.token :: ts ++ rest).headD .eos).kind = some op := unaryOp?_token op
    have hemit : (Tree.unary op tree).emit n >>= K
        = (deeper n tree.emit >>= fun e => pure (e, binaryOp? (rest.headD .eos).kind)) >>= fun p =>
          unaryExp op p.1 1 >>= K := by
      simp only [Tree.emit, bind_assoc, pure_bind]
    rw [subExpression_eq, Compile.bind_eq hat.currentKind, hunary, hemit]
    dsimp only
    rw [Compile.bind_eq hat.currentLine, Compile.bind_eq hs']
    refine (ih.operand n hs hrest hat').bind fun p s₁ c₁ hat₁ => ?_
    exact (Coding.sim inferInstance hat₁).bind fun e s₂ c₂ => sim_operators hK e
  | @binary limit stop op l r ls rs hl hs hleft hright ihl ihr =>
    intro n rest rest' s c K hrest hat hK
    have hop : binaryOp? op.token.kind = some op.op := by rw [op.token_kind, op.reads]
    have hemit : (Tree.binary op l r).emit n >>= K = l.emit n >>= fun e => (do
        let left ← prepareLeft op.op e
        let p ← deeper n r.emit >>= fun e => pure (e, binaryOp? (rest.headD .eos).kind)
        binaryExp op.op left p.1 1 >>= K) := by
      simp only [Tree.emit, bind_assoc, pure_bind]
    have hfollow : MayFollow op.left (op.token :: rs ++ rest) := by
      have hle : op.op.priority.1 ≤ op.left := Nat.le_refl _
      unfold MayFollow
      simp only [List.cons_append, List.headD_cons, hop]
      exact hle
    rw [hemit]
    refine ihl n (op.token :: rs ++ rest) rest' s c _ hfollow (by simpa using hat)
      fun e s₁ c₁ k hat₁ => ?_
    cases k with
    | zero => exact .lost (.broken _)
    | succ k =>
      have hturn : binaryOp? ((op.token :: rs ++ rest).headD .eos).kind = some op.op := hop
      have hlt : ¬ op.op.priority.1 ≤ limit := Nat.not_le.2 hl
      obtain ⟨s₂, hs₂, hat₂⟩ := At.next hat₁
      rw [hturn, iterate_operator _ hlt, Compile.bind_eq (tokensTaken_eq s₁),
        Compile.bind_eq hat₁.currentLine, Compile.bind_eq hs₂]
      refine (Coding.sim inferInstance hat₂).bind fun left s₃ c₃ hat₃ => ?_
      refine (ihr.operand n hs hrest hat₃).bind_of fun p s₄ c₄ hp hat₄ => ?_
      have hafter : Results (fun p : Exp × Option BinaryOp =>
          p.2 = binaryOp? (rest.headD .eos).kind)
          (deeper n r.emit >>= fun e => pure (e, binaryOp? (rest.headD .eos).kind)) :=
            .seq fun e => .pure rfl
      rw [hafter.holds _ _ _ hp]
      exact (Coding.sim inferInstance hat₄).bind fun e₁ s₅ c₅ hat₅ => .advanced (hK e₁ s₅ c₅ k hat₅)

end Compile

end LuaChunk
