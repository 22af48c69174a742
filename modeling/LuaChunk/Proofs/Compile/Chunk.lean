import LuaChunk.Proofs.Compile.Statement
import LuaChunk.Proofs.Source.Stream
import LuaChunk.Compile.Chunk

set_option autoImplicit false

namespace LuaChunk

open JumpList (Code IsOp Chain)

namespace Compile

variable {F : List Pending} {s s' : State} {o : Options} {source : Bytes} {R : State → State → Prop}

theorem Via.tooDeep [Steps R] {α : Type} {Q : α → State → Prop} : Via R (tooDeep (α := α)) s Q :=
  .of_same trivial rfl rfl rfl rfl

section

variable {depth deepest base : Nat} {e : Exp}

theorem Coded.atLevel : Coded s (s.atLevel depth deepest) := { Coded.refl s with }

theorem Inv.atLevel {o : Option Nat} {live : Nat → Prop} (h : Inv F o live s) :
    Inv F o live (s.atLevel depth deepest) :=
  ⟨{ h.base with }, h.sound, h.held⟩

theorem State.places_atLevel {kind : ExpKind} (h : s.Places base kind) :
    (s.atLevel depth deepest).Places base kind := by
  cases kind with
  | indexed t k a => exact ⟨h.1, h.2.text, h.2.readOnly⟩
  | indexUp t k a => exact ⟨h.1, h.2.1, h.2.2.1.of_fn rfl, h.2.2.2.text, h.2.2.2.readOnly⟩
  | indexStr t k a => exact ⟨h.1, h.2.1.of_fn rfl, h.2.2.text, h.2.2.readOnly⟩
  | _ => exact h

theorem Read.atLevel (h : Read F base e s) : Read F base e (s.atLevel depth deepest) := by
  obtain ⟨⟨hl, ⟨T, E, hT, hE, hi⟩, hp, hb⟩, hf⟩ := h
  exact ⟨⟨hl, ⟨T, E, hT, hE, hi.atLevel⟩, State.places_atLevel hp, hb⟩, hf⟩

theorem Reads.atLevel {t : State} (h : Reads F t e s) : Reads F t e (s.atLevel depth deepest) :=
  ⟨h.read.atLevel, h.progress⟩

theorem Reads.of_atLevel {t : State} (h : Reads F (t.atLevel depth deepest) e s) : Reads F t e s :=
  ⟨h.read, h.progress⟩

theorem State.target_atLevel {kind : ExpKind} (h : s.Target base kind) :
    (s.atLevel depth deepest).Target base kind :=
  h.mono Coded.atLevel.toKeeps (Nat.le_refl base)

theorem State.Holds.atLevel {n : Nat} (h : s.Holds F base n) :
    (s.atLevel depth deepest).Holds F base n := ⟨h.1, h.2.atLevel⟩

theorem Assigns.atLevel {targets : List Exp} (h : Assigns F base targets s) :
    Assigns F base targets (s.atLevel depth deepest) :=
  ⟨h.low, fun t ht => State.target_atLevel (h.all t ht), h.holds.atLevel⟩

theorem Ready.atLevel (h : Ready F s) : Ready F (s.atLevel depth deepest) := ⟨h.inv.atLevel, h.low⟩

theorem Rests.atLevel (h : Rests F s) : Rests F (s.atLevel depth deepest) :=
  ⟨h.inv.atLevel, h.free, h.full⟩

theorem Settles.atLevel (h : Settles F s) : Settles F (s.atLevel depth deepest) := by
  rcases h with h | ⟨hk, ⟨b, rest, hb, hi⟩, hf, hs⟩
  · exact .inl h.atLevel
  · exact .inr ⟨hk, ⟨b, rest, hb, hi.atLevel⟩, hf, hs⟩

end

theorem Via.metered [Frame R] {α : Type} {act : M α} {Q : α → State → Prop}
    (h : Via R act (s.atLevel (s.depth + 1) (max s.deepest (s.depth + 1))) fun a s' =>
    ∀ depth deepest, Q a (s'.atLevel depth deepest)) :
    Via R (metered act) s Q := by
  refine Via.bind (Via.of_eq (m := enterLevel)
    (Q := fun _ t => t = s.atLevel (s.depth + 1) (max s.deepest (s.depth + 1)))
    rfl (Frame.coded .atLevel) rfl) ?_
  rintro _ _ - rfl
  refine Via.bind h fun a t _ hq => ?_
  exact Via.bind (Via.of_eq (m := leaveLevel) (Q := fun _ u => Q a u) rfl (Frame.coded .atLevel)
    (hq _ _))
    fun _ _ _ hq => Via.pure hq

theorem nested_ok (n : Nat) : NestedOk (nested n) := by
  induction n with
  | zero =>
    exact {
      subExpr := fun _ _ => Via.tooDeep
      statement := fun _ => Via.tooDeep
      assign := fun _ _ _ => Via.tooDeep
      initGlobals := fun _ _ => Via.tooDeep }
  | succ n ih =>
    exact {
      subExpr := fun _ h => Via.metered ((subExpression_spec ih h.atLevel).mono
        fun _ _ _ hq _ _ => ⟨hq.1.of_atLevel.atLevel, hq.2⟩)
      statement := fun h => Via.metered ((statement_spec ih h.atLevel).mono
        fun _ _ _ hq _ _ => ⟨hq.1.atLevel, hq.2⟩)
      assign := fun h hl hall => by
        refine Via.metered (Via.mono
          (assignRest_spec ih h.atLevel ?_ fun t ht => State.target_atLevel (hall t ht)) ?_)
        · exact hl
        · exact fun _ _ _ hq _ _ => ⟨hq.1, hq.2.imp fun _ => Assigns.atLevel⟩
      initGlobals := fun h hc => Via.metered ((initGlobals_spec ih h.atLevel hc).mono
        fun _ _ _ hq _ _ => hq.imp fun _ hb => ⟨hb.1, hb.2.atLevel⟩) }

def envUpvalue : Upvalue := ⟨some envName, true, 0, VarKind.regular.number⟩

def startMain (o : Options) (source : Bytes) (x : Lexer) : State :=
  { initial o source with
    lexer := x
    stores := #[.source 0 x.source, .text 0 envName]
    fn := { Builder.start 0 0 0 0 with
      blocks := [⟨0, 0, 0, .none, false, false⟩]
      upvalues := #[envUpvalue] } }

theorem noteCapture_eq {u : Upvalue} (h : s.fn.upvalues = #[]) : noteCapture u s = .ok () s := by
  show EStateM.Result.ok () { s with strayed := s.strayed || s.fn.upvalues.any _ } = _
  rw [h]
  simp

theorem addEnv_eq (h : s.fn.upvalues = #[]) : addUpvalue envUpvalue s
    = .ok 0 { s with
      stores := s.stores.push (.text s.fn.id envName),
      fn := { s.fn with upvalues := #[envUpvalue] } } := by
  refine (bind_eq (m := noteCapture envUpvalue) (a := ()) (noteCapture_eq h)).trans ?_
  refine (bind_eq (m := ofFn _) (a := s.fn.upvalues.size) (t := s) rfl).trans ?_
  rw [h]
  show EStateM.Result.ok 0 { s with
    stores := _, fn := { s.fn with upvalues := s.fn.upvalues.push envUpvalue } } = _
  rw [h]
  rfl

theorem discard_eq {α : Type} {m : M α} {a : α} (h : m s = .ok a s') : discard m s = .ok () s' := by
  show EStateM.map _ m s = _
  unfold EStateM.map
  rw [h]

theorem openMain_eq {x : Lexer} {m : M Unit} :
    (do
      openFunction
      setVararg 0
      discard (addUpvalue envUpvalue)
      m) ((initial o source).setLexer x)
      = m ((startMain o source x).setVararg.emit (.abck .varargPrep 0 0 0 0)) := by
  refine (bind_eq (m := openFunction) (a := ()) rfl).trans
    ((bind_eq (m := setVararg 0) (a := ()) rfl).trans ?_)
  refine (bind_eq (discard_eq (addEnv_eq ?_))).trans ?_
  · rfl
  · rfl

theorem startMain_base {x : Lexer} (hx : x.failure = none) (hm : x.measure < source.length + 2)
    (hi : o.maxItems ≤ 1073741823) : Base (startMain o source x) where
  failure := hx
  progress := hm
  scopes := {
    placed := ⟨Nat.le_refl _, fun k v hk => absurd hk (Nat.not_lt_zero k)⟩
    outermost := ⟨_, rfl, rfl, rfl, rfl⟩
    sorted := List.pairwise_singleton ..
    inside := by
      intro b hm
      cases List.mem_singleton.1 hm
      exact ⟨Nat.le_refl _, Nat.le_refl _, Nat.le_refl _⟩
    within := fun k g hg => nomatch hg
    labels := fun k l _ hl => nomatch hl
    gotos := fun k g _ hg => nomatch hg }
  enclosed :=
    ⟨Nat.le_refl _, ⟨_, List.mem_singleton.2 rfl, rfl⟩, (show 1 ≤ maxUpvalues by decide),
      fun _ => Nat.one_pos, trivial⟩
  linked := by
    refine ⟨⟨fun i u hu => ?_, fun i j u w hu hw _ => ?_⟩, nofun, trivial⟩
    · obtain ⟨hi, rfl⟩ := Array.getElem?_eq_some_iff.1 hu
      obtain rfl : i = 0 := Nat.lt_one_iff.1 hi
      exact ⟨envName, rfl, rfl, rfl, rfl⟩
    · have hi := (Array.getElem?_eq_some_iff.1 hu).1
      have hj := (Array.getElem?_eq_some_iff.1 hw).1
      exact (Nat.lt_one_iff.1 hi).trans (Nat.lt_one_iff.1 hj).symm
  tracked := .empty 0
  controls k v hv := nomatch hv
  lexical := rfl
  stack := Nat.le_refl _
  room := Nat.zero_le _
  lines := ⟨rfl, rfl⟩
  pool := Nat.zero_le _
  known k tag := nofun
  params := Nat.zero_le _
  nested := Nat.zero_le _
  functions p hp := absurd hp (Array.not_mem_empty p)
  refers := .nil _
  meaning := .nil _
  adopts p hp := absurd hp List.not_mem_nil
  fits := rfl
  items := hi
  closings c hc := absurd hc (Array.not_mem_empty c)
  recorded p hp := absurd hp (Array.not_mem_empty p)

theorem startMain_inv {x : Lexer} (hx : x.failure = none) (hm : x.measure < source.length + 2)
    (hi : o.maxItems ≤ 1073741823) : Inv [] none (· < 0) (startMain o source x) :=
  ⟨startMain_base hx hm hi, sound_start _ (show 2 ≤ 254 by decide) (Nat.zero_le _), Holding.nothing⟩

theorem startMain_rests {x : Lexer} (hx : x.failure = none) (hm : x.measure < source.length + 2)
    (hi : o.maxItems ≤ 1073741823) :
    Rests [] ((startMain o source x).setVararg.emit (.abck .varargPrep 0 0 0 0)) :=
  ⟨(startMain_inv hx hm hi).pushVarargPrep (Nat.zero_le _), rfl, rfl⟩

structure Compiled (s : State) : Prop where
  functions : ∀ q ∈ (s.fn.prototype s.lexer.source).walk, FunctionOk s.lateLoad q
  fits : s.spilled = false
  closings : ∀ c ∈ s.closings, c.Aimed ∧ c.Settled
  recorded : ∀ q ∈ (s.fn.prototype s.lexer.source).walk, ∃ c ∈ s.closings, c.Describes q

theorem Finishes.compiled {t : State} {code : Code} (h : Finishes s t code) :
    Compiled (t.finish code) where
  functions := h.inv.functionOk h.size h.finished h.refers _
  fits := h.inv.base.fits
  closings c hc := by
    rcases Array.mem_push.1 hc with hc | rfl
    · exact h.inv.base.closings c hc
    · exact ⟨h.aimed, h.settled⟩
  recorded := h.inv.base.recorded_finish h.passed h.meaning _

theorem chunkBody_spec (h : Rests [] s) (hb : ∃ c, s.fn.blocks.map Block.scope = [c]) :
    Via Logs (do
      next
      statements (nested maxNesting)
      check .eos
      closeFunction) s fun _ s' => Compiled s' := by
  refine Via.bind (Via.pass (R := Nests) (Q := fun _ u => ∃ l, s.Passes l ∧ u = s.setLexer l)
    h.inv.base
    fun l hl => ⟨l, hl, rfl⟩).logged ?_
  rintro _ _ - ⟨hn₁, l, hl, rfl⟩
  refine Via.bind (statements_spec (nested_ok _) (h.setLexer hl)).logged fun _ s₂ _ ⟨hn₂, h₂⟩ => ?_
  refine Via.next (Via.check fun _ => ?_)
  have hblocks := (hn₁.trans hn₂.nests).blocks
  exact (closeFunction_spec h₂.ends (by rw [hblocks]; exact hb) fun t code hf =>
    hf.compiled).logged.mono
    fun _ _ _ hq => hq.2

theorem Logs.noted (s : State) (names : Array Bytes) :
    Logs s (s.setLexer { s.lexer with noted := names }) :=
  { Logs.refl s with }

theorem Logs.openMain (o : Options) (source : Bytes) (x : Lexer) :
    Logs ((initial o source).setLexer x)
      ((startMain o source x).setVararg.emit (.abck .varargPrep 0 0 0 0)) :=
  .of_same rfl rfl rfl rfl rfl

theorem mainBody_spec {x : Lexer} (hx : x.failure = none) (hm : x.measure < source.length + 2)
    (hi : o.maxItems ≤ 1073741823) :
    Via Logs (do
      openFunction
      setVararg 0
      discard (addUpvalue envUpvalue)
      next
      statements (nested maxNesting)
      check .eos
      closeFunction) ((initial o source).setLexer x) fun _ s' => Compiled s' :=
  Via.of_step openMain_eq (Logs.openMain ..) (chunkBody_spec (startMain_rests hx hm hi) ⟨_, rfl⟩)

theorem mainFunction_eq (s : State) :
    mainFunction s = (do
      openFunction
      setVararg 0
      discard (addUpvalue envUpvalue)
      next
      statements (nested maxNesting)
      check .eos
      closeFunction : M Unit)
        (s.setLexer { s.lexer with noted := (s.lexer.noted.push envName).push breakName }) := rfl

theorem initial_lexer (o : Options) (source : Bytes) :
    (initial o source).lexer.failure = o.failure ∧
      (initial o source).lexer.measure < source.length + 2 := by
  have htokens := Lexer.tokensOf_le (initial o source).lexer.numberOf source 1
  have hweight := Lexer.weight_le (initial o source).lexer.token
  refine ⟨rfl, ?_⟩
  show Lexer.tokensOf _ source 1 + _ + 0 < _
  omega

theorem mainFunction_spec (hs : s = initial o source) (hf : o.failure = none)
    (hi : o.maxItems ≤ 1073741823) :
    Via Logs mainFunction s fun _ s' => Compiled s' := by
  obtain ⟨hx, hm⟩ := initial_lexer o source
  rw [hf] at hx
  rw [← hs] at hx hm
  have h := mainBody_spec (o := o)
    (x := { s.lexer with noted := (s.lexer.noted.push envName).push breakName }) hx hm hi
  rw [← hs] at h
  exact Via.of_step (mainFunction_eq s) (Logs.noted ..) h

/-- Only variables are written that may be. Where there is a write to a read-only variable, it is
the last one, and the failure of the compilation refuses it. -/
def Outcome.Lawful (r : Outcome) : Prop :=
  ((∀ w ∈ r.writes, w.Allowed) ∧ ∀ f, r.result = .error f → f.isRefusal = false) ∨
    ∃ ws w name f, r.writes.toList = ws ++ [w] ∧ (∀ w ∈ ws, w.Allowed) ∧ w.Refused name ∧
      r.result = .error f ∧
      f.Refuses name

/-- What holds of the outcome of any compilation. -/
structure Outcome.Sound (r : Outcome) : Prop where
  reported : ∀ e, r.result = .error e → e.Reported
  functions : ∀ p, r.result = .ok p → ∀ q ∈ p.walk, FunctionOk r.lateLoad q
  fits : ∀ p, r.result = .ok p → r.spilled = false
  closings : ∀ p, r.result = .ok p → ∀ c ∈ r.closings, c.Aimed ∧ c.Settled
  recorded : ∀ p, r.result = .ok p → ∀ q ∈ p.walk, ∃ c ∈ r.closings, c.Describes q
  moments : ∀ m, r.moments m → m.Sound
  written : r.Lawful
  lexical : r.strayed = false

theorem run_sound (hf : o.failure = none) (hi : o.maxItems ≤ 1073741823) (source : Bytes) :
    (run o source).Sound := by
  have h : Via Logs mainFunction (initial o source) _ := mainFunction_spec rfl hf hi
  have hs : (initial o source).strayed = false := rfl
  have hw : (initial o source).writes.toList = [] := rfl
  have hno : ∀ m, ¬ (initial o source).moments m := fun _ => id
  unfold run
  generalize initial o source = s at h hs hw hno ⊢
  unfold Via at h
  cases hm : mainFunction s with
  | ok a s' =>
    rw [hm] at h
    obtain ⟨hr, hc⟩ := h
    exact {
      reported := nofun
      functions := fun p hp => by
        cases hp
        exact hc.functions
      fits := fun _ _ => hc.fits
      closings := fun _ _ => hc.closings
      recorded := fun p hp => by
        cases hp
        exact hc.recorded
      moments := fun m hm => (hr.moments m hm).resolve_left (hno m)
      written := by
        obtain ⟨ws, hws, ha⟩ := hr.writes
        refine .inl ⟨fun w hm => ha w ?_, nofun⟩
        rw [hw, List.nil_append] at hws
        exact hws ▸ Array.mem_toList_iff.2 hm
      lexical := hr.strayed.trans hs }
  | error e s' =>
    rw [hm] at h
    exact {
      reported := fun e' he => by
        cases he
        exact h.reported
      functions := nofun
      fits := nofun
      closings := nofun
      recorded := nofun
      moments := fun m hm => (h.moments m hm).resolve_left (hno m)
      written := by
        obtain ⟨ws, ha, ⟨hws, he⟩ | ⟨w, name, hws, hrefused, he⟩⟩ := h.writes
        · refine .inl ⟨fun w hm => ha w ?_, fun f hf => ?_⟩
          · rw [hw, List.nil_append] at hws
            exact hws ▸ Array.mem_toList_iff.2 hm
          · cases hf
            exact he
        · rw [hw, List.nil_append] at hws
          exact .inr ⟨ws, w, name, e, hws, ha, hrefused, rfl, he⟩
      lexical := h.strayed.trans hs }

end Compile

section

open Compile

variable {chunk source : Bytes} {p : Prototype}

theorem error_of_compile {f : Failure} (h : compile chunk source = .error f) : ∃ e : CompileError,
    f = .error e := by
  have hreported := (run_sound (o := { chunk }) rfl (Int.le_refl _) source).reported f h
  cases f with
  | error e => exact ⟨e, rfl⟩
  | read m => exact hreported.elim
  | broken a => exact hreported.elim

/-- Compiling a source ends with a function or with an error of the source. -/
theorem compile_reports (chunk source : Bytes) :
    (∃ p, compile chunk source = .ok p) ∨ ∃ e : CompileError,
    compile chunk source = .error (.error e) := by
  cases hr : compile chunk source with
  | ok p => exact .inl ⟨p, rfl⟩
  | error f =>
    obtain ⟨e, rfl⟩ := error_of_compile hr
    exact .inr ⟨e, rfl⟩

theorem WellFormed.extra {code : Code} (h : WellFormed code) {k : Nat}
    (hk : IsOp code k .extraArg) :
    ∃ n i, n + 1 = k ∧ code[n]? = some i ∧ i.demand = .extra := by
  obtain ⟨j, hj, hop⟩ := hk
  cases k with
  | zero => exact absurd ⟨j, hj, hop⟩ h.first
  | succ n =>
    have hlt : n < code.size := Nat.lt_of_succ_lt (Array.getElem?_eq_some_iff.1 hj).1
    have hi := Array.getElem?_eq_getElem hlt
    refine ⟨n, code[n], rfl, hi, ?_⟩
    have hm := h.next n code[n] hi
    rw [hj] at hm
    cases hd : code[n].demand with
    | extra => rfl
    | free =>
      rw [hd] at hm
      exact absurd hop hm
    | jump | loadTrue =>
      rw [hd] at hm
      cases hop.symm.trans (show j.opcode? = _ from hm)
    | fallback op left =>
      rw [hd] at hm
      obtain rfl : op = .extraArg := Option.some.inj (hm.1.symm.trans hop)
      rcases Instruction.demand_fallback hd with h | h | h <;> cases h

/-- The control flow of every function of a compiled chunk. -/
theorem compile_controlFlow (h : compile chunk source = .ok p) :
    (∀ q ∈ p.walk, q.lineInfo.size = q.code.size ∧ WellFormed q.code ∧
      ∀ k, IsOp q.code k .extraArg → ∃ n i, n + 1 = k ∧ q.code[n]? = some i ∧ i.demand = .extra) ∧
    ∀ c ∈ (run { chunk } source).closings, c.Aimed := by
  have hs := run_sound (o := { chunk }) rfl (Int.le_refl _) source
  refine ⟨fun q hq => ?_, fun c hc => (hs.closings p h c hc).1⟩
  obtain ⟨hlines, ⟨m, n, -, -, -, -, -, hf⟩, -⟩ := hs.functions p h q hq
  exact ⟨hlines, hf.wellFormed, fun k hk => hf.wellFormed.extra hk⟩

theorem exists_ok {ε α : Type} {r : Except ε α} (h : r.toOption.isSome = true) :
    ∃ a, r = .ok a := by
  cases r with
  | ok a => exact ⟨a, rfl⟩
  | error e => cases h

/-- A source with a table, a comparison for its value, and a call. -/
def smallSource : Bytes := utf8 "({1, ...})[1] = #{} < 2; (-{})(3, -...)"

theorem smallSource_compiles : ∃ p, compile (utf8 "small") smallSource = .ok p :=
  exists_ok (by decide +kernel)

theorem smallSource_controlFlow : ∃ p, compile (utf8 "small") smallSource = .ok p ∧
    ∀ q ∈ p.walk, q.lineInfo.size = q.code.size ∧ WellFormed q.code := by
  obtain ⟨p, hp⟩ := smallSource_compiles
  exact ⟨p, hp, fun q hq =>
    ⟨((compile_controlFlow hp).1 q hq).1, ((compile_controlFlow hp).1 q hq).2.1⟩⟩

/-- The operands and registers of every function of a compiled chunk. -/
theorem compile_registers (h : compile chunk source = .ok p) :
    (run { chunk } source).spilled = false ∧ ∀ q ∈ p.walk,
      2 ≤ q.maxStackSize ∧ q.maxStackSize ≤ 254 ∧ 0 ≤ q.numParams ∧ q.numParams ≤ 200 ∧
        q.upvalues.size ≤ 255 ∧
        ∀ (pc : Nat) (i : Instruction), q.code[pc]? = some i →
          (∀ r ∈ i.registers, (r : Int) < q.maxStackSize) ∧
          (i.opcode? = some .testSet → i.a ≠ Instruction.noRegister) := by
  have hs := run_sound (o := { chunk }) rfl (Int.le_refl _) source
  refine ⟨hs.fits p h, fun q hq => ?_⟩
  obtain ⟨-, ⟨m, n, hm, hn, h₂, h₂₅₄, h₂₀₀, hf⟩, hups⟩ := hs.functions p h q hq
  rw [hm, hn]
  have : maxLocals = 200 := rfl
  refine ⟨by omega, by omega, by omega, by omega, hups, fun pc i hi => ?_⟩
  have hreg := hf.registers pc i hi
  refine ⟨fun r hr => by exact_mod_cast hreg r hr, fun hop => ?_⟩
  have ha := hreg i.a (by rw [Instruction.registers_eq hop]; exact List.mem_cons_self ..)
  have : Instruction.noRegister = 255 := rfl
  omega

theorem smallSource_registers : ∃ p, compile (utf8 "small") smallSource = .ok p ∧
    ∀ q ∈ p.walk, 2 ≤ q.maxStackSize ∧ q.maxStackSize ≤ 254 := by
  obtain ⟨p, hp⟩ := smallSource_compiles
  exact ⟨p, hp, fun q hq =>
    ⟨((compile_registers hp).2 q hq).1, ((compile_registers hp).2 q hq).2.1⟩⟩

/-- What the name of a variable is taken for once its meaning is known. -/
def variableOf (name : Bytes) (m : Meaning) : M Exp :=
  match m with
  | .localVar r i _ => pure ⟨.localVar r i, none, none⟩
  | .upvalue i _ => pure ⟨.upvalue i, none, none⟩
  | .constVar i => pure ⟨.constVar i, none, none⟩
  | .declared place | .undeclared (.wildcard place) => do
    let e ← globalAccess name
    return if (← variableAt place).kind = .constGlobal then e.readOnly else e
  | .undeclared .free => globalAccess name
  | .undeclared .closed => semanticError (utf8 "variable '" ++ name ++ utf8 "' not declared")

theorem variableExp_eq (name : Bytes) : variableExp name = (do
    let m ← resolve name
    noteMeaning name m
    variableOf name m : M Exp) := by
  unfold variableExp
  refine bind_congr fun m => bind_congr fun _ => ?_
  cases m with
  | localVar | upvalue | constVar | declared => rfl
  | undeclared d =>
    cases d with
    | free => exact bind_pure (globalAccess name)
    | closed | wildcard => rfl

/-- A compiled source writes no read-only variable. A source is refused for the write of a constant
just where the whole target is the name of a read-only variable, and nothing is read after it. -/
theorem compile_readOnly (chunk source : Bytes) :
    (∀ p, compile chunk source = .ok p → ∀ w ∈ (run { chunk } source).writes, w.Allowed) ∧
      (∀ f, compile chunk source = .error f → f.isRefusal = true → ∃ ws w name,
        (run { chunk } source).writes.toList = ws ++ [w] ∧ (∀ v ∈ ws, v.Allowed) ∧ w.Refused name ∧
          f.Refuses name) ∧
      ∀ w ∈ (run { chunk } source).writes, w.isReadOnly = true →
        ∃ name f, w.Refused name ∧ compile chunk source = .error f ∧ f.Refuses name := by
  have hlawful : (run { chunk } source).Lawful :=
    (run_sound (o := { chunk }) rfl (Int.le_refl _) source).written
  unfold compile
  generalize run { chunk } source = r at hlawful ⊢
  obtain ⟨hall, hnone⟩ | ⟨ws, v, name, f, hws, hall, hv, hf, hrefuses⟩ := hlawful
  · refine ⟨fun _ _ => hall, fun f hf hrefusal => ?_, fun w hw hread => ?_⟩
    · rw [hnone f hf] at hrefusal
      cases hrefusal
    · rw [(hall w hw).writable] at hread
      cases hread
  · refine ⟨fun p hp => ?_, fun f' hf' _ => ?_, fun w hw hread => ?_⟩
    · rw [hf] at hp
      cases hp
    · cases hf.symm.trans hf'
      exact ⟨ws, v, name, hws, hall, hv, hrefuses⟩
    · rw [← Array.mem_toList_iff, hws] at hw
      rcases List.mem_append.1 hw with hw | hw
      · rw [(hall w hw).writable] at hread
        cases hread
      · cases List.mem_singleton.1 hw
        exact ⟨name, f, hv, hf, hrefuses⟩

/-- A write of the variable that controls a loop, from a function in its body. -/
def controlSource : Bytes := utf8 "for k in {} do local function f() k = {} end end"

/-- A write of a field of it. -/
def fieldSource : Bytes := utf8 "for k in {} do local function f() k[1] = {} end end"

theorem compile_readOnly_control :
    (∃ f, compile (utf8 "a") controlSource = .error f ∧ f.Refuses (utf8 "k")) ∧
      ∃ p, compile (utf8 "a") fieldSource = .ok p ∧
        ∀ w ∈ (run { chunk := utf8 "a" } fieldSource).writes, w.Allowed := by
  constructor
  · have hwrite : ((run { chunk := utf8 "a" } controlSource).writes.any fun w =>
        w.isReadOnly && w.name == some (utf8 "k")) = true := by
      unfold run initial Lexer.start
      rw [Interner.reservedIndex_markAll]
      decide +kernel
    obtain ⟨w, hw, hread⟩ := Array.any_eq_true'.1 hwrite
    obtain ⟨hread, hk⟩ := Bool.and_eq_true_iff.1 hread
    obtain ⟨name, f, hrefused, hf, hrefuses⟩ := (compile_readOnly _ _).2.2 w hw hread
    cases hrefused.named.symm.trans (eq_of_beq hk)
    exact ⟨f, hf, hrefuses⟩
  · have hok : (compile (utf8 "a") fieldSource).toOption.isSome = true := by
      unfold compile run initial Lexer.start
      rw [Interner.reservedIndex_markAll]
      decide +kernel
    obtain ⟨p, hp⟩ := exists_ok hok
    exact ⟨p, hp, (compile_readOnly _ _).1 p hp⟩

/-- Every name is taken for its innermost declaration, whatever is compiled. -/
theorem names_are_lexical (chunk source : Bytes) :
    (run { chunk } source).strayed = false ∧
      ∀ name, variableExp name = (do
        let m ← resolve name
        noteMeaning name m
        variableOf name m : M Exp) :=
  ⟨(run_sound (o := { chunk }) rfl (Int.le_refl _) source).lexical, variableExp_eq⟩

end

end LuaChunk
