import LuaChunk.Proofs.Syntax.Operands

set_option autoImplicit false

namespace LuaChunk.Compile

open LuaChunk Grammar

variable {i j : List Token} {r : Nested}

instance still_currentKind : Still currentKind := ⟨fun _ _ hs => hs⟩

theorem parses_block (h : NestedReads r) : Parses i (block r) [.phrase .block] Closes :=
  .skip fun _ => .skip fun _ => (parses_statements h).finish

theorem parses_condition (h : NestedReads r) : Parses i (condition r) [.phrase .expression]
    (Avoids afterExpression) :=
  (parses_expression h).finish

theorem parses_testThenBlock (h : NestedReads r) (escape : Option Nat) {w : Keyword}
    (hi : ahead i = .word w) :
    Parses i (testThenBlock r escape) [.word w, .phrase .expression, .word .then_, .phrase .block]
      Closes := by
  refine (parses_next hi nofun).bind (X := [.phrase .expression, .word .then_, .phrase .block])
    (fun _ j => ?_) .any
  refine (parses_condition h).bind (X := [.word .then_, .phrase .block]) (fun ifFalse j => ?_)
    (.firm (by decide) rfl)
  refine (parses_checkNext (by decide)).bind (X := [.phrase .block]) (fun _ j => ?_) .any
  refine (parses_block h).bind (X := []) (fun _ j => .skip fun k => ?_) .nil
  dsimp only
  split
  · exact .skip fun _ => .skip fun escape => .still
  · exact .skip fun escape => .still

theorem parses_ifStatement (h : NestedReads r) (line : Nat) (hi : ahead i = .word .if_) :
    Parses i (ifStatement r line) [.word .if_, .phrase .expression, .word .then_, .phrase .block,
      .repeated [.word .elseif_, .phrase .expression, .word .then_, .phrase .block],
      .optional [.word .else_, .phrase .block], .word .end_] Any := by
  have hend : ∀ (escape : Option Nat) j, Parses j (do
      checkMatch (.word .end_) (.word .if_) line
      patchToHere escape) [.word .end_] Any := fun escape j =>
        (parses_checkMatch (by decide)).finish
  have hstop : ∀ (a : Option Nat) s j, s.Faces j → ahead j ≠ .word .elseif_ → ∃ b, (do
      if (← currentKind) = .word .elseif_ then return .again (← testThenBlock r a)
      else return .done a : M (Turn (Option Nat) (Option Nat))) s = .ok (.done b) s := by
    intro a s j hs hj
    refine ⟨a, ?_⟩
    rw [bind_eq (currentKind_eq hs), if_neg hj]
    rfl
  refine (parses_testThenBlock h none hi).bind
    (X := [.repeated [.word .elseif_, .phrase .expression, .word .then_, .phrase .block],
    .optional [.word .else_, .phrase .block], .word .end_]) (fun first j => ?_)
      (.firm (by decide) rfl)
  have hloop : Parses j (repeatTurn (fun (escape : Option Nat) => do
      if (← currentKind) = .word .elseif_ then return .again (← testThenBlock r escape)
      else return .done escape) first)
        [.repeated [.word .elseif_, .phrase .expression, .word .then_, .phrase .block]]
      (fun k => k = .word .else_ ∨ k = .word .end_) := by
    refine .loop (G := Closes) hstop (fun a j hj => .kind ?_) (by rintro _ (rfl | rfl) <;> decide)
      (by decide)
      (by rintro _ (rfl | rfl) <;> decide) first
    rw [if_pos hj]
    exact (parses_testThenBlock h a hj).finish_of fun b _ => .pure ⟨b, rfl⟩
  refine hloop.bind (X := [.optional [.word .else_, .phrase .block], .word .end_])
    (fun escape j => ?_) (.firm (by decide) rfl)
  refine .ifToken (Y := [.phrase .block]) (X := [.word .end_]) nofun (fun j => ?_) (hend escape j)
    (.firm (by decide) rfl)
  exact (parses_block h).bind (X := [.word .end_]) (fun _ j => hend escape j)
    (.firm (by decide) rfl)

theorem parses_whileStatement (h : NestedReads r) (line : Nat) (hi : ahead i = .word .while_) :
    Parses i (whileStatement r line)
      [.word .while_, .phrase .expression, .word .do_, .phrase .block, .word .end_] Any := by
  refine (parses_next hi nofun).bind
    (X := [.phrase .expression, .word .do_, .phrase .block, .word .end_])
    (fun _ j => .skip fun start => ?_) .any
  refine (parses_condition h).bind (X := [.word .do_, .phrase .block, .word .end_])
    (fun exit j => .skip fun _ => ?_)
    (.firm (by decide) rfl)
  refine (parses_checkNext (by decide)).bind (X := [.phrase .block, .word .end_]) (fun _ j => ?_)
    .any
  refine (parses_block h).bind (X := [.word .end_]) (fun _ j => .skip fun _ => ?_)
    (.firm (by decide) rfl)
  exact (parses_checkMatch (by decide)).finish

theorem parses_repeatStatement (h : NestedReads r) (line : Nat) (hi : ahead i = .word .repeat_) :
    Parses i (repeatStatement r line)
      [.word .repeat_, .phrase .block, .word .until_, .phrase .expression]
      (Avoids afterExpression) := by
  refine .skip fun start => .skip fun _ => .skip fun _ => ?_
  refine (parses_next hi nofun).bind (X := [.phrase .block, .word .until_, .phrase .expression])
    (fun _ j => ?_) .any
  refine (parses_statements h).bind (X := [.word .until_, .phrase .expression]) (fun _ j => ?_)
    (.firm (by decide) rfl)
  refine (parses_checkMatch (by decide)).bind (X := [.phrase .expression]) (fun _ j => ?_) .any
  refine (parses_condition h).bind (X := []) (fun again j => .skip fun scope => ?_) .nil
  dsimp only
  split
  · exact .skip fun exit => .skip fun _ => .skip fun level => .skip fun _ => .skip fun again =>
      .still
  · exact .skip fun again => .still

theorem parses_expressionToRegister (h : NestedReads r) :
    Parses i (expressionToRegister r) [.phrase .expression] (Avoids afterExpression) :=
      (parses_expression h).finish

abbrev loopRow : List Part := [.word .do_, .phrase .block]

theorem parses_loopBody (h : NestedReads r) (base line numVars : Nat) (code : LoopCode) :
    Parses i (loopBody r base line numVars code) loopRow Closes := by
  refine (parses_checkNext (by decide)).bind (X := [.phrase .block]) (fun _ j => ?_) .any
  refine .skip fun prepare => .skip fun _ => .skip fun _ => .skip fun _ => ?_
  refine (parses_block h).bind (X := [])
    (fun _ j => .skip fun _ => .skip fun target => .skip fun _ => ?_) .nil
  dsimp only
  split
  · exact .skip fun _ => .still
  · exact .still

theorem parses_numericFor (h : NestedReads r) (name : Bytes) (number line : Nat)
    (hi : ahead i = .char '=') :
    Parses i (numericFor r name number line) (.phrase .iteration :: loopRow) Closes := by
  have hbody : ∀ base j, Parses j (do activate 3; loopBody r base line 1 numericLoop) loopRow
      Closes :=
    fun base j => .skip fun _ => parses_loopBody h ..
  refine .phrase (by rw [hi]; rfl) ?_
  refine .skip fun base => .skip fun _ => .skip fun _ => .skip fun _ => .skip fun _ => ?_
  refine (parses_checkNext (k := .char '=') (by decide)).bind
    (X := [.phrase .expression, .char ',', .phrase .expression,
    .optional [.char ',', .phrase .expression]] ++ loopRow) (fun _ j => ?_) .any
  refine (parses_expressionToRegister h).bind (X := [.char ',', .phrase .expression,
    .optional [.char ',', .phrase .expression]] ++ loopRow) (fun _ j => ?_) (.firm (by decide) rfl)
  refine (parses_checkNext (k := .char ',') (by decide)).bind (X := [.phrase .expression,
    .optional [.char ',', .phrase .expression]] ++ loopRow) (fun _ j => ?_) .any
  refine (parses_expressionToRegister h).bind
    (X := .optional [.char ',', .phrase .expression] :: loopRow) (fun _ j => ?_)
    (.firm (by decide) rfl)
  refine .ifToken (Y := [.phrase .expression]) (X := loopRow) (by decide) (fun j => ?_) ?_
    (.firm (by decide) rfl)
  · exact (parses_expressionToRegister h).bind (X := loopRow) (fun _ j => hbody base j)
      (.firm (by decide) rfl)
  · exact .skip fun _ => .skip fun _ => .skip fun _ => hbody base j

/-- The turns of the loop that reads the other variables of a loop. -/
def nameTurn (n : Nat) : M (Turn Nat Nat) := do
  if ← testNext (.char ',') then
    let (name, number) ← takeDeclared
    discard (declare (some name) .regular (some number))
    return .again (n + 1)
  else return .done n

theorem parses_genericFor (h : NestedReads r) (name : Bytes) (number : Nat)
    (hi : ahead i = .char ',' ∨ ahead i = .word .in_) :
    Parses i (genericFor r name number) (.phrase .iteration :: loopRow) Closes := by
  have hstop : ∀ (a : Nat) s j, s.Faces j → ahead j ≠ .char ',' →
      ∃ b, nameTurn a s = .ok (.done b) s := by
    intro a s j hs hj
    refine ⟨a, ?_⟩
    unfold nameTurn
    rw [bind_eq (testNext_false hs hj)]
    rfl
  have hnames : ∀ j, Parses j (repeatTurn nameTurn 1) [.repeated [.char ',', .token .name]]
      (fun k => k = .word .in_) := by
    intro j
    refine .loop (G := Any) hstop (fun a j hj => ?_) (by rintro _ rfl; decide) trivial
      (fun _ _ => trivial) 1
    refine .test_true hj (by decide) fun j => parses_takeDeclared.finish_of fun p _ => .seq fun _ =>
      .pure ⟨_, rfl⟩
  refine .phrase (X := [.repeated [.char ',', .token .name], .word .in_, .phrase .expressions])
    (by rcases hi with hi | hi <;> rw [hi] <;> rfl) ?_
  refine .skip fun base => .skip fun _ => .skip fun _ => .skip fun _ => .skip fun _ =>
    .skip fun _ => ?_
  refine (hnames i).bind (X := [.word .in_, .phrase .expressions] ++ loopRow) (fun numVars j => ?_)
    (.firm (by decide) rfl)
  refine (parses_checkNext (k := .word .in_) (by decide)).bind
    (X := [.phrase .expressions] ++ loopRow) (fun _ j => ?_) .any
  refine .skip fun line => ?_
  refine (parses_expressionList h).bind (X := loopRow) (fun list j => ?_) (.firm (by decide) rfl)
  exact .skip fun _ => .skip fun _ => .skip fun _ => .skip fun _ => parses_loopBody h ..

theorem parses_forStatement (h : NestedReads r) (line : Nat) (hi : ahead i = .word .for_) :
    Parses i (forStatement r line)
      [.word .for_, .token .name, .phrase .iteration, .word .do_, .phrase .block, .word .end_]
      Any := by
  have hend : ∀ {m : M Unit} j, Parses j m (.phrase .iteration :: loopRow) Closes → Parses j (do
      m
      checkMatch (.word .end_) (.word .for_) line
      discard leaveBlock) [.phrase .iteration, .word .do_, .phrase .block, .word .end_]
        Any := fun j hm =>
    hm.bind (X := [.word .end_]) (fun _ j => (parses_checkMatch (by decide)).finish)
      (.firm (by decide) rfl)
  refine .skip fun _ => ?_
  refine (parses_next hi nofun).bind
    (X := [.token .name, .phrase .iteration, .word .do_, .phrase .block, .word .end_])
    (fun _ j => ?_) .any
  refine parses_takeDeclared.bind
    (X := [.phrase .iteration, .word .do_, .phrase .block, .word .end_])
    (fun ⟨name, number⟩ j => .kind ?_) .any
  dsimp only
  by_cases hnumeric : ahead j = .char '='
  · rw [if_pos hnumeric]
    exact hend j (parses_numericFor h name number line hnumeric)
  · rw [if_neg hnumeric]
    by_cases hgeneric : ahead j = .char ',' ∨ ahead j = .word .in_
    · rw [if_pos (by simpa using hgeneric)]
      exact hend j (parses_genericFor h name number hgeneric)
    · rw [if_neg (by simpa using hgeneric)]
      refine .refuse (fun s => (fails_syntaxError _ s).bind) fun k _ hd => ?_
      have hs := hd.mem_starts rfl
      rw [not_or] at hgeneric
      simp [rowStarts, Part.starts, Part.nullable, Phrase.nullable, Phrase.starts, hnumeric,
        hgeneric.1, hgeneric.2] at hs

end LuaChunk.Compile
