import LuaChunk.Proofs.Syntax.Expressions

set_option autoImplicit false

namespace LuaChunk.Compile

open LuaChunk Grammar

variable {α β : Type} {i j k : List Token} {r : Nested}

theorem ParsesTo.blockEnds {W : β → Prop} {f : Bool → M β} {X : List Part} {F : TokenKind → Prop}
    (withUntil : Bool)
    (h : ParsesTo W i (f ((ahead i).closes withUntil)) X F) : ParsesTo W i
    (blockEnds withUntil >>= f) X F := by
  refine ⟨fun s hs => ?_⟩
  rw [bind_eq (blockEnds_eq withUntil s), hs.kind]
  exact h.outcome s hs

def statementTurn (r : Nested) (_ : Unit) : M (Turn Unit Unit) := do
  if ← blockEnds true then return .done ()
  let isReturn := (← currentKind) = .word .return_
  r.statement
  return if isReturn then .done () else .again ()

abbrev blockRow : List Part := [.repeated [.phrase .statement], .optional [.phrase .return_]]

theorem void_of_statement (hi : ahead i ∈ Phrase.voidStarts)
    (h : Derives [.phrase .statement] i j) : Derives [.phrase .void] i j := by
  have hcandidates : candidates .statement (ahead i) = [[.phrase .void]] := by
    rcases List.mem_cons.1 hi with hi | hi
    · rw [hi]
      rfl
    · rw [List.mem_singleton.1 hi]
      rfl
  exact (single_of hcandidates).1 h

theorem voids_first (h : Derives blockRow i j) (hj : Closes (ahead j)) :
    Derives (voidsRow ++ blockRow) i j := by
  have hstop : ∀ i, Derives blockRow i j → ahead i ∉ Phrase.voidStarts →
      Derives (voidsRow ++ blockRow) i j := by
    intro i h hi
    exact .stop (.notNext (fun hk => hi (by rw [hk]; decide))
      (.notNext (fun hk => hi (by rw [hk]; decide)) h))
  generalize hX : blockRow = X at h
  induction h with
  | stop h =>
    cases hX
    have hvoid : ∀ k ∈ Phrase.voidStarts, k ∉ rowStarts [.optional [.phrase .return_]] ∧
        ¬ Closes k := by decide
    refine hstop _ (.stop h) fun hi => ?_
    rcases h.starts with hs | ⟨-, rfl⟩
    · exact (hvoid _ hi).1 hs
    · exact (hvoid _ hi).2 hj
  | @again Y X i k j hY h _ ih =>
    cases hX
    by_cases hi : ahead i ∈ Phrase.voidStarts
    · exact .again (void_of_statement hi hY) (ih hj hstop rfl)
    · exact hstop _ (.again hY h) hi
  | _ => cases hX

theorem void_statement (h : Derives [.phrase .void] i j) : Derives [.phrase .statement] i j :=
  Derives.single_iff.2 ⟨_, .head _, h⟩

theorem voids_append (h : Derives [.repeated [.phrase .void]] i k) (hk : Derives blockRow k j) :
    Derives blockRow i j := by
  generalize hX : [Part.repeated [.phrase .void]] = X at h
  induction h with
  | stop h =>
    cases hX
    rwa [Derives.nil_iff.1 h]
  | again hY _ _ ih =>
    cases hX
    exact .again (void_statement hY) (ih hk rfl)
  | _ => cases hX

theorem block_of_statementRow {k : TokenKind} (h : Derives (statementRow k ++ blockRow) i j) :
    Derives blockRow i j := by
  unfold statementRow at h
  split at h
  · obtain ⟨k, hvoid, h⟩ := Derives.cons_iff.1 h
    obtain ⟨l, hvoids, h⟩ := Derives.cons_iff.1 h
    exact .again (void_statement hvoid)
      (voids_append hvoids (Derives.notNext_iff.1 (Derives.notNext_iff.1 h).2).2)
  · obtain ⟨k, hk, h⟩ := Derives.cons_iff.1 h
    exact .again hk h

theorem statementRow_of_block (hreturn : ahead i ≠ .word .return_) (hclose : ¬ Closes (ahead i))
    (hj : Closes (ahead j))
    (h : Derives blockRow i j) : Derives (statementRow (ahead i) ++ blockRow) i j := by
  have hfirst : ∃ k, Derives [.phrase .statement] i k ∧ Derives blockRow k j := by
    rcases Derives.repeated_iff.1 h with h | h
    · rcases h.starts with hs | ⟨-, rfl⟩
      · exact absurd (List.mem_singleton.1 hs) hreturn
      · exact absurd hj hclose
    · exact h
  obtain ⟨k, hk, h⟩ := hfirst
  unfold statementRow
  split
  · rename_i hlabel
    exact Derives.cons_iff.2 ⟨k, void_of_statement (by rw [hlabel]; decide) hk, voids_first h hj⟩
  · exact Derives.cons_iff.2 ⟨k, hk, h⟩

theorem Closes.not_starts : ∀ k ∈ rowStarts blockRow, ¬ Closes k := by decide

theorem Closes.avoids {k : TokenKind} (h : Closes k) : Avoids afterStatement k := by
  have hall : ∀ k ∈ afterStatement, ¬ Closes k := by decide
  exact fun hk => hall k hk h

theorem parses_statementLoop (h : NestedReads r) (n : Nat) :
    Parses i (iterate (statementTurn r) n ()) blockRow Closes := by
  induction n generalizing i with
  | zero => exact ⟨fun s _ => .tolerable trivial⟩
  | succ n ih =>
    unfold iterate statementTurn
    simp only [bind_assoc]
    refine .skip fun taken => .blockEnds true ?_
    by_cases hclose : (ahead i).closes true = true
    · rw [if_pos hclose, pure_bind]
      refine (ParsesTo.pure (V := fun _ => True) trivial).congr (fun j hd => ?_) fun j _ hd => ?_
      · exact .stop (.without hd)
      · rcases hd.starts with hs | ⟨-, rfl⟩
        · exact absurd hclose (Closes.not_starts _ hs)
        · exact .nil i
    · rw [if_neg hclose]
      simp only [bind_assoc]
      refine .kind ?_
      by_cases hreturn : ahead i = .word .return_
      · refine ParsesTo.congr (X := [.phrase .return_]) ?_ (fun j hd => .stop (.with_ hd (.nil j)))
          fun j hF hd => ?_
        · simp only [hreturn, if_true]
          refine (h.return_ i hreturn).bind (X := []) (fun _ j => .pure trivial) .nil
        · rcases Derives.repeated_iff.1 hd with hd | ⟨k, hd, -⟩
          · rcases Derives.optional_iff.1 hd with hd | ⟨k, hd, hk⟩
            · exact absurd (Derives.nil_iff.1 hd ▸ hF) hclose
            · exact Derives.nil_iff.1 hk ▸ hd
          · exact absurd (hd.mem_starts rfl) (by rw [hreturn]; decide)
      · refine ParsesTo.congr (X := statementRow (ahead i) ++ blockRow) ?_ (fun j hd => ?_)
          fun j hF hd => ?_
        · simp only [hreturn, if_false]
          exact (h.statement i hreturn).bind (X := blockRow)
            (fun _ j => .skip (m := checkAdvance taken) fun _ => ih)
            ⟨by decide, fun _ k => Closes.avoids⟩
        · exact block_of_statementRow hd
        · exact statementRow_of_block hreturn hclose hF hd

theorem parses_statements (h : NestedReads r) : Parses i (statements r) [.phrase .block] Closes :=
  .phrase_only rfl ⟨fun s hs => (parses_statementLoop h s.bound).outcome s hs⟩

def parameterTurn (n : Nat) : M (Turn Nat (Nat × Bool)) := do
  match ← currentToken with
  | .name _ =>
    let (name, number) ← takeDeclared
    discard (declare (some name) .regular (some number))
    return if ← testNext (.char ',') then .again (n + 1) else .done (n + 1, false)
  | .symbol .dots =>
    next
    return .done (n, true)
  | _ => syntaxError (utf8 "<name> or '...' expected")

theorem parses_parameterLoop (n m : Nat) :
    Parses i (iterate parameterTurn n m) [.phrase .parameters] (fun k => k = .char ')') := by
  induction n generalizing i m with
  | zero => exact ⟨fun s _ => .tolerable trivial⟩
  | succ n ih =>
    unfold iterate parameterTurn
    simp only [bind_assoc]
    refine .skip fun taken => .currentToken ?_
    by_cases hname : ahead i = .name
    · obtain ⟨name, hi⟩ := name_cons hname
      rw [hi]
      simp only [bind_assoc]
      refine .phrase (X := [.token .name, .optional [.char ',', .phrase .parameters]])
        (by rw [hname]; rfl) ?_
      refine parses_takeDeclared.bind (X := [.optional [.char ',', .phrase .parameters]])
        (fun name j => .skip fun _ => ?_) .any
      refine .ifToken (X := []) (by decide) (fun k => ?_) ?_
        ⟨by decide, fun _ k hk => by rw [hk]; decide⟩
      · exact .skip (m := checkAdvance taken) fun _ => ih (m + 1)
      · exact .pure trivial
    · by_cases hdots : ahead i = .symbol .dots
      · rw [symbol_cons hdots]
        simp only [bind_assoc, pure_bind]
        refine .phrase (X := [.symbol .dots]) (by rw [hdots]; rfl) ?_
        exact ((parses_next hdots (by decide)).follow fun _ _ => trivial).finish
      · refine .refuse (fun s => ?_) fun j _ hd => ?_
        · refine Fails.bind ?_
          split
          · exact absurd ‹_› (name_ne hname _)
          · rename_i hi
            exact absurd (by rw [ahead, hi]; rfl) hdots
          · exact fails_syntaxError ..
        · have hs := hd.mem_starts rfl
          simp [rowStarts, Part.starts, Part.nullable, Phrase.nullable, Phrase.starts, hname, hdots]
            at hs

theorem parses_declared (p : Nat × Bool) {F : TokenKind → Prop} : Parses i (do
    activate p.1
    let active ← ofFn (·.active)
    modifyFn fun f => { f with numParams := active }
    if p.2 then setVararg active
    reserve active) [] F := by
  have hmodify : ∀ active, Still (modifyFn fun f => { f with numParams := active }) := fun active =>
    still_coding (h := coding_modifyFn _)
  refine .skip fun _ => .skip fun active => .skip fun _ => ?_
  split
  · exact .skip fun _ => .still
  · exact .still

theorem parses_parameters : Parses i parameters [.optional [.phrase .parameters]]
    (fun k => k = .char ')') := by
  unfold parameters
  refine .kind ?_
  by_cases hclose : ahead i = .char ')'
  · rw [if_pos hclose]
    exact .optional_without (parses_declared (0, false)) rfl (by rw [hclose]; decide)
  · rw [if_neg hclose]
    refine .optional_with (X := []) (G := fun k => k = .char ')') ?_ .nil hclose
    have hloop : Parses i (repeatTurn parameterTurn 0) [.phrase .parameters]
        (fun k => k = .char ')') :=
      ⟨fun s hs => (parses_parameterLoop s.bound 0).outcome s hs⟩
    exact hloop.bind (X := []) (fun p j => parses_declared p) .nil

theorem parses_functionBody (h : NestedReads r) (isMethod : Bool) (line : Nat) :
    Parses i (functionBody r isMethod line) [.phrase .body] Any := by
  have hmodify : ∀ last, Still (modifyFn fun f => { f with lastLineDefined := last }) := fun last =>
    still_coding (h := coding_modifyFn _)
  have hrest : ∀ j, Parses j (do
      parameters
      checkNext (.char ')')
      statements r
      let last ← currentLine
      modifyFn fun f => { f with lastLineDefined := last }
      checkMatch (.word .end_) (.word .function_) line
      let e ← emitClosure
      endNested
      return e) [.optional [.phrase .parameters], .char ')', .phrase .block, .word .end_] Any := by
    intro j
    refine parses_parameters.bind (X := [.char ')', .phrase .block, .word .end_]) (fun _ j => ?_)
      (.firm (by decide) rfl)
    refine (parses_checkNext (by decide)).bind (X := [.phrase .block, .word .end_]) (fun _ j => ?_)
      .any
    refine (parses_statements h).bind (X := [.word .end_])
      (fun _ j => .skip fun last => .skip fun _ => ?_) (.firm (by decide) rfl)
    exact (parses_checkMatch (by decide)).finish
  refine .phrase_only rfl (.skip fun _ => ?_)
  refine (parses_checkNext (by decide)).bind
    (X := [.optional [.phrase .parameters], .char ')', .phrase .block, .word .end_])
    (fun _ j => ?_) .any
  cases isMethod with
  | true => exact .skip fun _ => .skip fun _ => hrest j
  | false => exact hrest j

theorem parses_literal {k : TokenKind} (kind : ExpKind) (hi : ahead i = k) (hk : k ≠ .eos) :
    Parses i (do next; return Exp.mk kind none none) [.token k] Any := (parses_next hi hk).finish

instance still_varargError {α : Type} :
    Still (syntaxError (utf8 "cannot use '...' outside a vararg function") : M α) :=
  ⟨fun _ _ _ => .inr (.inr ⟨rfl, by simp [excused]⟩)⟩

theorem parses_prefixed (h : NestedReads r) : Parses i (suffixed r)
    [.phrase .prefixed, .notNext (.char '(')] (Avoids afterOperand) := by
  refine ⟨fun s hs => ?_⟩
  have hparen : ∀ k, Avoids suffixKinds k → k ≠ .char '(' := by
    rintro _ hk rfl
    exact hk (by decide)
  refine Reading.narrow (G := Avoids suffixKinds) ?_ fun _ j hd hF => ?_
  · refine (reading_suffixed h hs).congr
      (fun e a j he hd => ⟨(), trivial, ?_, fun _ j' hd' _ => ?_⟩) fun _ j hd _ => ?_
    · exact Derives.cons_iff.2 ⟨j, Shape.prefixed hd, .notNext (hparen _ he.2) (.nil j)⟩
    · obtain ⟨k, hp, hk⟩ := Derives.cons_iff.1 hd'
      obtain rfl := Derives.nil_iff.1 (Derives.notNext_iff.1 hk).2
      obtain ⟨b, hb⟩ := prefixed_shape.1 hp
      exact ⟨b, hb, fun _ => rfl⟩
    · obtain ⟨k, hp, hk⟩ := Derives.cons_iff.1 hd
      obtain rfl := Derives.nil_iff.1 (Derives.notNext_iff.1 hk).2
      exact prefixed_shape.1 hp
  · obtain ⟨k, -, hk⟩ := Derives.cons_iff.1 hd
    obtain ⟨hne, hk⟩ := Derives.notNext_iff.1 hk
    obtain rfl := Derives.nil_iff.1 hk
    intro hm
    have hkinds : ∀ k ∈ suffixKinds, k ≠ .char '(' → k ∈ afterOperand := by decide
    exact hF (hkinds _ hm hne)

def literalKinds : List TokenKind :=
  [.word .nil_, .word .true_, .word .false_, .integer, .float, .string, .symbol .dots,
    .word .function_]

theorem parses_otherValue (h : NestedReads r) (hi : ahead i ∉ literalKinds) :
    Parses i (if ahead i = .byte 123 then constructor r else suffixed r) [.phrase .value]
      (Avoids afterOperand) := by
  split
  · rename_i hbrace
    refine .phrase (X := [.phrase .constructor]) (by rw [hbrace]; rfl) ?_
    exact (parses_constructor h).follow fun _ _ => trivial
  · rename_i hbrace
    refine (parses_prefixed h).congr (fun j hd => ?_) fun j _ hd => ?_
    · exact Derives.single_iff.2 ⟨_, List.mem_of_getElem? (i := 9) rfl, hd⟩
    · obtain ⟨Y, hY, hd⟩ := Derives.single_iff.1 hd
      simp only [productions, List.mem_cons, List.not_mem_nil, or_false] at hY
      rcases hY with rfl | rfl | rfl | rfl | rfl | rfl | rfl | rfl | rfl | rfl
      case inr.inr.inr.inr.inr.inr.inr.inr.inl =>
        exact absurd (List.mem_singleton.1 (hd.mem_starts rfl)) hbrace
      case inr.inr.inr.inr.inr.inr.inr.inr.inr => exact hd
      all_goals exact absurd (by rw [hd.token_ahead]; decide) hi

theorem parses_simpleExpression (h : NestedReads r) : Parses i (simpleExpression r) [.phrase .value]
    (Avoids afterOperand) := by
  unfold simpleExpression
  refine .currentToken ?_
  have hcase : ∀ {X : List Part} {m : M Exp}, Parses i m X Any → candidates .value (ahead i) = [X] →
      Parses i m [.phrase .value] (Avoids afterOperand) := fun hm hX =>
    .phrase hX (by simpa using hm.follow fun _ _ => trivial)
  have hother : ∀ t, i.headD .eos = t → t.kind ∉ literalKinds →
      Parses i (if t.kind = .byte 123 then constructor r else suffixed r) [.phrase .value]
        (Avoids afterOperand) := by
    rintro _ rfl ht
    exact parses_otherValue h ht
  cases hi : i.headD .eos with
  | float x raw =>
    have hk : ahead i = .float := by rw [ahead, hi]; rfl
    exact hcase (parses_literal _ hk (by decide)) (by rw [hk]; rfl)
  | integer x raw =>
    have hk : ahead i = .integer := by rw [ahead, hi]; rfl
    exact hcase (parses_literal _ hk (by decide)) (by rw [hk]; rfl)
  | string x raw =>
    have hk : ahead i = .string := by rw [ahead, hi]; rfl
    exact hcase (parses_literal _ hk (by decide)) (by rw [hk]; rfl)
  | word w =>
    have hk : ahead i = .word w := by rw [ahead, hi]; rfl
    cases w with
    | nil_ => exact hcase (parses_literal _ hk (by decide)) (by rw [hk]; rfl)
    | true_ => exact hcase (parses_literal _ hk (by decide)) (by rw [hk]; rfl)
    | false_ => exact hcase (parses_literal _ hk (by decide)) (by rw [hk]; rfl)
    | function_ =>
      refine hcase (X := [.word .function_, .phrase .body]) ?_ (by rw [hk]; rfl)
      exact (parses_next hk (by decide)).bind (X := [.phrase .body])
        (fun _ j => .skip fun line => parses_functionBody h false line) .any
    | _ => exact hother _ hi (by decide)
  | symbol x =>
    have hk : ahead i = .symbol x := by rw [ahead, hi]; rfl
    cases x with
    | dots =>
      refine hcase (X := [.symbol .dots]) ?_ (by rw [hk]; rfl)
      refine .skip fun isVararg => ?_
      cases isVararg with
      | true => exact .skip fun pc => parses_literal _ hk (by decide)
      | false => exact .skip fun _ => .skip fun pc => parses_literal _ hk (by decide)
    | _ => exact hother _ hi (by decide)
  | byte b => exact hother _ hi (by simp [Token.kind, literalKinds])
  | name text => exact hother _ hi (by simp [Token.kind, literalKinds])
  | eos => exact hother _ hi (by decide)

theorem begins_value (h : NestedReads r) (hi : ahead i ∉ unaryKinds) :
    Begins (fun _ _ => True) [.phrase .expression] i (simpleExpression r) := by
  have hvalue : ∀ j, Derives [.phrase .operand] i j → Derives [.phrase .value] i j := by
    intro j hd
    obtain ⟨Y, hY, hd⟩ := Derives.single_iff.1 hd
    rcases List.mem_cons.1 hY with rfl | hY
    · exact absurd
        (by
          simpa [rowStarts, Part.starts, Part.nullable, Phrase.nullable, Phrase.starts]
            using hd.mem_starts rfl) hi
    · rwa [List.mem_singleton.1 hY] at hd
  have hfollow : ∀ j k, Derives operations j k → Avoids afterExpression (ahead k) →
      Avoids afterOperand (ahead j) := by
    intro j k hd hk
    rcases hd.starts with hs | ⟨-, rfl⟩
    · have hkinds : ∀ k ∈ rowStarts operations, Avoids afterOperand k := by decide
      exact hkinds _ hs
    · exact hk.mono (List.subset_append_left ..)
  refine ⟨fun s hs => ?_⟩
  have hm := (parses_simpleExpression h (i := i)).outcome s hs
  generalize simpleExpression r s = res at hm
  cases hm with
  | tolerable h => exact .inl h
  | refused h =>
    refine .inr fun k hd hF => ?_
    obtain ⟨j, ho, hj⟩ := expression_iff.1 hd
    exact h () j (hvalue j ho) (hfollow j k hj hF)
  | @ok a s' _ j hj _ hd hu =>
    refine ⟨j, hj, trivial, expression_iff.2
      ⟨j, Derives.single_iff.2 ⟨_, .tail _ (.head _), hd⟩, .stop (.nil j)⟩, fun k hk hF => ?_⟩
    obtain ⟨l, ho, hl⟩ := expression_iff.1 hk
    obtain ⟨-, rfl⟩ := hu () l (hvalue l ho) (hfollow l k hl hF)
    exact hl

/-- The first operand of an expression; after a unary operator it is the first of what the operator
is applied to. -/
def firstOperand (r : Nested) : M Exp := do
  match unaryOp? (← currentKind) with
  | some op =>
    let line ← currentLine
    next
    let (e, _) ← r.subExpr unaryPriority
    unaryExp op e line
  | none => simpleExpression r

theorem subExpression_split (r : Nested) (limit : Nat) : subExpression r limit = (do
    let e ← firstOperand r
    let op := binaryOp? (← currentKind)
    repeatTurn (operatorTurn r limit) (e, op)) := by
  rw [subExpression_eq]
  unfold firstOperand
  simp only [bind_assoc]
  congr 1
  funext k
  cases unaryOp? k <;> simp only [bind_assoc]

theorem expression_unary (hi : ahead i ∈ unaryKinds) : Derives [.phrase .expression] i j ↔
    Derives [.phrase .expression] i.tail j := by
  have hunary : ∀ k, Derives [.phrase .operand] i k ↔ Derives [.phrase .operand] i.tail k := by
    intro k
    constructor
    · intro hd
      obtain ⟨Y, hY, hd⟩ := Derives.single_iff.1 hd
      rcases List.mem_cons.1 hY with rfl | hY
      · obtain ⟨Y, hY, l, hop, hd⟩ := Derives.phrase_iff.1 hd
        obtain ⟨x, -, rfl⟩ := List.mem_map.1 hY
        obtain ⟨t, i', rfl, -, ht⟩ := Derives.token_iff.1 hop
        obtain rfl := Derives.nil_iff.1 ht
        exact hd
      · have hkinds : ∀ k ∈ unaryKinds, k ∉ rowStarts [.phrase .value] := by decide
        rw [List.mem_singleton.1 hY] at hd
        exact absurd (hd.mem_starts rfl) (hkinds _ hi)
    · intro hd
      obtain ⟨t, hi', ht⟩ := token_cons rfl fun heos : ahead i = .eos => by
        rw [heos] at hi; revert hi; decide
      rw [hi']
      exact Derives.single_iff.2
        ⟨_, .head _, .phrase (List.mem_map.2 ⟨_, hi, rfl⟩) (.token ht (.nil _)) hd⟩
  simp only [expression_iff, hunary]

theorem begins_firstOperand (h : NestedReads r) : Begins (fun _ _ => True)
    [.phrase .expression] i (firstOperand r) := by
  refine .kind ?_
  cases hop : unaryOp? (ahead i) with
  | some op =>
    have hi : ahead i ∈ unaryKinds := (unaryOp?_isSome _).1 (by rw [hop]; rfl)
    refine .skip fun line => .next ?_ (fun j => (expression_unary hi).2) fun j _ =>
      (expression_unary hi).1
    exact .bind expression_append (h.subExpr _ _) fun ⟨e, op?⟩ j _ => .still
  | none => exact begins_value h (unaryOp?_eq_none.1 hop)

theorem begins_subExpression (h : NestedReads r) (limit : Nat) :
    Begins (Stops limit) [.phrase .expression] i (subExpression r limit) := by
  rw [subExpression_split]
  refine (begins_firstOperand h).bind expression_append fun e j _ => .kind ?_
  exact ⟨fun s hs => (begins_operators h limit s.bound e).outcome s hs⟩

end LuaChunk.Compile
