import LuaChunk.Proofs.Syntax.Operations
import LuaChunk.Proofs.Syntax.Shapes

set_option autoImplicit false

namespace LuaChunk.Compile

open LuaChunk Grammar

variable {α β : Type} {i j : List Token} {r : Nested}

theorem parses_expressionList (h : NestedReads r) : Parses i (expressionList r)
    [.phrase .expressions] (Avoids afterList) := by
  refine .phrase_only rfl ?_
  refine (parses_expression h).bind (X := [.repeated [.char ',', .phrase .expression]])
    (fun first j => ?_)
    (.avoids ⟨by decide, fun _ => by decide⟩)
  have hstop : ∀ (a : Nat × Exp) s j, s.Faces j → ahead j ≠ .char ',' → ∃ b : Nat × Exp, (do
      if ← testNext (.char ',') then
        discard (toNextRegister a.2)
        let e ← expression r
        return .again (a.1 + 1, e)
      else return .done a : M (Turn (Nat × Exp) (Nat × Exp))) s = .ok (.done b) s := by
    intro a s j hs hj
    refine ⟨a, ?_⟩
    rw [bind_eq (testNext_false hs hj)]
    rfl
  refine .loop (G := Avoids afterExpression) hstop (fun a j hj => ?_) (fun x hx => ?_) (by decide)
    (fun x hx => hx.mono (by decide)) _
  · refine .test_true hj nofun fun j => .skip fun _ => ?_
    exact (parses_expression h).finish_of fun e _ => .pure ⟨_, rfl⟩
  · rintro rfl
    exact hx (by decide)

theorem parses_bracketed (h : NestedReads r) (hi : ahead i = .char '[') :
    Parses i (bracketed r) [.char '[', .phrase .expression, .char ']'] Any := by
  refine (parses_next hi nofun).bind (X := [.phrase .expression, .char ']']) (fun _ j => ?_) .any
  refine (parses_expression h).bind (X := [.char ']']) (fun e j => .skip fun e => ?_)
    (.firm (by decide) rfl)
  exact (parses_checkNext (by decide)).finish

theorem expression_name (h : Derives [.phrase .expression] i j) (hi : ahead i = .name)
    (hnext : Avoids (suffixKinds ++ binaryKinds) (ahead i.tail)) : i.tail = j := by
  obtain ⟨k, ho, hk⟩ := expression_iff.1 h
  have hvalue := (single_of (X := [.phrase .value]) (by rw [hi]; rfl)).1 ho
  have hprefixed := (single_of (X := [.phrase .prefixed, .notNext (.char '(')]) (by rw [hi]; rfl)).1
    hvalue
  obtain ⟨l, hp, hl⟩ := Derives.cons_iff.1 hprefixed
  obtain ⟨-, hl⟩ := Derives.notNext_iff.1 hl
  obtain rfl := Derives.nil_iff.1 hl
  obtain ⟨m, hprimary, hs⟩ := prefixed_iff.1 hp
  have hname := (single_of (X := [.token .name]) (by rw [hi]; rfl)).1 hprimary
  obtain ⟨t, i', rfl, -, hm⟩ := Derives.token_iff.1 hname
  obtain rfl := Derives.nil_iff.1 hm
  have hstop : i' = l := by
    refine repeated_none rfl ?_ hs
    exact fun hmem => hnext (List.mem_append_left _ hmem)
  subst hstop
  exact operations_none (fun hmem => hnext (List.mem_append_right _ hmem)) hk

theorem parses_listItem (h : NestedReads r) (c : Constructor) : Parses i (listItem r c)
    [.phrase .expression] (Avoids afterExpression) :=
  (parses_expression h).finish

theorem parses_key (h : NestedReads r) {X : List Part}
    (hi : ahead i = .name ∧ X = [.token .name] ∨ ahead i = .char '[' ∧
    X = [.char '[', .phrase .expression, .char ']']) :
    Parses i (do match ← currentToken with
      | .name _ => pure (Exp.str (← takeName))
      | _ => bracketed r) X Any := by
  refine .currentToken ?_
  rcases hi with ⟨hi, rfl⟩ | ⟨hi, rfl⟩
  · obtain ⟨name, hn⟩ := name_cons hi
    rw [hn]
    exact parses_takeName.finish
  · rw [byte_cons hi]
    exact parses_bracketed h hi

theorem recordItem_eq (r : Nested) (c : Constructor) : recordItem r c = (do
    let top ← freeReg
    let key ← (do match ← currentToken with
      | .name _ => pure (Exp.str (← takeName))
      | _ => bracketed r)
    let c := { c with records := c.records + 1 }
    checkItems c.records
    checkNext (.char '=')
    let target ← index (.inReg c.table) key
    let value ← expression r
    storeTo target value
    setFreeReg top
    return c) := by
  unfold recordItem
  simp only [bind_assoc]
  congr 1
  funext top
  congr 1
  funext t
  cases t <;> simp only [bind_assoc, pure_bind]

theorem parses_recordItem (h : NestedReads r) (c : Constructor) {X : List Part}
    (hi : ahead i = .name ∧ X = [.token .name] ∨ ahead i = .char '[' ∧
    X = [.char '[', .phrase .expression, .char ']']) :
    Parses i (recordItem r c) (X ++ [.char '=', .phrase .expression]) (Avoids afterExpression) := by
  rw [recordItem_eq]
  refine .skip fun top => (parses_key h hi).bind (fun key j => .skip fun _ => ?_) .any
  refine (parses_checkNext (by decide)).bind (X := [.phrase .expression])
    (fun _ j => .skip fun target => ?_) .any
  exact (parses_expression h).finish

def afterField : List TokenKind := .char '=' :: afterExpression

theorem parses_constructorItem (h : NestedReads r) (c : Constructor) :
    Parses i (constructorItem r c) [.phrase .field] (Avoids afterField) := by
  have hfollow : ∀ k, Avoids afterField k → Avoids afterExpression k :=
    fun k hk => hk.mono (List.subset_cons_self _ _)
  refine .kind ?_
  by_cases hname : ahead i = .name
  · rw [hname]
    refine .lookahead ?_
    by_cases hassign : ahead i.tail = .char '='
    · rw [if_pos hassign]
      refine ((parses_recordItem h c (.inl ⟨hname, rfl⟩)).follow hfollow).congr (fun j hd => ?_)
        fun j hF hd => ?_
      · exact Derives.single_iff.2 ⟨_, .head _, hd⟩
      · obtain ⟨Y, hY, hd⟩ := Derives.single_iff.1 hd
        have hY := mem_candidates hY hd
        rw [hname] at hY
        rcases List.mem_cons.1 hY with rfl | hY
        · exact hd
        · obtain rfl := List.mem_singleton.1 hY
          have hj := expression_name hd hname (by rw [hassign]; decide)
          rw [← hj, hassign] at hF
          exact absurd (List.mem_cons_self ..) hF
    · rw [if_neg hassign]
      refine ((parses_listItem h c).follow hfollow).congr (fun j hd => ?_) fun j hF hd => ?_
      · exact Derives.single_iff.2 ⟨_, .tail _ (.tail _ (.head _)), hd⟩
      · obtain ⟨Y, hY, hd⟩ := Derives.single_iff.1 hd
        have hY := mem_candidates hY hd
        rw [hname] at hY
        rcases List.mem_cons.1 hY with rfl | hY
        · obtain ⟨t, i', rfl, -, hd⟩ := Derives.token_iff.1 hd
          obtain ⟨t', i'', rfl, ht, -⟩ := Derives.token_iff.1 hd
          exact absurd ht hassign
        · obtain rfl := List.mem_singleton.1 hY
          exact hd
  · split
    · exact absurd ‹_› hname
    · split
      · rename_i hbracket
        refine ((parses_recordItem h c (.inr ⟨hbracket, rfl⟩)).follow hfollow).congr
          (fun j hd => ?_) fun j _ hd => ?_
        · exact (single_of (by rw [hbracket]; rfl)).2 hd
        · exact (single_of (by rw [hbracket]; rfl)).1 hd
      · rename_i hbracket
        refine ((parses_listItem h c).follow hfollow).congr (fun j hd => ?_) fun j _ hd => ?_
        · exact Derives.single_iff.2 ⟨_, .tail _ (.tail _ (.head _)), hd⟩
        · obtain ⟨Y, hY, hd⟩ := Derives.single_iff.1 hd
          simp only [productions, List.mem_cons, List.not_mem_nil, or_false] at hY
          rcases hY with rfl | rfl | rfl
          · obtain ⟨t, i', rfl, ht, -⟩ := Derives.token_iff.1 hd
            exact absurd ht hname
          · obtain ⟨t, i', rfl, ht, -⟩ := Derives.token_iff.1 hd
            exact absurd ht hbracket
          · exact hd

/-- The turns of the loop that reads the items of a constructor. -/
def itemTurn (r : Nested) (limit : Nat) (c : Constructor) : M (Turn Constructor Constructor) := do
  if (← currentKind) = .byte 125 then return .done c
  let c ← closeItem c limit
  let c ← constructorItem r c
  if ← testNext (.char ',') then return .again c
  else if ← testNext (.char ';') then return .again c
  else return .done c

theorem constructor_eq (r : Nested) : constructor r = (do
    let line ← currentLine
    let pc ← emit (.vabck .newTable 0 0 0 0)
    discard (emit (.abck .move 0 0 0 0))
    let table ← freeReg
    reserve 1
    checkNext (.byte 123)
    let limit := maxPending (← freeReg)
    let c ← repeatTurn (itemTurn r limit) { table }
    checkMatch (.byte 125) (.byte 123) line
    let list ← closeItems c
    setTableSize pc table list c.records
    return .inReg table) := rfl

theorem parses_separator {W : β → Prop} {f : Bool → M β} {k : TokenKind} (hi : ahead i = k)
    (hk : k = .char ',' ∨ k = .char ';')
    (h : ∀ j, ParsesTo W j (f true) [.phrase .fields] (fun k => k = .byte 125)) :
    ParsesTo W i (testNext k >>= f) [.optional [.phrase .separator, .phrase .fields]]
      (fun k => k = .byte 125) := by
  refine .optional_with (X := []) (G := fun k => k = .byte 125) (.phrase (X := [.token k]) ?_ ?_)
    .nil ?_
  · rcases hk with rfl | rfl <;> rw [hi] <;> rfl
  · exact .test_true hi (by rcases hk with rfl | rfl <;> decide) h
  · rw [hi]
    rcases hk with rfl | rfl <;> decide

theorem parses_items (h : NestedReads r) (limit n : Nat) (c : Constructor) :
    Parses i (iterate (itemTurn r limit) n c) [.phrase .fields] (fun k => k = .byte 125) := by
  induction n generalizing i c with
  | zero => exact ⟨fun s _ => .tolerable trivial⟩
  | succ n ih =>
    unfold iterate itemTurn
    simp only [bind_assoc]
    refine .skip fun taken => .kind ?_
    by_cases hclose : ahead i = .byte 125
    · rw [if_pos hclose, pure_bind]
      refine (ParsesTo.pure (V := fun _ => True) trivial).congr (fun j hd => ?_) fun j _ hd => ?_
      · exact Derives.single_iff.2 ⟨_, .head _, hd⟩
      · exact (single_of (by rw [hclose]; rfl)).1 hd
    · rw [if_neg hclose]
      refine ParsesTo.congr (X := [.phrase .field, .optional [.phrase .separator, .phrase .fields]])
        ?_ (fun j hd => ?_) fun j hF hd => ?_
      · simp only [bind_assoc]
        refine .skip fun c => (parses_constructorItem h c).bind
          (X := [.optional [.phrase .separator, .phrase .fields]]) (fun c j => ?_)
          ⟨by decide, fun _ k hk => by subst hk; decide⟩
        by_cases hcomma : ahead j = .char ','
        · refine parses_separator hcomma (.inl rfl) fun j => ?_
          exact .skip (m := checkAdvance taken) fun _ => ih c
        · refine .test_false hcomma ?_
          simp only [Bool.false_eq_true, if_false, bind_assoc]
          by_cases hsemicolon : ahead j = .char ';'
          · refine parses_separator hsemicolon (.inr rfl) fun j => ?_
            exact .skip (m := checkAdvance taken) fun _ => ih c
          · refine .test_false hsemicolon ?_
            refine ParsesTo.optional_without (X := []) (.pure trivial) rfl ?_
            intro hm
            simp only [rowStarts, Part.starts, Part.nullable, Phrase.nullable, Phrase.starts,
              List.mem_append, List.mem_cons] at hm
            simp [hcomma, hsemicolon] at hm
      · exact Derives.single_iff.2 ⟨_, .tail _ (.head _), hd⟩
      · obtain ⟨Y, hY, hd⟩ := Derives.single_iff.1 hd
        rcases List.mem_cons.1 hY with rfl | hY
        · obtain rfl := Derives.nil_iff.1 hd
          exact absurd hF hclose
        · obtain rfl := List.mem_singleton.1 hY
          exact hd

theorem parses_constructor (h : NestedReads r) : Parses i (constructor r)
    [.phrase .constructor] Any := by
  rw [constructor_eq]
  refine .phrase_only rfl ?_
  refine .skip fun line => .skip fun pc => .skip fun _ => .skip fun table => .skip fun _ => ?_
  refine (parses_checkNext (by decide)).bind (X := [.phrase .fields, .token (.byte 125)])
    (fun _ j => .skip fun top => ?_) .any
  have hitems : Parses j (repeatTurn (itemTurn r (maxPending top)) { table }) [.phrase .fields]
      (fun k => k = .byte 125) :=
    ⟨fun s hs => (parses_items h (maxPending top) s.bound { table }).outcome s hs⟩
  refine hitems.bind (X := [.token (.byte 125)]) (fun c j => ?_) (.firm (by decide) rfl)
  exact (parses_checkMatch (by decide)).finish

theorem parses_fieldOf (e : Exp) {k : TokenKind} (hi : ahead i = k) (hk : k ≠ .eos) :
    ParsesTo (fun e => e.isVariable = true) i (fieldOf e) [.token k, .token .name] Any := by
  refine .skip fun table => (parses_next hi hk).bind (X := [.token .name]) (fun _ j => ?_) .any
  exact parses_takeName.finish_of fun name _ => (results_index ..).noting none

def Exp.IsCall (e : Exp) : Prop := ∃ pc, e.kind = .call pc

def callTail (base line : Nat) (args : Exp) : M Exp := do
  let operand ←
    if args.isMulti then pure 0
    else do
      if !args.isVoid then discard (toNextRegister args)
      pure ((← freeReg) - base)
  let pc ← emitABC .call base operand 2
  fixLine line
  setFreeReg (base + 1)
  noteTarget none
  return ⟨.call pc, none, none⟩

instance coding_callTail (base line : Nat) (args : Exp) :
    Coding false true (callTail base line args) := by
  have hemit : ∀ operand, Coding false true (do
      let pc ← emitABC .call base operand 2
      fixLine line
      setFreeReg (base + 1)
      noteTarget none
      return (⟨.call pc, none, none⟩ : Exp)) := fun _ => inferInstance
  unfold callTail
  dsimp only
  split
  · exact .seq inferInstance hemit
  · split
    · exact .seq inferInstance fun _ => .seq inferInstance fun _ => .seq inferInstance hemit
    · exact .seq inferInstance fun _ => .seq inferInstance hemit

theorem results_callTail (base line : Nat) (args : Exp) :
    Results Exp.IsCall (callTail base line args) := by
  have hemit : ∀ operand, Results Exp.IsCall (do
      let pc ← emitABC .call base operand 2
      fixLine line
      setFreeReg (base + 1)
      noteTarget none
      return ⟨.call pc, none, none⟩) := fun operand => .seq fun pc => .seq fun _ => .seq fun _ =>
        .seq fun _ => .pure ⟨pc, rfl⟩
  unfold callTail
  exact .ite (fun _ => .seq hemit) fun _ =>
    .ite (fun _ => .seq fun _ => .seq fun _ => .seq hemit) fun _ => .seq fun _ => .seq hemit

theorem parses_argumentList (h : NestedReads r) (base line : Nat) (hi : ahead i = .char '(') :
    ParsesTo Exp.IsCall i (do
      next
      let args ← if (← currentKind) = .char ')' then pure Exp.void
        else do
          let (_, e) ← expressionList r
          if e.isMulti then setReturns e none
          pure e
      checkMatch (.char ')') (.char '(') line
      callTail base line args) [.char '(', .optional [.phrase .expressions], .char ')'] Any := by
  have hclose : ∀ args j, ParsesTo Exp.IsCall j
      (do checkMatch (.char ')') (.char '(') line; callTail base line args) [.char ')'] Any :=
    fun args j => (parses_checkMatch (by decide)).finish_of fun _ _ => results_callTail ..
  refine (parses_next hi (by decide)).bind (X := [.optional [.phrase .expressions], .char ')'])
    (fun _ j => .kind ?_) .any
  by_cases hj : ahead j = .char ')'
  · rw [if_pos hj]
    exact .optional_without (hclose _ j) rfl (by rw [hj]; decide)
  · rw [if_neg hj]
    refine .optional_with (X := [.char ')']) (G := fun k => k = .char ')') ?_
      (.firm (by decide) rfl) hj
    refine (parses_expressionList h).bind (X := [.char ')']) (fun list k => ?_)
      (.firm (by decide) rfl)
    obtain ⟨n, e⟩ := list
    dsimp only
    split
    · exact .skip fun _ => hclose e k
    · exact hclose e k

theorem kind_front (i : List Token) : (i.headD .eos).kind = ahead i := rfl

theorem parses_callArguments (h : NestedReads r) (base line : Nat) :
    ParsesTo Exp.IsCall i (callArguments r base line) [.phrase .arguments] Any := by
  have htail : ∀ args j, ParsesTo Exp.IsCall j (callTail base line args) [] Any :=
    fun args j => .last (results_callTail ..)
  unfold callArguments
  refine .currentToken ?_
  by_cases hstring : ahead i = .string
  · obtain ⟨text, raw, hi⟩ := string_cons hstring
    rw [hi]
    refine .phrase (X := [.token .string]) (by rw [hstring]; rfl) ?_
    refine (parses_next hstring nofun).bind (X := []) (fun _ j => ?_) .any
    exact htail (.str text) j
  · split
    · rename_i hi
      exact absurd (by rw [ahead, hi]; rfl) hstring
    · rw [kind_front]
      split
      · rename_i hi
        refine .phrase (by rw [hi]; rfl) ?_
        exact parses_argumentList h base line hi
      · rename_i hparen
        split
        · rename_i hi
          refine .phrase (X := [.phrase .constructor]) (by rw [hi]; rfl) ?_
          refine (parses_constructor h).bind (X := []) (fun e j => ?_) .any
          exact htail e j
        · rename_i hbrace
          refine .refuse (fun s => (fails_syntaxError _ s).bind) fun j _ hd => ?_
          have hs := hd.mem_starts rfl
          simp [rowStarts, Part.starts, Part.nullable, Phrase.nullable, Phrase.starts, hstring,
            hparen, hbrace] at hs

/-- What tells the shape of an expression from what is known of its value. -/
def Exp.HasShape (e : Exp) : Shape → Prop
  | .target => e.isVariable = true
  | .call => e.IsCall
  | .group => e.IsValue

theorem ParsesTo.shaped {D : Shape → List Token → Prop} {F : TokenKind → Prop} {X : List Part}
    {m : M Exp} {a : Shape}
    (h : ParsesTo (fun e => e.HasShape a) i m X F) (hD : ∀ b j, D b j ↔ b = a ∧ Derives X i j)
    {s : State} (hs : s.Faces i) :
    Reading D F (fun e b _ => e.HasShape b) (m s) := by
  refine (h.outcome s hs).congr (fun e _ j he hd => ⟨a, he, (hD a j).2 ⟨rfl, hd⟩, ?_⟩)
    fun b j hd _ => ?_
  · intro b j' hd' _
    obtain ⟨rfl, hX⟩ := (hD b j').1 hd'
    exact ⟨(), hX, fun _ => rfl⟩
  · exact ⟨(), ((hD b j).1 hd).2⟩

theorem reading_primary (h : NestedReads r) {s : State} (hs : s.Faces i) :
    Reading (fun a j => Shape.Starts a i j) Any (fun e a _ => e.HasShape a) (primary r s) := by
  by_cases hname : ahead i = .name
  · have hread : ParsesTo (fun e => e.HasShape .target) i (primary r) [.token .name] Any := by
      refine .currentToken ?_
      obtain ⟨name, hi⟩ := name_cons hname
      rw [hi]
      exact parses_takeVariable
    refine hread.shaped (fun b j => ⟨fun hd => ?_, fun ⟨hb, hd⟩ => hb ▸ hd⟩) hs
    cases b with
    | target => exact ⟨rfl, hd⟩
    | call => exact hd.elim
    | group => exact absurd (Derives.mem_starts hd rfl) (by rw [hname]; decide)
  · by_cases hparen : ahead i = .char '('
    · have hread : ParsesTo (fun e => e.HasShape .group) i (primary r)
          [.char '(', .phrase .expression, .char ')'] Any := by
        refine .currentToken ?_
        rw [byte_cons hparen]
        refine .skip fun line => (parses_next hparen (by decide)).bind
          (X := [.phrase .expression, .char ')']) (fun _ j => ?_) .any
        refine (parses_expression h).bind (X := [.char ')']) (fun e j => ?_) (.firm (by decide) rfl)
        exact (parses_checkMatch (by decide)).finish_of fun _ _ =>
          (results_dischargeVars e).noting none
      refine hread.shaped (fun b j => ⟨fun hd => ?_, fun ⟨hb, hd⟩ => hb ▸ hd⟩) hs
      cases b with
      | target => exact absurd (Derives.mem_starts hd rfl) (by rw [hparen]; decide)
      | call => exact hd.elim
      | group => exact ⟨rfl, hd⟩
    · have hfails : Fails (primary r) s := by
        unfold primary Fails
        rw [bind_eq (currentToken_eq hs)]
        cases hi : i.headD .eos with
        | name text => exact absurd hi (name_ne hname text)
        | _ =>
          dsimp only
          rw [← hi, kind_front, if_neg hparen]
          exact fails_syntaxError ..
      obtain ⟨e, s', he⟩ := hfails
      rw [he]
      refine .refused fun b j hd _ => ?_
      cases b with
      | call => exact hd
      | target | group =>
        first | exact hname (Derives.token_ahead hd) | exact hparen (Derives.token_ahead hd)

def suffixTurn (r : Nested) (line : Nat) (e : Exp) : M (Turn Exp Exp) := do
  let k ← currentKind
  if k = .char '.' then return .again (← fieldOf e)
  else if k = .char '[' then
    let table ← toRegisterOrUpvalue e
    let key ← bracketed r
    let e ← index table key
    noteTarget none
    return .again e
  else if k = .char ':' then
    next
    let name ← takeName
    let base ← emitSelf e name
    return .again (← callArguments r base line)
  else if k = .char '(' || k = .string || k = .byte 123 then
    let base ← toNextRegister e
    return .again (← callArguments r base line)
  else return .done e

theorem suffixed_eq (r : Nested) : suffixed r = (do
    let line ← currentLine
    let first ← primary r
    repeatTurn (suffixTurn r line) first) := rfl

def GoesOn (a : Shape) (t : Turn Exp Exp) : Prop := ∃ e : Exp, t = .again e ∧ e.HasShape a

structure EndsBy (i : List Token) (a : Shape) (X : List Part) : Prop where
  ends : ∀ b j, Shape.Ends b i j ↔ b = a ∧ Derives X i j

theorem endsBy_field (hi : ahead i = .char '.') : EndsBy i .target [.char '.', .token .name] := by
  refine ⟨fun b j => ⟨fun hd => ?_, fun ⟨hb, hd⟩ => hb ▸ .inl hd⟩⟩
  cases b with
  | target =>
    exact ⟨rfl, hd.resolve_right fun hd => absurd (hd.mem_starts rfl) (by rw [hi]; decide)⟩
  | call => rcases hd with hd | hd <;> exact absurd (hd.mem_starts rfl) (by rw [hi]; decide)
  | group => exact hd.elim

theorem endsBy_index (hi : ahead i = .char '[') :
    EndsBy i .target [.char '[', .phrase .expression, .char ']'] := by
  refine ⟨fun b j => ⟨fun hd => ?_, fun ⟨hb, hd⟩ => hb ▸ .inr hd⟩⟩
  cases b with
  | target => exact ⟨rfl, hd.resolve_left fun hd => absurd (hd.mem_starts rfl) (by rw [hi]; decide)⟩
  | call => rcases hd with hd | hd <;> exact absurd (hd.mem_starts rfl) (by rw [hi]; decide)
  | group => exact hd.elim

theorem endsBy_method (hi : ahead i = .char ':') :
    EndsBy i .call [.char ':', .token .name, .phrase .arguments] := by
  refine ⟨fun b j => ⟨fun hd => ?_, fun ⟨hb, hd⟩ => hb ▸ .inr hd⟩⟩
  cases b with
  | target => rcases hd with hd | hd <;> exact absurd (hd.mem_starts rfl) (by rw [hi]; decide)
  | call => exact ⟨rfl, hd.resolve_left fun hd => absurd (hd.mem_starts rfl) (by rw [hi]; decide)⟩
  | group => exact hd.elim

theorem endsBy_call (hi : ahead i ∈ Phrase.starts .arguments) :
    EndsBy i .call [.phrase .arguments] := by
  refine ⟨fun b j => ⟨fun hd => ?_, fun ⟨hb, hd⟩ => hb ▸ .inl hd⟩⟩
  have hne : ahead i ≠ .char '.' ∧ ahead i ≠ .char '[' ∧ ahead i ≠ .char ':' := by
    generalize ahead i = k at hi
    revert k
    decide
  cases b with
  | target =>
    rcases hd with hd | hd
    · exact absurd hd.token_ahead hne.1
    · exact absurd hd.token_ahead hne.2.1
  | call => exact ⟨rfl, hd.resolve_right fun hd => absurd hd.token_ahead hne.2.2⟩
  | group => exact hd.elim

theorem parses_suffixTurn (h : NestedReads r) (line : Nat) (e : Exp) (hi : ahead i ∈ suffixKinds) :
    ∃ X a, ParsesTo (GoesOn a) i (suffixTurn r line e) X Any ∧ EndsBy i a X := by
  have hcall : ∀ base j, ParsesTo (GoesOn .call) j
      (callArguments r base line >>= fun e => pure (.again e)) [.phrase .arguments] Any :=
    fun base j => (parses_callArguments h base line).finish_of fun e he => .pure ⟨e, rfl, he⟩
  by_cases hfield : ahead i = .char '.'
  · refine ⟨_, _, .kind ?_, endsBy_field hfield⟩
    rw [if_pos hfield]
    exact (parses_fieldOf e hfield (by decide)).finish_of fun e he => .pure ⟨e, rfl, he⟩
  by_cases hindex : ahead i = .char '['
  · refine ⟨_, _, .kind ?_, endsBy_index hindex⟩
    rw [if_neg hfield, if_pos hindex]
    refine .skip fun table => (parses_bracketed h hindex).finish_of fun key _ => ?_
    exact (results_index ..).bind fun e he => .seq fun _ => .pure ⟨e, rfl, he⟩
  by_cases hmethod : ahead i = .char ':'
  · refine ⟨_, _, .kind ?_, endsBy_method hmethod⟩
    rw [if_neg hfield, if_neg hindex, if_pos hmethod]
    refine (parses_next hmethod (by decide)).bind (X := [.token .name, .phrase .arguments])
      (fun _ j => ?_) .any
    refine parses_takeName.bind (X := [.phrase .arguments]) (fun name j => .skip fun base => ?_)
      .any
    exact hcall base j
  · have hstart : ahead i = .char '(' ∨ ahead i = .string ∨ ahead i = .byte 123 := by
      simpa [suffixKinds, Phrase.starts, hfield, hindex, hmethod] using hi
    refine ⟨_, _, .kind ?_, endsBy_call (by simpa [Phrase.starts] using hstart)⟩
    rw [if_neg hfield, if_neg hindex, if_neg hmethod, if_pos (by simpa [or_assoc] using hstart)]
    exact .skip fun base => hcall base i

theorem Shape.Becomes.stopped {a b : Shape} (h : a.Becomes i b j)
    (hi : Avoids suffixKinds (ahead i)) : b = a ∧ j = i := by
  cases h with
  | refl => exact ⟨rfl, rfl⟩
  | step hb _ => exact absurd ((suffix_iff.2 ⟨_, hb⟩).mem_starts rfl) hi

theorem reading_suffixes (h : NestedReads r) (line n : Nat) {a : Shape} {e : Exp}
    (he : e.HasShape a) {s : State} (hs : s.Faces i) :
    Reading (fun b j => a.Becomes i b j) (Avoids suffixKinds)
      (fun e b j => e.HasShape b ∧ Avoids suffixKinds (ahead j))
      (iterate (suffixTurn r line) n e s) := by
  induction n generalizing i a e s with
  | zero => exact .tolerable trivial
  | succ n ih =>
    rw [iterate, bind_eq (tokensTaken_eq s)]
    by_cases hi : ahead i ∈ suffixKinds
    · obtain ⟨X, b, hturn, hends⟩ := parses_suffixTurn h line e hi
      refine ((hturn.outcome s hs).bind (E := fun _ j c k => b.Becomes j c k)
        (W := fun e c k => e.HasShape c ∧ Avoids suffixKinds (ahead k)) (fun t _ j s' ht hs' => ?_)
          fun _ _ _ _ _ _ _ => trivial).congr
        (fun e c j he hd => ?_) fun c j hd hF => ?_
      · obtain ⟨e', rfl, he'⟩ := ht
        exact (ih he' hs').advanced
      · obtain ⟨_, k, hX, hb⟩ := hd
        refine ⟨c, he, .step ((hends.ends b k).2 ⟨rfl, hX⟩) hb, fun c' j' hd' hF => ?_⟩
        cases hd' with
        | refl => exact absurd hi hF
        | step hb hd' =>
          obtain ⟨rfl, hX⟩ := (hends.ends _ _).1 hb
          exact ⟨c', ⟨(), _, hX, hd'⟩, id⟩
      · cases hd with
        | refl => exact absurd hi hF
        | step hb hd =>
          obtain ⟨rfl, hX⟩ := (hends.ends _ _).1 hb
          exact ⟨c, (), _, hX, hd⟩
    · have hdone : suffixTurn r line e s = .ok (.done e) s := by
        simp only [suffixKinds, Phrase.starts, List.mem_cons, List.not_mem_nil, or_false, not_or]
          at hi
        obtain ⟨hfield, hindex, hparen, hstring, hbrace, hmethod⟩ := hi
        unfold suffixTurn
        rw [bind_eq (currentKind_eq hs), if_neg hfield, if_neg hindex, if_neg hmethod,
          if_neg (by simp [hparen, hstring, hbrace])]
        rfl
      rw [bind_eq hdone]
      exact .ok hs ⟨he, hi⟩ (.refl a i) fun b j hd _ => hd.stopped hi

theorem reading_suffixed (h : NestedReads r) {s : State} (hs : s.Faces i) :
    Reading (fun (a : Shape) j => Derives a.row i j) (Avoids suffixKinds)
      (fun e a j => e.HasShape a ∧ Avoids suffixKinds (ahead j))
      (suffixed r s) := by
  rw [suffixed_eq]
  have hline : currentLine s = .ok s.lexer.line s := rfl
  rw [bind_eq hline]
  refine ((reading_primary h hs).bind (E := fun a j b k => a.Becomes j b k)
    (W := fun e b k => e.HasShape b ∧ Avoids suffixKinds (ahead k)) (fun e a j s' he hs' => ?_)
      fun _ _ _ _ _ _ _ => trivial).congr
    (fun e b j he hd => ?_) fun b j hd hF => ?_
  · exact reading_suffixes h _ s'.bound he hs'
  · obtain ⟨a, k, ha, hb⟩ := hd
    exact ⟨b, he, Shape.row_becomes.2 ⟨a, k, ha, hb⟩, fun c l hc _ =>
      ⟨c, Shape.row_becomes.1 hc, id⟩⟩
  · exact ⟨b, Shape.row_becomes.1 hd⟩

end LuaChunk.Compile
