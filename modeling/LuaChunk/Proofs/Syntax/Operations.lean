import LuaChunk.Proofs.Syntax.Precedence
import LuaChunk.Proofs.Syntax.Reading

set_option autoImplicit false

namespace LuaChunk.Compile

open LuaChunk Grammar

variable {α β : Type} {i : List Token} {r : Nested}

instance still_currentLine : Still currentLine := by
  unfold currentLine
  infer_instance

/-- An operand of an operator may follow the operators that are left of it. -/
abbrev operations : List Part := [.repeated [.phrase .binary, .phrase .operand]]

/-- An action reads an expression up to a place where the grammar allows operations only. -/
structure Begins (V : α → TokenKind → Prop) (X : List Part) (i : List Token) (m : M α) : Prop where
  outcome : ∀ s : State, s.Faces i → match m s with
    | .ok a s' => ∃ j, s'.Faces j ∧ V a (ahead j) ∧ Derives X i j ∧
        ∀ k, Derives X i k → Avoids afterExpression (ahead k) → Derives operations j k
    | .error e _ => Tolerable e ∨ ∀ k, Derives X i k → ¬ Avoids afterExpression (ahead k)

/-- An operator comes next that does not bind tighter than a limit, or none. -/
def Stops (limit : Nat) (a : Exp × Option BinaryOp) (k : TokenKind) : Prop :=
  a.2 = binaryOp? k ∧ ∀ op ∈ a.2, op.priority.1 ≤ limit

abbrev voidsRow : List Part :=
  [.repeated [.phrase .void], .notNext (.char ';'), .notNext (.symbol .colons)]

/-- What is read of a statement: after a label also the statements that do nothing. -/
def statementRow (k : TokenKind) : List Part :=
  if k = .symbol .colons then .phrase .void :: voidsRow else [.phrase .statement]

/-- The parsers of a deeper level read what they should. -/
structure NestedReads (r : Nested) : Prop where
  subExpr : ∀ i limit, Begins (Stops limit) [.phrase .expression] i (r.subExpr limit)
  return_ : ∀ i, ahead i = .word .return_ → Parses i r.statement [.phrase .return_] Closes
  statement : ∀ i, ahead i ≠ .word .return_ →
    Parses i r.statement (statementRow (ahead i)) (Avoids afterStatement)
  assign : ∀ i target earlier, target.isVariable = true → Parses i (r.assign target earlier)
    [.repeated [.char ',', .phrase .target], .char '=', .phrase .expressions] (Avoids afterList)
  refuse : ∀ target earlier s, target.isVariable = false → Fails (r.assign target earlier) s
  initGlobals : ∀ i count line names,
    Parses i (r.initGlobals count line names) [.phrase .expressions] (Avoids afterList)

theorem binaryOp?_isSome (k : TokenKind) : (binaryOp? k).isSome = true ↔ k ∈ binaryKinds := by
  cases k with
  | byte b =>
    constructor
    · intro h
      refine Decidable.byContradiction fun hn => ?_
      simp only [binaryKinds, List.mem_cons, not_or] at hn
      simp [binaryOp?, hn] at h
    · intro h
      simp only [binaryKinds, List.mem_cons, List.not_mem_nil, reduceCtorEq, false_or, or_false]
        at h
      rcases h with h | h | h | h | h | h | h | h | h | h | h <;> rw [h] <;> rfl
  | word k => cases k <;> decide
  | symbol s => cases s <;> decide
  | _ => decide

theorem binaryOp?_eq_none {k : TokenKind} : binaryOp? k = none ↔ k ∉ binaryKinds := by
  rw [← binaryOp?_isSome]
  cases binaryOp? k <;> simp

theorem unaryOp?_isSome (k : TokenKind) : (unaryOp? k).isSome = true ↔ k ∈ unaryKinds := by
  unfold unaryOp?
  simp only [unaryKinds, List.mem_cons]
  grind

theorem unaryOp?_eq_none {k : TokenKind} : unaryOp? k = none ↔ k ∉ unaryKinds := by
  rw [← unaryOp?_isSome]
  cases unaryOp? k <;> simp

theorem expression_iff {i j : List Token} : Derives [.phrase .expression] i j ↔
    ∃ k, Derives [.phrase .operand] i k ∧ Derives operations k j := by
  rw [Derives.single_iff]
  constructor
  · rintro ⟨Y, hY, hd⟩
    obtain rfl := List.mem_singleton.1 hY
    exact Derives.cons_iff.1 hd
  · intro h
    exact ⟨_, List.mem_singleton.2 rfl, Derives.cons_iff.2 h⟩

theorem expression_append {i j k : List Token} (h : Derives [.phrase .expression] i j)
    (hk : Derives operations j k) :
    Derives [.phrase .expression] i k := by
  obtain ⟨l, ho, hl⟩ := expression_iff.1 h
  exact expression_iff.2 ⟨l, ho, Derives.repeated_append hl hk⟩

theorem operations_none {i j : List Token} (hi : ahead i ∉ binaryKinds)
    (h : Derives operations i j) : i = j := by
  refine repeated_none rfl ?_ h
  exact hi

theorem operations_of_expression {i j : List Token} (hi : ahead i ∈ binaryKinds)
    (h : Derives [.phrase .expression] i.tail j) :
    Derives operations i j := by
  obtain ⟨k, hd, hrest⟩ := expression_iff.1 h
  obtain ⟨t, hi', ht⟩ := token_cons rfl fun heos : ahead i = .eos => by
    rw [heos] at hi; revert hi; decide
  rw [hi']
  exact .again (.phrase (List.mem_map.2 ⟨_, hi, rfl⟩) (.token ht (.nil _)) hd) hrest

theorem expression_of_operations {i j : List Token} (hi : ahead i ∈ binaryKinds)
    (hj : Avoids afterExpression (ahead j))
    (h : Derives operations i j) : Derives [.phrase .expression] i.tail j := by
  rcases Derives.repeated_iff.1 h with h | ⟨k, h, hrest⟩
  · obtain rfl := Derives.nil_iff.1 h
    exact absurd (List.mem_append_right _ hi) hj
  · obtain ⟨Y, hY, l, hop, hd⟩ := Derives.phrase_iff.1 h
    obtain ⟨x, -, rfl⟩ := List.mem_map.1 hY
    obtain ⟨t, i', rfl, -, ht⟩ := Derives.token_iff.1 hop
    obtain rfl := Derives.nil_iff.1 ht
    exact expression_iff.2 ⟨k, hd, hrest⟩

namespace Begins

variable {V : α → TokenKind → Prop} {W : β → TokenKind → Prop} {X : List Part} {m : M α}
  {f : α → M β}

theorem bind (hX : ∀ {i j k}, Derives X i j → Derives operations j k → Derives X i k)
    (h : Begins V X i m)
    (hf : ∀ a j, V a (ahead j) → Begins W operations j (f a)) : Begins W X i (m >>= f) := by
  refine ⟨fun s hs => ?_⟩
  have hm := h.outcome s hs
  show match EStateM.bind m f s with | .ok b s' => _ | .error e _ => _
  unfold EStateM.bind
  generalize m s = res at hm
  cases res with
  | error e s' => exact hm
  | ok a s' =>
    obtain ⟨j, hj, hv, hd, hrest⟩ := hm
    have hm := (hf a j hv).outcome s' hj
    dsimp only
    generalize f a s' = res at hm
    cases res with
    | ok b t =>
      obtain ⟨k, hk, hw, hd', hrest'⟩ := hm
      exact ⟨k, hk, hw, hX hd hd', fun l hl hF => hrest' l (hrest l hl hF) hF⟩
    | error e t =>
      refine hm.imp_right fun hno l hl hF => hno l (hrest l hl hF) hF

theorem pure {a : α} (h : V a (ahead i)) : Begins V operations i (Pure.pure a) :=
  ⟨fun _ hs => ⟨i, hs, h, .stop (.nil i), fun _ hd _ => hd⟩⟩

theorem still [h : Still m] : Begins (fun _ _ => True) operations i m := by
  refine ⟨fun s hs => ?_⟩
  have hm := h.faces s i hs
  generalize m s = res at hm
  cases res with
  | ok a s' => exact ⟨i, hm, trivial, .stop (.nil i), fun _ hd _ => hd⟩
  | error e s' => exact .inl hm

theorem skip [h : Still m] (hf : ∀ a, Begins W X i (f a)) : Begins W X i (m >>= f) := by
  refine ⟨fun s hs => ?_⟩
  have hm := h.faces s i hs
  show match EStateM.bind m f s with | .ok b s' => _ | .error e _ => _
  unfold EStateM.bind
  generalize m s = res at hm
  cases res with
  | ok a s' => exact (hf a).outcome s' hm
  | error e s' => exact .inl hm

theorem kind {f : TokenKind → M β} (h : Begins W X i (f (ahead i))) :
    Begins W X i (currentKind >>= f) := by
  refine ⟨fun s hs => ?_⟩
  rw [bind_eq (currentKind_eq hs)]
  exact h.outcome s hs

theorem next {f : Unit → M β} (h : Begins W [.phrase .expression] i.tail (f ()))
    (hX : ∀ j, Derives [.phrase .expression] i.tail j → Derives X i j)
    (hc : ∀ j, Avoids afterExpression (ahead j) → Derives X i j →
    Derives [.phrase .expression] i.tail j) :
    Begins W X i (next >>= f) := by
  refine ⟨fun s hs => ?_⟩
  obtain ⟨s', he, hs'⟩ := next_eq hs
  have hm := h.outcome s' hs'
  rw [bind_eq he]
  generalize f () s' = res at hm
  cases res with
  | ok b t =>
    obtain ⟨j, hj, hw, hd, hrest⟩ := hm
    exact ⟨j, hj, hw, hX j hd, fun k hk hF => hrest k (hc k hF hk) hF⟩
  | error e t => exact hm.imp_right fun hno k hk hF => hno k (hc k hF hk) hF

end Begins

def TurnStops (limit : Nat) : Turn (Exp × Option BinaryOp) (Exp × Option BinaryOp) → TokenKind →
    Prop
  | .again (_, op?), k => op? = binaryOp? k
  | .done a, k => Stops limit a k

theorem begins_operatorTurn (h : NestedReads r) (limit : Nat) (e : Exp) :
    Begins (TurnStops limit) operations i (operatorTurn r limit (e, binaryOp? (ahead i))) := by
  unfold operatorTurn
  cases hop : binaryOp? (ahead i) with
  | none => exact .pure ⟨hop.symm, nofun⟩
  | some op =>
    by_cases hle : op.priority.1 ≤ limit
    · dsimp only
      rw [if_pos hle]
      exact .pure ⟨hop.symm, by rintro _ ⟨⟩; exact hle⟩
    · have hk : ahead i ∈ binaryKinds := (binaryOp?_isSome _).1 (by rw [hop]; rfl)
      dsimp only
      rw [if_neg hle]
      refine .skip fun line => .next ?_ (fun j => operations_of_expression hk) fun j =>
        expression_of_operations hk
      exact .skip fun left => .bind expression_append (h.subExpr _ _) fun ⟨right, after⟩ j hv =>
        .skip fun e => .pure hv.1

theorem begins_operators (h : NestedReads r) (limit n : Nat) (e : Exp) :
    Begins (Stops limit) operations i
      (iterate (operatorTurn r limit) n (e, binaryOp? (ahead i))) := by
  induction n generalizing i e with
  | zero => exact ⟨fun s _ => .inl trivial⟩
  | succ n ih =>
    refine .skip (m := tokensTaken) fun taken => ?_
    refine (begins_operatorTurn h limit e).bind Derives.repeated_append fun t j ht => ?_
    cases t with
    | again a =>
      obtain ⟨e', op?⟩ := a
      obtain rfl : op? = binaryOp? (ahead j) := ht
      exact .skip fun _ => ih e'
    | done a => exact .pure ht

/-- An expression: the loop ends before a token that is no operator, since all operators bind
tighter than nothing. -/
theorem parses_expression (h : NestedReads r) : Parses i (expression r) [.phrase .expression]
    (Avoids afterExpression) := by
  refine ⟨fun s hs => ?_⟩
  have hm := (h.subExpr i 0).outcome s hs
  show Reading _ _ _ (EStateM.bind (r.subExpr 0) _ s)
  unfold EStateM.bind
  generalize r.subExpr 0 s = res at hm
  cases res with
  | error e s' => exact hm.elim .tolerable fun hno => .refused fun _ j hd hF => hno j hd hF
  | ok a s' =>
    obtain ⟨j, hj, ⟨hop, hlimit⟩, hd, hrest⟩ := hm
    have hnone : ahead j ∉ binaryKinds := by
      rw [← binaryOp?_eq_none, ← hop]
      cases ha : a.2 with
      | none => rfl
      | some op =>
        have hpos := Infix.powers ⟨op, _, (hop.symm.trans ha)⟩
        exact absurd (hlimit op ha) (Nat.not_le.2 hpos.1)
    exact .ok hj trivial (b := ()) hd fun _ k hk hF =>
      ⟨rfl, (operations_none hnone (hrest k hk hF)).symm⟩

end LuaChunk.Compile
