import LuaChunk.Proofs.Compile.Tokens

/-!
The grammar of the language, as data. Each phrase has productions, and a production is a row of
parts: tokens, phrases, parts that are optional or repeated, and one condition on the token that
comes next. A source is a block.

There is one ambiguity: a parenthesis after an expression that is a name, a field, a call or the
like could be the start of the next statement. It never is: such an expression does not end before a
parenthesis.
-/

set_option autoImplicit false

namespace LuaChunk.Grammar

inductive Phrase where
  | block | return_ | statement | void | iteration | locals | globals | globalNames | names
  | attrib | functionName | targets | target | call | prefixed | primary | suffix | arguments
  | expressions | expression | operand | value | unary | binary
  | body | parameters | constructor | fields | field | separator
  deriving DecidableEq, Repr

inductive Part where
  | token (k : TokenKind)
  | phrase (p : Phrase)
  | optional (parts : List Part)
  | repeated (parts : List Part)
  | notNext (k : TokenKind)

namespace Part

abbrev char (c : Char) : Part := .token (.char c)

abbrev word (k : Keyword) : Part := .token (.word k)

abbrev symbol (s : Symbol) : Part := .token (.symbol s)

end Part

def binaryKinds : List TokenKind :=
  [.char '+', .char '-', .char '*', .char '/', .symbol .idiv, .char '%', .char '^', .symbol .concat,
    .char '&', .char '|', .char '~', .symbol .shl, .symbol .shr, .symbol .eq, .symbol .ne,
      .char '<', .char '>',
    .symbol .le, .symbol .ge, .word .and_, .word .or_]

def unaryKinds : List TokenKind := [.word .not_, .char '-', .char '~', .char '#']

open LuaChunk.Grammar.Phrase LuaChunk.Grammar.Part in
def productions : Phrase → List (List Part)
  | .block => [[repeated [phrase statement], optional [phrase return_]]]
  | .return_ => [[word .return_, optional [phrase expressions], optional [char ';']]]
  | .statement => [
      [phrase void],
      [phrase targets, char '=', phrase expressions],
      [phrase call, notNext (.char '(')],
      [word .break_],
      [word .goto_, token .name],
      [word .do_, phrase block, word .end_],
      [word .while_, phrase expression, word .do_, phrase block, word .end_],
      [word .repeat_, phrase block, word .until_, phrase expression],
      [word .if_, phrase expression, word .then_, phrase block,
        repeated [word .elseif_, phrase expression, word .then_, phrase block],
        optional [word .else_, phrase block], word .end_],
      [word .for_, token .name, phrase iteration, word .do_, phrase block, word .end_],
      [word .function_, phrase functionName, phrase body],
      [word .local_, phrase locals],
      [word .global_, phrase globals]]
  | .void => [[char ';'], [symbol .colons, token .name, symbol .colons]]
  | .iteration => [
      [char '=', phrase expression, char ',', phrase expression,
        optional [char ',', phrase expression]],
      [repeated [char ',', token .name], word .in_, phrase expressions]]
  | .locals => [
      [word .function_, token .name, phrase body],
      [optional [phrase attrib], phrase names, optional [char '=', phrase expressions]]]
  | .globals => [
      [word .function_, token .name, phrase body],
      [optional [phrase attrib], phrase globalNames]]
  | .globalNames => [[char '*'], [phrase names, optional [char '=', phrase expressions]]]
  | .names => [[token .name, optional [phrase attrib],
      repeated [char ',', token .name, optional [phrase attrib]]]]
  | .attrib => [[char '<', token .name, char '>']]
  | .functionName =>
    [[token .name, repeated [char '.', token .name], optional [char ':', token .name]]]
  | .targets => [[phrase target, repeated [char ',', phrase target]]]
  | .target => [
      [token .name],
      [phrase prefixed, char '.', token .name],
      [phrase prefixed, char '[', phrase expression, char ']']]
  | .call => [
      [phrase prefixed, phrase arguments],
      [phrase prefixed, char ':', token .name, phrase arguments]]
  | .prefixed => [[phrase primary, repeated [phrase suffix]]]
  | .primary => [[token .name], [char '(', phrase expression, char ')']]
  | .suffix => [
      [char '.', token .name],
      [char '[', phrase expression, char ']'],
      [phrase arguments],
      [char ':', token .name, phrase arguments]]
  | .arguments => [
      [char '(', optional [phrase expressions], char ')'],
      [token .string],
      [phrase constructor]]
  | .expressions => [[phrase expression, repeated [char ',', phrase expression]]]
  | .expression => [[phrase operand, repeated [phrase binary, phrase operand]]]
  | .operand => [[phrase unary, phrase operand], [phrase value]]
  | .value => [
      [word .nil_], [word .true_], [word .false_], [token .integer], [token .float],
        [token .string],
      [symbol .dots],
      [word .function_, phrase body],
      [phrase constructor],
      [phrase prefixed, notNext (.char '(')]]
  | .unary => unaryKinds.map fun k => [token k]
  | .binary => binaryKinds.map fun k => [token k]
  | .body => [[char '(', optional [phrase parameters], char ')', phrase block, word .end_]]
  | .parameters => [[token .name, optional [char ',', phrase parameters]], [symbol .dots]]
  | .constructor => [[token (.byte 123), phrase fields, token (.byte 125)]]
  | .fields => [[], [phrase field, optional [phrase separator, phrase fields]]]
  | .field => [
      [token .name, char '=', phrase expression],
      [char '[', phrase expression, char ']', char '=', phrase expression],
      [phrase expression]]
  | .separator => [[char ','], [char ';']]

/-- The kind of the first of some tokens. -/
def ahead (i : List Token) : TokenKind := (i.headD .eos).kind

/-- The parts are read from the tokens `i` and leave the tokens `j`. -/
inductive Derives : List Part → (i j : List Token) → Prop
  | nil (i : List Token) : Derives [] i i
  | token {k : TokenKind} {X : List Part} {t : Token} {i j : List Token} (hk : t.kind = k)
    (h : Derives X i j) :
    Derives (.token k :: X) (t :: i) j
  | phrase {p : Phrase} {X Y : List Part} {i k j : List Token} (hY : Y ∈ productions p)
    (hp : Derives Y i k)
    (h : Derives X k j) : Derives (.phrase p :: X) i j
  | without {X Y : List Part} {i j : List Token} (h : Derives X i j) : Derives (.optional Y :: X) i
    j
  | with_ {X Y : List Part} {i k j : List Token} (hY : Derives Y i k) (h : Derives X k j) : Derives
    (.optional Y :: X) i j
  | stop {X Y : List Part} {i j : List Token} (h : Derives X i j) : Derives (.repeated Y :: X) i j
  | again {X Y : List Part} {i k j : List Token} (hY : Derives Y i k)
    (h : Derives (.repeated Y :: X) k j) :
    Derives (.repeated Y :: X) i j
  | notNext {k : TokenKind} {X : List Part} {i j : List Token} (hk : ahead i ≠ k)
    (h : Derives X i j) :
    Derives (.notNext k :: X) i j

namespace Derives

variable {X Y : List Part} {k : TokenKind} {p : Phrase} {i j : List Token}

theorem nil_iff : Derives [] i j ↔ i = j := by
  constructor
  · intro h
    cases h
    rfl
  · rintro rfl
    exact .nil _

theorem token_iff : Derives (.token k :: X) i j ↔ ∃ t i', i = t :: i' ∧ t.kind = k ∧
    Derives X i' j := by
  constructor
  · intro h
    cases h with
    | token hk h => exact ⟨_, _, rfl, hk, h⟩
  · rintro ⟨t, i', rfl, hk, h⟩
    exact .token hk h

theorem token_ahead (h : Derives (.token k :: X) i j) : ahead i = k := by
  obtain ⟨t, i', rfl, hk, -⟩ := token_iff.1 h
  exact hk

theorem phrase_iff : Derives (.phrase p :: X) i j ↔ ∃ Y ∈ productions p, ∃ k, Derives Y i k ∧
    Derives X k j := by
  constructor
  · intro h
    cases h with
    | phrase hY hp h => exact ⟨_, hY, _, hp, h⟩
  · rintro ⟨Y, hY, k, hp, h⟩
    exact .phrase hY hp h

theorem optional_iff : Derives (.optional Y :: X) i j ↔ Derives X i j ∨ ∃ k, Derives Y i k ∧
    Derives X k j := by
  constructor
  · intro h
    cases h with
    | without h => exact .inl h
    | with_ hY h => exact .inr ⟨_, hY, h⟩
  · rintro (h | ⟨k, hY, h⟩)
    · exact .without h
    · exact .with_ hY h

theorem repeated_iff : Derives (.repeated Y :: X) i j ↔
    Derives X i j ∨ ∃ k, Derives Y i k ∧ Derives (.repeated Y :: X) k j := by
  constructor
  · intro h
    cases h with
    | stop h => exact .inl h
    | again hY h => exact .inr ⟨_, hY, h⟩
  · rintro (h | ⟨k, hY, h⟩)
    · exact .stop h
    · exact .again hY h

theorem notNext_iff : Derives (.notNext k :: X) i j ↔ ahead i ≠ k ∧ Derives X i j := by
  constructor
  · intro h
    cases h with
    | notNext hk h => exact ⟨hk, h⟩
  · rintro ⟨hk, h⟩
    exact .notNext hk h

theorem append {i k j : List Token} (hX : Derives X i k) (hY : Derives Y k j) :
    Derives (X ++ Y) i j := by
  induction hX with
  | nil => exact hY
  | token hk _ ih => exact .token hk (ih hY)
  | phrase hm hp _ _ ih => exact .phrase hm hp (ih hY)
  | without _ ih => exact .without (ih hY)
  | with_ hp _ _ ih => exact .with_ hp (ih hY)
  | stop _ ih => exact .stop (ih hY)
  | again hp _ _ ih => exact .again hp (ih hY)
  | notNext hk _ ih => exact .notNext hk (ih hY)

theorem split {Z : List Part} (h : Derives Z i j) : ∀ X, X ++ Y = Z → ∃ k, Derives X i k ∧
    Derives Y k j := by
  induction h with
  | nil i =>
    intro X hX
    obtain ⟨rfl, rfl⟩ := List.append_eq_nil_iff.1 hX
    exact ⟨i, .nil i, .nil i⟩
  | token hk h ih =>
    rintro (_ | ⟨x, X⟩) ⟨⟩
    · exact ⟨_, .nil _, .token hk h⟩
    · obtain ⟨k, hX, hY⟩ := ih X rfl
      exact ⟨k, .token hk hX, hY⟩
  | phrase hm hp h _ ih =>
    rintro (_ | ⟨x, X⟩) ⟨⟩
    · exact ⟨_, .nil _, .phrase hm hp h⟩
    · obtain ⟨k, hX, hY⟩ := ih X rfl
      exact ⟨k, .phrase hm hp hX, hY⟩
  | without h ih =>
    rintro (_ | ⟨x, X⟩) ⟨⟩
    · exact ⟨_, .nil _, .without h⟩
    · obtain ⟨k, hX, hY⟩ := ih X rfl
      exact ⟨k, .without hX, hY⟩
  | with_ hp h _ ih =>
    rintro (_ | ⟨x, X⟩) ⟨⟩
    · exact ⟨_, .nil _, .with_ hp h⟩
    · obtain ⟨k, hX, hY⟩ := ih X rfl
      exact ⟨k, .with_ hp hX, hY⟩
  | stop h ih =>
    rintro (_ | ⟨x, X⟩) ⟨⟩
    · exact ⟨_, .nil _, .stop h⟩
    · obtain ⟨k, hX, hY⟩ := ih X rfl
      exact ⟨k, .stop hX, hY⟩
  | again hp h _ ih =>
    rintro (_ | ⟨x, X⟩) hX
    · subst hX
      exact ⟨_, .nil _, .again hp h⟩
    · obtain ⟨k, hX', hY⟩ := ih (x :: X) hX
      cases hX
      exact ⟨k, .again hp hX', hY⟩
  | notNext hk h ih =>
    rintro (_ | ⟨x, X⟩) ⟨⟩
    · exact ⟨_, .nil _, .notNext hk h⟩
    · obtain ⟨k, hX, hY⟩ := ih X rfl
      exact ⟨k, .notNext hk hX, hY⟩

theorem append_iff : Derives (X ++ Y) i j ↔ ∃ k, Derives X i k ∧ Derives Y k j :=
  ⟨fun h => h.split X rfl, fun ⟨_, hX, hY⟩ => hX.append hY⟩

theorem repeated_append {i k j : List Token} (h : Derives [.repeated Y] i k)
    (hk : Derives [.repeated Y] k j) :
    Derives [.repeated Y] i j := by
  generalize hX : [Part.repeated Y] = X at h
  induction h with
  | nil => cases hX
  | stop h =>
    cases hX
    rwa [nil_iff.1 h]
  | again hY _ _ ih =>
    cases hX
    exact .again hY (ih hk rfl)
  | _ => cases hX

theorem cons_iff {x : Part} : Derives (x :: X) i j ↔ ∃ k, Derives [x] i k ∧ Derives X k j :=
  append_iff (X := [x])

theorem single_iff : Derives [.phrase p] i j ↔ ∃ Y ∈ productions p, Derives Y i j := by
  constructor
  · intro h
    obtain ⟨Y, hY, k, hd, hk⟩ := phrase_iff.1 h
    obtain rfl := nil_iff.1 hk
    exact ⟨Y, hY, hd⟩
  · rintro ⟨Y, hY, hd⟩
    exact .phrase hY hd (.nil j)

end Derives

def Phrase.nullable : Phrase → Bool
  | .block | .fields => true
  | _ => false

def Phrase.callStarts : List TokenKind := [.name, .char '(']

def Phrase.valueStarts : List TokenKind :=
  [.word .nil_, .word .true_, .word .false_, .integer, .float, .string, .symbol .dots,
    .word .function_, .byte 123, .name,
    .char '(']

def Phrase.voidStarts : List TokenKind := [.char ';', .symbol .colons]

def Phrase.statementStarts : List TokenKind := voidStarts ++
  [.name, .char '(', .word .break_, .word .goto_, .word .do_, .word .while_, .word .repeat_,
    .word .if_, .word .for_, .word .function_, .word .local_, .word .global_]

def Phrase.starts : Phrase → List TokenKind
  | .block => statementStarts ++ [.word .return_]
  | .return_ => [.word .return_]
  | .statement => statementStarts
  | .void => voidStarts
  | .iteration => [.char '=', .char ',', .word .in_]
  | .locals => [.word .function_, .char '<', .name]
  | .globals => [.word .function_, .char '<', .char '*', .name]
  | .globalNames => [.char '*', .name]
  | .names | .functionName => [.name]
  | .attrib => [.char '<']
  | .targets | .target | .call | .prefixed | .primary => callStarts
  | .suffix => [.char '.', .char '[', .char '(', .string, .byte 123, .char ':']
  | .arguments => [.char '(', .string, .byte 123]
  | .value => valueStarts
  | .expressions | .expression | .operand => unaryKinds ++ valueStarts
  | .unary => unaryKinds
  | .binary => binaryKinds
  | .body => [.char '(']
  | .parameters => [.name, .symbol .dots]
  | .constructor => [.byte 123]
  | .fields | .field => .char '[' :: unaryKinds ++ valueStarts
  | .separator => [.char ',', .char ';']

def Part.nullable : Part → Bool
  | .token _ => false
  | .phrase p => p.nullable
  | .optional _ | .repeated _ | .notNext _ => true

mutual

def Part.starts : Part → List TokenKind
  | .token k => [k]
  | .phrase p => p.starts
  | .optional Y | .repeated Y => rowStarts Y
  | .notNext _ => []

def rowStarts : List Part → List TokenKind
  | [] => []
  | x :: X => x.starts ++ if x.nullable then rowStarts X else []

end

def rowNullable (X : List Part) : Bool := X.all Part.nullable

theorem productions_starts (p : Phrase) :
    ∀ Y ∈ productions p, (rowNullable Y = true → p.nullable = true) ∧ rowStarts Y ⊆ p.starts := by
  cases p <;> decide

theorem Derives.starts {X : List Part} {i j : List Token} (h : Derives X i j) :
    ahead i ∈ rowStarts X ∨ rowNullable X = true ∧ i = j := by
  have hcons : ∀ {x : Part} {X : List Part} {i j : List Token}, x.nullable = true →
      (ahead i ∈ rowStarts X ∨ rowNullable X = true ∧ i = j) →
      ahead i ∈ rowStarts (x :: X) ∨ rowNullable (x :: X) = true ∧ i = j := by
    intro x X i j hx h
    rcases h with h | ⟨hX, hij⟩
    · exact .inl (by simp [rowStarts, hx, h])
    · exact .inr ⟨by simpa [rowNullable, hx] using hX, hij⟩
  induction h with
  | nil i => exact .inr ⟨rfl, rfl⟩
  | token hk h ih => exact .inl (by simp [rowStarts, Part.starts, Part.nullable, ahead, hk])
  | @phrase p X Y i k j hY hp h ihp ih =>
    obtain ⟨hnull, hsub⟩ := productions_starts p Y hY
    rcases ihp with hin | ⟨hY, rfl⟩
    · exact .inl (by simp [rowStarts, Part.starts, hsub hin])
    · exact hcons (hnull hY) ih
  | without h ih => exact hcons rfl ih
  | with_ hY h ihY ih =>
    rcases ihY with hin | ⟨-, rfl⟩
    · exact .inl (by simp [rowStarts, Part.starts, hin])
    · exact hcons rfl ih
  | stop h ih => exact hcons rfl ih
  | again hY h ihY ih =>
    rcases ihY with hin | ⟨-, rfl⟩
    · exact .inl (by simp [rowStarts, Part.starts, hin])
    · exact ih
  | notNext hk h ih => exact hcons rfl ih

theorem Derives.mem_starts {X : List Part} {i j : List Token} (h : Derives X i j)
    (hX : rowNullable X = false) :
    ahead i ∈ rowStarts X := by
  rcases h.starts with h | ⟨hn, -⟩
  · exact h
  · rw [hX] at hn
    cases hn

end LuaChunk.Grammar
