import LuaChunk.Proofs.Syntax.Operands

set_option autoImplicit false

namespace LuaChunk.Compile

open LuaChunk Grammar

variable {β : Type} {i j : List Token} {r : Nested}

abbrev pathRow : List Part :=
  [.repeated [.char '.', .token .name], .optional [.char ':', .token .name]]

theorem parses_functionName {F : TokenKind → Prop} (hF : ∀ k, F k → k ≠ .char '.' ∧ k ≠ .char ':') :
    Parses i functionName [.phrase .functionName] F := by
  have hstop : ∀ (a : Exp) s j, s.Faces j → ahead j ≠ .char '.' → ∃ b, (do
      if (← currentKind) = .char '.' then return .again (← fieldOf a) else return .done a : M
        (Turn Exp Exp)) s = .ok (.done b) s := by
    intro a s j hs hj
    refine ⟨a, ?_⟩
    rw [bind_eq (currentKind_eq hs), if_neg hj]
    rfl
  refine .phrase_only rfl ?_
  refine parses_takeVariable.bind (X := pathRow) (fun first j => ?_) .any
  have hloop : Parses j (repeatTurn (fun (e : Exp) => do
      if (← currentKind) = .char '.' then return .again (← fieldOf e) else return .done e) first)
      [.repeated [.char '.', .token .name]] (fun k => k ≠ .char '.') := by
    refine .loop (G := Any) hstop (fun a j hj => .kind ?_) (fun _ hk => hk) trivial
      (fun _ _ => trivial) first
    rw [if_pos hj]
    exact (parses_fieldOf a hj (by decide)).finish_of fun e _ => .pure ⟨e, rfl⟩
  refine hloop.bind (X := [.optional [.char ':', .token .name]]) (fun e j => .kind ?_)
    ⟨by decide, fun _ k hk => (hF k hk).1⟩
  by_cases hmethod : ahead j = .char ':'
  · rw [if_pos hmethod]
    refine .optional_with (X := []) (G := fun k => k ≠ .char ':') ?_
      ⟨nofun, fun _ k hk => (hF k hk).2⟩ fun hne => hne hmethod
    exact ((parses_fieldOf e hmethod (by decide)).follow fun _ _ => trivial).finish
  · rw [if_neg hmethod]
    exact .optional_without (.pure trivial) rfl
      (by simpa [rowStarts, Part.starts, Part.nullable] using hmethod)

theorem parses_functionStatement (h : NestedReads r) (line : Nat)
    (hi : ahead i = .word .function_) :
    Parses i (functionStatement r line) [.word .function_, .phrase .functionName, .phrase .body]
      Any := by
  refine (parses_next hi nofun).bind (X := [.phrase .functionName, .phrase .body]) (fun _ j => ?_)
    .any
  refine (parses_functionName (F := fun k => k = .char '(') (by rintro _ rfl; decide)).bind
    (X := [.phrase .body])
    (fun name j => .skip fun _ => .skip fun _ => ?_) (.firm (by decide) rfl)
  exact (parses_functionBody h name.2 line).finish

theorem parses_localFunction (h : NestedReads r) : Parses i (localFunction r)
    [.token .name, .phrase .body] Any := by
  have hmodify : ∀ v pc, Still (modifyLocal v fun x => { x with start := pc }) :=
    fun v pc => still_coding
  have hscope : ∀ pc, Still
      (modifyFn fun f => { f with scopes := f.scopes.modify pc List.dropLast }) := fun pc => by
    have hcoding : Coding false true
        (modifyFn fun f => { f with scopes := f.scopes.modify pc List.dropLast }) :=
      .modifyFn fun _ => rfl
    exact still_coding
  refine .skip fun place => ?_
  refine parses_takeDeclared.bind (X := [.phrase .body])
    (fun name j => .skip fun _ => .skip fun _ => .skip fun line => ?_) .any
  exact (parses_functionBody h false line).discard.finish

theorem parses_optionalAttribute (fallback : VarKind) :
    Parses i (optionalAttribute fallback) [.optional [.phrase .attrib]]
      (fun k => k ≠ .char '<') := by
  unfold optionalAttribute
  by_cases hi : ahead i = .char '<'
  · refine .optional_with (X := []) (G := fun k => k ≠ .char '<') ?_ .nil fun hne => hne hi
    refine .phrase (X := [.char '<', .token .name, .char '>']) (by rw [hi]; rfl) ?_
    refine .test_true hi (by decide) fun j => ?_
    refine parses_takeName.bind (X := [.char '>']) (fun name j => ?_) .any
    refine (parses_checkNext (k := .char '>') (by decide)).bind (X := []) (fun _ j => ?_) .any
    split
    · exact .pure trivial
    · split
      · exact .pure trivial
      · exact .still
  · refine .test_false hi ?_
    exact .optional_without (.pure trivial) rfl
      (by simpa [rowStarts, Part.starts, Part.nullable, Phrase.nullable, Phrase.starts] using hi)

theorem parses_globalAttribute (fallback : VarKind) :
    Parses i (globalAttribute fallback) [.optional [.phrase .attrib]] (fun k => k ≠ .char '<') := by
  refine (parses_optionalAttribute fallback).bind (X := []) (fun kind j => ?_) .nil
  cases kind <;> exact .still

/-- What is read of names that are declared: after a comma come names again. -/
abbrev nameRow : List Part :=
  [.token .name, .optional [.phrase .attrib], .optional [.char ',', .phrase .names]]

theorem names_iff : Derives [.phrase .names] i j ↔ Derives nameRow i j := by
  have hnames : ∀ i, Derives [.phrase .names] i j ↔
      Derives [.token .name, .optional [.phrase .attrib],
        .repeated [.char ',', .token .name, .optional [.phrase .attrib]]] i j := by
    intro i
    rw [Derives.single_iff]
    exact ⟨fun ⟨Y, hY, hd⟩ => List.mem_singleton.1 hY ▸ hd,
      fun hd => ⟨_, List.mem_singleton.2 rfl, hd⟩⟩
  have hrest : ∀ i, Derives [.repeated [.char ',', .token .name, .optional [.phrase .attrib]]] i j ↔
      Derives [.optional [.char ',', .phrase .names]] i j := by
    intro i
    rw [Derives.repeated_iff, Derives.optional_iff]
    refine or_congr Iff.rfl ⟨fun ⟨k, hY, hd⟩ => ?_, fun ⟨k, hd, hk⟩ => ?_⟩
    · refine ⟨j, ?_, .nil j⟩
      obtain ⟨l, hcomma, hY⟩ := Derives.cons_iff.1 hY
      exact Derives.cons_iff.2 ⟨l, hcomma, (hnames l).2 (Derives.append_iff.2 ⟨k, hY, hd⟩)⟩
    · obtain rfl := Derives.nil_iff.1 hk
      obtain ⟨l, hcomma, hd⟩ := Derives.cons_iff.1 hd
      obtain ⟨m, hY, hd⟩ :=
        (Derives.append_iff (X := [.token .name, .optional [.phrase .attrib]])).1 ((hnames l).1 hd)
      exact ⟨m, Derives.cons_iff.2 ⟨l, hcomma, hY⟩, hd⟩
  rw [hnames]
  constructor
  · intro hd
    obtain ⟨k, hX, hd⟩ := (Derives.append_iff (X := [.token .name, .optional [.phrase .attrib]])).1
      hd
    exact Derives.append_iff.2 ⟨k, hX, (hrest k).1 hd⟩
  · intro hd
    obtain ⟨k, hX, hd⟩ := (Derives.append_iff (X := [.token .name, .optional [.phrase .attrib]])).1
      hd
    exact Derives.append_iff.2 ⟨k, hX, (hrest k).2 hd⟩

abbrev AfterNames : TokenKind → Prop := Avoids [.char ',', .char '<']

theorem parses_moreNames {f : Bool → M β} (h₁ : ∀ j, Parses j (f true) [.phrase .names] AfterNames)
    (h₂ : Parses i (f false) [] AfterNames) :
    Parses i (testNext (.char ',') >>= f) [.optional [.char ',', .phrase .names]] AfterNames :=
  .ifToken (Y := [.phrase .names]) (X := []) (by decide) h₁ h₂
    ⟨nofun, fun _ k hk heq => hk (by rw [heq]; decide)⟩

/-- The turns of the loop that reads the names of local variables. -/
def localTurn (fallback : VarKind) : Nat × Option Nat →
    M (Turn (Nat × Option Nat) (Nat × Nat × Option Nat)) :=
  fun (n, toClose) => do
    let (name, number) ← takeDeclared
    let kind ← optionalAttribute fallback
    let place ← declare (some name) kind (some number)
    let toClose ←
      if kind = .toClose then
        if toClose.isSome then
          semanticError (utf8 "multiple to-be-closed variables in local list")
        else pure (some ((← ofFn (·.active)) + n))
      else pure toClose
    if ← testNext (.char ',') then return .again (n + 1, toClose)
    else return .done (n + 1, place, toClose)

theorem parses_localLoop (fallback : VarKind) (n : Nat) (a : Nat × Option Nat) :
    Parses i (iterate (localTurn fallback) n a) [.phrase .names] AfterNames := by
  induction n generalizing i a with
  | zero => exact ⟨fun s _ => .tolerable trivial⟩
  | succ n ih =>
    obtain ⟨m, toClose⟩ := a
    refine ParsesTo.congr (X := nameRow) ?_ (fun j => names_iff.2) fun j _ => names_iff.1
    unfold iterate localTurn
    simp only [bind_assoc]
    refine .skip fun taken =>
      parses_takeDeclared.bind
      (X := [.optional [.phrase .attrib], .optional [.char ',', .phrase .names]])
      (fun ⟨name, number⟩ j => ?_) .any
    refine (parses_optionalAttribute fallback).bind (X := [.optional [.char ',', .phrase .names]])
      (fun kind j => .skip fun place => ?_)
      ⟨by decide, fun _ k hk heq => hk (by rw [heq]; decide)⟩
    split
    · split
      · simp only [bind_assoc]
        exact .skip fun toClose =>
          parses_moreNames (fun k => .skip (m := checkAdvance taken) fun _ => ih _) (.pure trivial)
      · simp only [bind_assoc]
        exact .skip fun active => .skip fun toClose =>
          parses_moreNames (fun k => .skip (m := checkAdvance taken) fun _ => ih _) (.pure trivial)
    · simp only [bind_assoc]
      exact .skip fun toClose =>
        parses_moreNames (fun k => .skip (m := checkAdvance taken) fun _ => ih _) (.pure trivial)

theorem parses_declareValues {F : TokenKind → Prop} (n last : Nat) (toClose : Option Nat)
    (values : Nat × Exp) : Parses i (do
    let v ← ownVariable last
    let known ←
      if n = values.1 && v.kind = .const then knownValue? values.2 else pure none
    match known with
    | some value =>
      noteKnown value
      modifyVariable ((← ofFn (·.firstVar)) + last) fun v => { v with kind := .compileTime, value }
      activate (n - 1)
      activateUnplaced 1
    | none =>
      adjustValues n values
      activate n
    checkToClose toClose) [] F := by
  refine .skip fun v => ?_
  have hrest : ∀ known : Option Value, Parses i (do
      match known with
      | some value =>
        noteKnown value
        modifyVariable ((← ofFn (·.firstVar)) + last) fun v =>
          { v with kind := .compileTime, value }
        activate (n - 1)
        activateUnplaced 1
      | none =>
        adjustValues n values
        activate n
      checkToClose toClose) [] F := by
    intro known
    cases known with
    | some value =>
      exact .skip fun _ => .skip fun first => .skip fun _ => .skip fun _ => .skip fun _ => .still
    | none => exact .skip fun _ => .skip fun _ => .still
  dsimp only
  split
  · exact .skip fun known => hrest known
  · exact .skip fun known => hrest known

theorem parses_localStatement (h : NestedReads r) : Parses i (localStatement r)
    [.optional [.phrase .attrib], .phrase .names, .optional [.char '=', .phrase .expressions]]
      (Avoids afterStatement) := by
  have hnames : ∀ fallback j, Parses j (localNames fallback) [.phrase .names] AfterNames :=
    fun fallback j =>
    ⟨fun s hs => (parses_localLoop fallback s.bound (0, none)).outcome s hs⟩
  refine (parses_optionalAttribute .regular).bind
    (X := [.phrase .names, .optional [.char '=', .phrase .expressions]])
    (fun fallback j => ?_) (.firm (by decide) rfl)
  refine (hnames fallback j).bind (X := [.optional [.char '=', .phrase .expressions]])
    (fun names j => ?_)
    ⟨by decide, fun _ k hk => hk.mono (by decide)⟩
  obtain ⟨n, last, toClose⟩ := names
  refine .ifToken (Y := [.phrase .expressions]) (X := []) (by decide) (fun j => ?_) ?_
    ⟨nofun, fun _ k hk heq => hk (by rw [heq]; decide)⟩
  · exact ((parses_expressionList h).follow fun _ hk => hk.mono (by decide)).bind (X := [])
      (fun values j => parses_declareValues n last toClose values) .nil
  · exact parses_declareValues n last toClose (0, .void)

theorem parses_initGlobals (h : NestedReads r) (count line : Nat) (names : List Bytes) :
    Parses i (initGlobals r count line names) [.phrase .expressions] (Avoids afterList) := by
  cases names with
  | nil => exact (parses_expressionList h).finish
  | cons name rest => exact .skip fun target => (h.initGlobals i count line rest).finish

def globalTurn (fallback : VarKind) (names : List Bytes) : M (Turn (List Bytes) (List Bytes)) := do
  let name ← takeName
  let kind ← globalAttribute fallback
  discard (declare (some name) kind)
  let names := name :: names
  if ← testNext (.char ',') then return .again names else return .done names.reverse

theorem parses_globalLoop (fallback : VarKind) (n : Nat) (names : List Bytes) :
    Parses i (iterate (globalTurn fallback) n names) [.phrase .names] AfterNames := by
  induction n generalizing i names with
  | zero => exact ⟨fun s _ => .tolerable trivial⟩
  | succ n ih =>
    refine ParsesTo.congr (X := nameRow) ?_ (fun j => names_iff.2) fun j _ => names_iff.1
    unfold iterate globalTurn
    simp only [bind_assoc]
    refine .skip fun taken =>
      parses_takeName.bind
      (X := [.optional [.phrase .attrib], .optional [.char ',', .phrase .names]]) (fun name j => ?_)
      .any
    refine (parses_globalAttribute fallback).bind (X := [.optional [.char ',', .phrase .names]])
      (fun kind j => .skip fun _ => ?_)
      ⟨by decide, fun _ k hk heq => hk (by rw [heq]; decide)⟩
    exact parses_moreNames (fun k => .skip (m := checkAdvance taken) fun _ => ih _) (.pure trivial)

theorem parses_globalNames (h : NestedReads r) (fallback : VarKind) :
    Parses i (globalNames r fallback) [.phrase .names, .optional [.char '=', .phrase .expressions]]
      (Avoids afterStatement) := by
  have hnames : Parses i (repeatTurn (globalTurn fallback) []) [.phrase .names] AfterNames :=
    ⟨fun s hs => (parses_globalLoop fallback s.bound []).outcome s hs⟩
  refine hnames.bind (X := [.optional [.char '=', .phrase .expressions]]) (fun names j => ?_)
    ⟨by decide, fun _ k hk => hk.mono (by decide)⟩
  refine .ifToken (Y := [.phrase .expressions]) (X := []) (by decide) (fun j => ?_) ?_
    ⟨nofun, fun _ k hk heq => hk (by rw [heq]; decide)⟩
  · exact .skip fun line => ((parses_initGlobals h _ line names).follow fun _ hk =>
      hk.mono (by decide)).finish
  · exact ParsesTo.still (m := activateUnplaced names.length)

theorem parses_globalStatement (h : NestedReads r) :
    Parses i (globalStatement r) [.optional [.phrase .attrib], .phrase .globalNames]
      (Avoids afterStatement) := by
  refine (parses_globalAttribute .global).bind (X := [.phrase .globalNames]) (fun fallback j => ?_)
    (.firm (by decide) rfl)
  by_cases hall : ahead j = .char '*'
  · refine .phrase (X := [.char '*']) (by rw [hall]; rfl) ?_
    exact .test_true hall (by decide) fun j => .skip fun _ => .still
  · refine .test_false hall ?_
    refine (parses_globalNames h fallback).congr (fun k hd => ?_) fun k _ hd => ?_
    · exact Derives.single_iff.2 ⟨_, .tail _ (.head _), hd⟩
    · obtain ⟨Y, hY, hd⟩ := Derives.single_iff.1 hd
      rcases List.mem_cons.1 hY with rfl | hY
      · exact absurd hd.token_ahead hall
      · rwa [List.mem_singleton.1 hY] at hd

theorem parses_globalFunction (h : NestedReads r) (line : Nat) : Parses i (globalFunction r line)
    [.token .name, .phrase .body] Any := by
  refine parses_takeName.bind (X := [.phrase .body])
    (fun name j => .skip fun _ => .skip fun _ => .skip fun target => ?_) .any
  exact .skip fun line => (parses_functionBody h false line).finish

end LuaChunk.Compile
