import LuaChunk.Proofs.Syntax.Control
import LuaChunk.Proofs.Syntax.Declarations

set_option autoImplicit false

namespace LuaChunk.Compile

open LuaChunk Grammar

variable {α β : Type} {i j : List Token} {r : Nested}

/-- The turns of the loop that reads statements that do nothing. -/
def voidTurn (r : Nested) (_ : Unit) : M (Turn Unit Unit) := do
  let k ← currentKind
  if k = .char ';' || k = .symbol .colons then
    r.statement
    return .again ()
  else return .done ()

theorem voids_iff : Derives voidsRow i j ↔
    Derives [.repeated [.phrase .void]] i j ∧ ahead j ≠ .char ';' ∧ ahead j ≠ .symbol .colons := by
  rw [Derives.cons_iff]
  simp only [Derives.notNext_iff, Derives.nil_iff]
  constructor
  · rintro ⟨k, hd, h₁, h₂, rfl⟩
    exact ⟨hd, h₁, h₂⟩
  · rintro ⟨hd, h₁, h₂⟩
    exact ⟨j, hd, h₁, h₂, rfl⟩

theorem statementRow_voids (hi : ahead i ∈ Phrase.voidStarts) :
    Derives (statementRow (ahead i) ++ voidsRow) i j ↔ Derives voidsRow i j := by
  have hfirst : Derives voidsRow i j → ∃ k, Derives [.phrase .void] i k ∧
      Derives [.repeated [.phrase .void]] k j := by
    intro hd
    obtain ⟨hd, hsemicolon, hcolons⟩ := voids_iff.1 hd
    rcases Derives.repeated_iff.1 hd with hd | hd
    · rw [Derives.nil_iff.1 hd] at hi
      simp [Phrase.voidStarts, hsemicolon, hcolons] at hi
    · exact hd
  unfold statementRow
  split
  · constructor
    · intro hd
      obtain ⟨k, hvoid, hd⟩ := Derives.cons_iff.1 hd
      obtain ⟨l, hvoids, hd⟩ := (Derives.append_iff (X := voidsRow)).1 hd
      obtain ⟨hrest, hend⟩ := voids_iff.1 hd
      exact voids_iff.2 ⟨.again hvoid ((voids_iff.1 hvoids).1.repeated_append hrest), hend⟩
    · intro hd
      obtain ⟨k, hvoid, hvoids⟩ := hfirst hd
      obtain ⟨-, hend⟩ := voids_iff.1 hd
      exact Derives.cons_iff.2 ⟨k, hvoid,
        (voids_iff.2 ⟨hvoids, hend⟩).append (voids_iff.2 ⟨.stop (.nil j), hend⟩)⟩
  · constructor
    · intro hd
      obtain ⟨k, hvoid, hd⟩ := Derives.cons_iff.1 hd
      obtain ⟨hvoids, hend⟩ := voids_iff.1 hd
      exact voids_iff.2 ⟨.again (void_of_statement hi hvoid) hvoids, hend⟩
    · intro hd
      obtain ⟨k, hvoid, hvoids⟩ := hfirst hd
      exact Derives.cons_iff.2 ⟨k, void_statement hvoid, voids_iff.2 ⟨hvoids, (voids_iff.1 hd).2⟩⟩

theorem parses_voidLoop (h : NestedReads r) (n : Nat) :
    Parses i (iterate (voidTurn r) n ()) voidsRow (Avoids afterStatement) := by
  induction n generalizing i with
  | zero => exact ⟨fun s _ => .tolerable trivial⟩
  | succ n ih =>
    unfold iterate voidTurn
    simp only [bind_assoc]
    refine .skip fun taken => .kind ?_
    by_cases hi : ahead i = .char ';' ∨ ahead i = .symbol .colons
    · have hstart : ahead i ∈ Phrase.voidStarts := by simpa [Phrase.voidStarts] using hi
      rw [if_pos (by simpa using hi)]
      simp only [bind_assoc, pure_bind]
      refine ParsesTo.congr (X := statementRow (ahead i) ++ voidsRow) ?_
        (fun j => (statementRow_voids hstart).1)
        fun j _ => (statementRow_voids hstart).2
      refine (h.statement i (by rcases hi with hi | hi <;> rw [hi] <;> decide)).bind (X := voidsRow)
        (fun _ j => .skip (m := checkAdvance taken) fun _ => ih) ?_
      exact .avoids ⟨by decide, fun _ => List.Subset.refl _⟩
    · rw [if_neg (by simpa using hi), pure_bind]
      rw [not_or] at hi
      refine (ParsesTo.pure (V := fun _ => True) trivial).congr (fun j hd => ?_) fun j _ hd => ?_
      · rw [← Derives.nil_iff.1 hd]
        exact voids_iff.2 ⟨.stop (.nil i), hi⟩
      · rcases Derives.repeated_iff.1 (voids_iff.1 hd).1 with hd | ⟨k, hd, -⟩
        · exact hd
        · have hs := hd.mem_starts rfl
          simp [rowStarts, Part.starts, Part.nullable, Phrase.nullable, Phrase.starts,
            Phrase.voidStarts, hi.1, hi.2] at hs

theorem parses_labelStatement (h : NestedReads r) (name : Bytes) (line : Nat) :
    Parses i (labelStatement r name line) (.symbol .colons :: voidsRow)
      (Avoids afterStatement) := by
  refine (parses_checkNext (by decide)).bind (X := voidsRow) (fun _ j => ?_) .any
  have hvoids : Parses j (repeatTurn (voidTurn r) ()) voidsRow (Avoids afterStatement) :=
    ⟨fun s hs => (parses_voidLoop h s.bound).outcome s hs⟩
  refine hvoids.bind (X := []) (fun _ j => .skip fun s => ?_) .nil
  split
  · exact .still
  · exact .blockEnds false .still

instance still_breakError {α : Type} : Still (syntaxError (utf8 "break outside a loop") : M α) :=
  ⟨fun _ _ _ => .inr (.inr ⟨rfl, by simp [excused]⟩)⟩

theorem parses_breakStatement (line : Nat) (hi : ahead i = .word .break_) :
    Parses i (breakStatement line) [.word .break_] Any := by
  refine .skip fun inLoop => ?_
  cases inLoop with
  | true => exact (parses_next hi nofun).finish
  | false => exact .skip fun _ => (parses_next hi nofun).finish

theorem parses_returnStatement (h : NestedReads r) :
    Parses i (returnStatement r) [.optional [.phrase .expressions], .optional [.char ';']]
      Closes := by
  have hend : ∀ j, Parses j (discard (testNext (.char ';'))) [.optional [.char ';']] Closes := by
    intro j
    show Parses j ((fun _ => ()) <$> testNext (.char ';')) _ _
    rw [map_eq_pure_bind]
    exact .ifToken (Y := []) (X := []) (by decide) (fun _ => .pure trivial) (.pure trivial)
      ⟨nofun, fun _ k hk heq => by rw [heq] at hk; cases hk⟩
  refine .skip fun first => .blockEnds true (.kind ?_)
  dsimp only
  split
  · rename_i hi
    refine .optional_without (.skip fun _ => hend i) rfl fun hm => ?_
    have hkinds : ∀ k ∈ rowStarts [.phrase .expressions],
        (k.closes true || decide (k = .char ';')) = false := by decide
    rw [hkinds _ hm] at hi
    cases hi
  · rename_i hi
    refine .optional_with (X := [.optional [.char ';']])
      (G := fun k => (k.closes true || decide (k = .char ';')) = true) ?_ ?_ hi
    · refine (parses_expressionList h).bind (X := [.optional [.char ';']]) (fun list j => ?_)
        ⟨by decide, fun _ k hk => ?_⟩
      · obtain ⟨n, e⟩ := list
        dsimp only
        split
        · refine .skip fun _ => ?_
          split
          · refine .skip fun b => ?_
            split
            · exact .skip fun _ => .skip fun _ => hend j
            · exact .skip fun _ => hend j
          · exact .skip fun _ => hend j
        · split
          · exact .skip fun reg => .skip fun _ => hend j
          · exact .skip fun _ => .skip fun _ => hend j
      · exact hk.avoids.mono (by decide)
    · exact ⟨by decide, fun _ k hk => by rw [show k.closes true = true from hk]; rfl⟩

abbrev assignRow : List Part :=
  [.repeated [.char ',', .phrase .target], .char '=', .phrase .expressions]

theorem Exp.HasShape.isVariable {e : Exp} {a : Shape} (h : e.HasShape a) : e.isVariable = true ↔
    a = .target := by
  cases a with
  | target => exact ⟨fun _ => rfl, fun _ => h⟩
  | call =>
    obtain ⟨pc, hpc⟩ := h
    refine ⟨fun hv => ?_, nofun⟩
    unfold Exp.isVariable at hv
    rw [hpc] at hv
    cases hv
  | group =>
    refine ⟨fun hv => ?_, nofun⟩
    rw [h.notVariable] at hv
    cases hv

theorem parses_target (h : NestedReads r) {f : Exp → M β} {X : List Part} {F : TokenKind → Prop}
    (hX : Meets X F (Avoids suffixKinds))
    (hf : ∀ e j, e.isVariable = true → Parses j (f e) X F)
    (hfail : ∀ e s, e.isVariable = false → Fails (f e) s) :
    Parses i (suffixed r >>= f) (.phrase .target :: X) F := by
  refine ⟨fun s hs => ?_⟩
  refine ((reading_suffixed h hs).bind (E := fun a j (_ : Unit) k => a = .target ∧ Derives X j k)
    (W := fun _ _ _ => True)
    (fun e a j s' he hs' => ?_) fun a j _ k _ hd hF => hX.ahead hd.2 hF).congr
      (fun b _ k _ hd => ?_) fun _ k hd _ => ?_
  · by_cases ha : a = .target
    · have hread := (hf e j (he.1.isVariable.2 ha)).outcome s' hs'
      exact hread.congr (fun _ _ k _ hd =>
        ⟨(), trivial, ⟨ha, hd⟩, fun _ _ hd' _ => ⟨(), hd'.2, fun _ => rfl⟩⟩) fun _ _ hd _ =>
        ⟨(), hd.2⟩
    · obtain ⟨err, s'', herr⟩ := hfail e s' (by rw [← Bool.not_eq_true, he.1.isVariable]; exact ha)
      rw [herr]
      exact .refused fun _ _ hd _ => ha hd.1
  · obtain ⟨a, j, ha, rfl, hX⟩ := hd
    refine ⟨(), trivial, Derives.cons_iff.2 ⟨j, ha, hX⟩, fun _ k' hd' _ => ?_⟩
    obtain ⟨j', ha', hX'⟩ := Derives.cons_iff.1 hd'
    exact ⟨(), ⟨.target, j', ha', rfl, hX'⟩, fun _ => rfl⟩
  · obtain ⟨j, ha, hX⟩ := Derives.cons_iff.1 hd
    exact ⟨(), .target, j, ha, rfl, hX⟩

theorem parses_assignRest (h : NestedReads r) (target : Exp) (earlier : List Exp)
    (ht : target.isVariable = true) :
    Parses i (assignRest r target earlier) assignRow (Avoids afterList) := by
  have hlater : ∀ (later : Exp) (targets : List Exp) j {f : List Exp → M (List Exp)},
      later.isVariable = true →
      f [] = broken .indexInRange →
        (∀ target earlier, f (target :: earlier) = do storeTop target; return earlier) →
      Parses j (r.assign later targets >>= f) assignRow (Avoids afterList) := by
    intro later targets j f hl hnil hcons
    refine (h.assign j later targets hl).bind (X := []) (fun earlier k => ?_) .nil
    cases earlier with
    | nil => rw [hnil]; exact .still
    | cons target earlier => rw [hcons]; exact .skip fun _ => .pure trivial
  unfold assignRest
  rw [if_neg (by simp [ht])]
  refine .skip fun _ => .skip fun _ => ?_
  by_cases hcomma : ahead i = .char ','
  · refine .repeated_with (X := [.char '=', .phrase .expressions]) (G := fun k => k = .char '=') ?_
      (.firm (by decide) rfl)
      (by rw [hcomma]; decide)
    refine .test_true hcomma (by decide) fun j => ?_
    refine parses_target h (X := assignRow) (.firm (by decide) rfl) (fun later j hl => ?_)
      fun later s hl => ?_
    · dsimp only
      split
      · exact hlater later _ j hl rfl fun _ _ => rfl
      · exact .skip fun targets => hlater later targets j hl rfl fun _ _ => rfl
    · dsimp only
      split
      · exact (h.refuse later _ s hl).bind
      · exact .after fun targets s => (h.refuse later targets s hl).bind
  · refine .test_false hcomma (.repeated_without (X := [.char '=', .phrase .expressions]) ?_ rfl
      (by simpa [rowStarts, Part.starts, Part.nullable] using hcomma))
    refine (parses_checkNext (by decide)).bind (X := [.phrase .expressions]) (fun _ j => ?_) .any
    refine (parses_expressionList h).bind (X := []) (fun list j => ?_) .nil
    obtain ⟨n, e⟩ := list
    dsimp only
    split
    · exact .skip fun e => .skip fun _ => .still
    · exact .skip fun _ => .skip fun _ => .still

theorem fails_assignRest (target : Exp) (earlier : List Exp) (s : State)
    (ht : target.isVariable = false) :
    Fails (assignRest r target earlier) s := by
  unfold assignRest
  rw [if_pos (by simp [ht])]
  exact (fails_syntaxError _ s).bind

def Completed (a : Shape) (i j : List Token) : Prop :=
  a = .target ∧ Derives assignRow i j ∨ a = .call ∧ i = j ∧ ahead j ≠ .char '('

theorem Completed.avoids {a : Shape} (h : Completed a i j) (hj : Avoids afterStatement (ahead j)) :
    Avoids suffixKinds (ahead i) := by
  rcases h with ⟨-, h⟩ | ⟨-, rfl, hne⟩
  · exact (Meets.firm (F := Any) (G := Avoids suffixKinds) (by decide) rfl).ahead h trivial
  · have hkinds : ∀ k ∈ suffixKinds, k = .char '(' ∨ k ∈ afterStatement := by decide
    intro hm
    rcases hkinds _ hm with h | h
    · exact hne h
    · exact hj h

theorem statement_iff (hi : ahead i ∈ Phrase.callStarts) :
    Derives [.phrase .statement] i j ↔ ∃ (a : Shape) (k : List Token), Derives a.row i k ∧
      Completed a k j := by
  have hcandidates : candidates .statement (ahead i) =
      [[.phrase .targets, .char '=', .phrase .expressions],
        [.phrase .call, .notNext (.char '(')]] := by
    rcases List.mem_cons.1 hi with hi | hi
    · rw [hi]
      rfl
    · rw [List.mem_singleton.1 hi]
      rfl
  have htargets : Derives [.phrase .targets, .char '=', .phrase .expressions] i j ↔
      ∃ k, Derives [.phrase .target] i k ∧ Derives assignRow k j := by
    rw [Derives.phrase_iff]
    constructor
    · rintro ⟨Y, hY, k, hd, hk⟩
      rw [List.mem_singleton.1 hY] at hd
      obtain ⟨l, ht, hd⟩ := Derives.cons_iff.1 hd
      exact ⟨l, ht, hd.append hk⟩
    · rintro ⟨l, ht, hd⟩
      obtain ⟨k, hd, hk⟩ := Derives.cons_iff.1 hd
      exact ⟨_, List.mem_singleton.2 rfl, k, Derives.cons_iff.2 ⟨l, ht, hd⟩, hk⟩
  have hcall : Derives [.phrase .call, .notNext (.char '(')] i j ↔ Derives [.phrase .call] i j ∧
      ahead j ≠ .char '(' := by
    rw [Derives.cons_iff]
    simp only [Derives.notNext_iff, Derives.nil_iff]
    exact ⟨fun ⟨k, hd, hne, hk⟩ => hk ▸ ⟨hd, hne⟩, fun ⟨hd, hne⟩ => ⟨j, hd, hne, rfl⟩⟩
  constructor
  · intro hd
    obtain ⟨Y, hY, hd⟩ := Derives.single_iff.1 hd
    have hY := mem_candidates hY hd
    rw [hcandidates] at hY
    rcases List.mem_cons.1 hY with rfl | hY
    · obtain ⟨k, ht, hd⟩ := htargets.1 hd
      exact ⟨.target, k, ht, .inl ⟨rfl, hd⟩⟩
    · rw [List.mem_singleton.1 hY] at hd
      obtain ⟨hd, hne⟩ := hcall.1 hd
      exact ⟨.call, j, hd, .inr ⟨rfl, rfl, hne⟩⟩
  · rintro ⟨a, k, ha, ⟨rfl, hd⟩ | ⟨rfl, rfl, hne⟩⟩
    · exact Derives.single_iff.2 ⟨_, .tail _ (.head _), htargets.2 ⟨k, ha, hd⟩⟩
    · exact Derives.single_iff.2 ⟨_, .tail _ (.tail _ (.head _)), hcall.2 ⟨ha, hne⟩⟩

theorem reading_completed (h : NestedReads r) {e : Exp} {a : Shape} (he : e.HasShape a)
    (hi : Avoids suffixKinds (ahead i)) {s : State}
    (hs : s.Faces i) : Reading (fun (_ : Unit) j => Completed a i j) (Avoids afterStatement)
    (fun _ _ _ => True) ((do
      let k ← currentKind
      if k = .char '=' || k = .char ',' then discard (assignRest r e [])
      else match e.kind with
        | .call pc => setAt pc [(.c, 1)]
        | _ => syntaxError (utf8 "syntax error") : M Unit) s) := by
  rw [bind_eq (currentKind_eq hs)]
  by_cases hassign : ahead i = .char '=' ∨ ahead i = .char ','
  · have hcall : ∀ j, Completed a i j → Avoids afterStatement (ahead j) → a = .target ∧
        Derives assignRow i j := by
      rintro j (hd | ⟨-, rfl, -⟩) hj
      · exact hd
      · refine absurd ?_ hj
        rcases hassign with hk | hk <;> rw [hk] <;> decide
    rw [if_pos (by simpa using hassign)]
    by_cases ha : a = .target
    · have hread := ((parses_assignRest (i := i) h e [] (he.isVariable.2 ha)).discard.follow
        (F := Avoids afterStatement)
        fun _ hk => hk.mono (by decide)).outcome s hs
      exact hread.congr (fun _ _ j _ hd =>
        ⟨(), trivial, .inl ⟨ha, hd⟩, fun _ j' hd' hF => ⟨(), (hcall j' hd' hF).2, fun _ => rfl⟩⟩)
        fun _ j hd hF => ⟨(), (hcall j hd hF).2⟩
    · have hfails : Fails (discard (assignRest r e [])) s := by
        show Fails ((fun _ => ()) <$> assignRest r e []) s
        rw [map_eq_pure_bind]
        exact (fails_assignRest e [] s (by rw [← Bool.not_eq_true, he.isVariable]; exact ha)).bind
      obtain ⟨err, s', herr⟩ := hfails
      rw [herr]
      exact .refused fun _ j hd hF => ha (hcall j hd hF).1
  · rw [if_neg (by simpa using hassign)]
    rw [not_or] at hassign
    have hno : ∀ j, Completed a i j → a = .call ∧ i = j := by
      rintro j (⟨-, hd⟩ | ⟨ha, hij, -⟩)
      · have hs := hd.mem_starts rfl
        simp [rowStarts, Part.starts, Part.nullable, hassign.1, hassign.2] at hs
      · exact ⟨ha, hij⟩
    by_cases ha : a = .call
    · subst ha
      obtain ⟨pc, hpc⟩ := he
      rw [hpc]
      have hread := (ParsesTo.still (m := setAt pc [(.c, 1)]) (i := i)
        (F := Avoids afterStatement)).outcome s hs
      refine hread.congr (fun _ _ j _ hd => ⟨(), trivial, ?_, fun _ j' hd' _ => ?_⟩) fun _ j hd _ =>
        ?_
      · obtain rfl := Derives.nil_iff.1 hd
        exact .inr ⟨rfl, rfl, fun hparen => hi (by rw [hparen]; decide)⟩
      · exact ⟨(), (hno j' hd').2 ▸ .nil i, fun _ => rfl⟩
      · exact ⟨(), (hno j hd).2 ▸ .nil i⟩
    · cases hpc : e.kind with
      | call pc =>
        have hvalue : e.isVariable = false ∧ e.isMulti = true := by
          simp [Exp.isVariable, Exp.isMulti, hpc]
        cases a with
        | target => exact Bool.noConfusion (he.symm.trans hvalue.1)
        | call => exact absurd rfl ha
        | group => exact Bool.noConfusion (hvalue.2.symm.trans he.notMulti)
      | _ =>
        obtain ⟨err, s', herr⟩ := fails_syntaxError (α := Unit) (utf8 "syntax error") s
        dsimp only
        rw [herr]
        exact .refused fun _ j hd _ => ha (hno j hd).1

theorem expressionStatement_iff
    (hi : ahead i ∈ Phrase.callStarts ∨ ahead i ∉ Phrase.statementStarts) :
    Derives [.phrase .statement] i j ↔ ∃ (a : Shape) (k : List Token), Derives a.row i k ∧
      Completed a k j := by
  rcases hi with hi | hi
  · exact statement_iff hi
  · refine ⟨fun hd => absurd (hd.mem_starts rfl) hi, fun ⟨a, k, ha, _⟩ => absurd ?_ hi⟩
    exact (show Phrase.callStarts ⊆ Phrase.statementStarts by decide)
      ((Shape.prefixed ha).mem_starts rfl)

theorem parses_expressionStatement (h : NestedReads r)
    (hi : ahead i ∈ Phrase.callStarts ∨ ahead i ∉ Phrase.statementStarts) :
    Parses i (expressionStatement r) [.phrase .statement] (Avoids afterStatement) := by
  refine ⟨fun s hs => ?_⟩
  refine ((reading_suffixed h hs).bind (E := fun a j (_ : Unit) k => Completed a j k)
    (W := fun _ _ _ => True)
    (fun e a j s' he hs' => reading_completed h he.1 he.2 hs') fun a j _ k _ hd hF =>
      hd.avoids hF).congr
    (fun _ _ k _ hd => ?_) fun _ k hd _ => ?_
  · exact ⟨(), trivial, (expressionStatement_iff hi).2 hd, fun _ k' hd' _ =>
      ⟨(), (expressionStatement_iff hi).1 hd', fun _ => rfl⟩⟩
  · exact ⟨(), (expressionStatement_iff hi).1 hd⟩

theorem parses_functionOr {p : Phrase} {X Z : List Part} {F : TokenKind → Prop} {f : Bool → M Unit}
    (hp : productions p = [.word .function_ :: X, Z])
    (hZ : .word .function_ ∉ rowStarts Z ∧ rowNullable Z = false)
    (h₁ : ∀ j, Parses j (f true) X F) (h₂ : Parses i (f false) Z F) : Parses i
    (testNext (.word .function_) >>= f) [.phrase p] F := by
  by_cases hi : ahead i = .word .function_
  · refine (ParsesTo.test_true hi nofun h₁).congr (fun j hd => ?_) fun j _ hd => ?_
    · exact Derives.single_iff.2 ⟨_, hp ▸ .head _, hd⟩
    · obtain ⟨Y, hY, hd⟩ := Derives.single_iff.1 hd
      rw [hp] at hY
      rcases List.mem_cons.1 hY with rfl | hY
      · exact hd
      · rw [List.mem_singleton.1 hY] at hd
        exact absurd (hi ▸ hd.mem_starts hZ.2) hZ.1
  · refine (ParsesTo.test_false hi h₂).congr (fun j hd => ?_) fun j _ hd => ?_
    · exact Derives.single_iff.2 ⟨_, hp ▸ .tail _ (.head _), hd⟩
    · obtain ⟨Y, hY, hd⟩ := Derives.single_iff.1 hd
      rw [hp] at hY
      rcases List.mem_cons.1 hY with rfl | hY
      · exact absurd hd.token_ahead hi
      · rwa [List.mem_singleton.1 hY] at hd

theorem parses_statementBody (h : NestedReads r) (line : Nat) (hi : ahead i ≠ .word .return_) :
    Parses i (statementBody r line) (statementRow (ahead i)) (Avoids afterStatement) := by
  have hcase : ∀ {k : TokenKind} {X : List Part} {m : M Unit} {F : TokenKind → Prop}, ahead i = k →
      Parses i m X F →
      (∀ k, Avoids afterStatement k → F k) → candidates .statement k = [X] → k ≠ .symbol .colons →
      Parses i m (statementRow k) (Avoids afterStatement) := by
    intro k X m F hk hm hF hX hlabel
    unfold statementRow
    rw [if_neg hlabel]
    exact .phrase (hk ▸ hX) (by simpa using hm.follow hF)
  have hother : ∀ {k : TokenKind}, ahead i = k →
      (k ∈ Phrase.callStarts ∨ k ∉ Phrase.statementStarts) → k ≠ .symbol .colons →
      Parses i (expressionStatement r) (statementRow k) (Avoids afterStatement) := by
    intro k hk hstart hlabel
    unfold statementRow
    rw [if_neg hlabel]
    exact parses_expressionStatement h (hk ▸ hstart)
  have hany : ∀ k, Avoids afterStatement k → Any k := fun _ _ => trivial
  unfold statementBody
  refine .kind ?_
  cases hk : ahead i with
  | word w =>
    cases w with
    | if_ => exact hcase hk (parses_ifStatement h line hk) hany rfl nofun
    | while_ => exact hcase hk (parses_whileStatement h line hk) hany rfl nofun
    | do_ =>
      refine hcase (X := [.word .do_, .phrase .block, .word .end_]) hk ?_ hany rfl nofun
      refine (parses_next hk nofun).bind (X := [.phrase .block, .word .end_]) (fun _ j => ?_) .any
      exact (parses_block h).bind (X := [.word .end_]) (fun _ j => parses_checkMatch (by decide))
        (.firm (by decide) rfl)
    | for_ => exact hcase hk (parses_forStatement h line hk) hany rfl nofun
    | repeat_ =>
      exact hcase hk (parses_repeatStatement h line hk) (fun _ hF => hF.mono (by decide)) rfl nofun
    | function_ => exact hcase hk (parses_functionStatement h line hk) hany rfl nofun
    | local_ =>
      refine hcase (X := [.word .local_, .phrase .locals]) hk ?_ (fun _ hF => hF) rfl nofun
      refine (parses_next hk nofun).bind (X := [.phrase .locals]) (fun _ j => ?_) .any
      exact parses_functionOr rfl (by decide) (fun j => (parses_localFunction h).follow hany)
        (parses_localStatement h)
    | global_ =>
      refine hcase (X := [.word .global_, .phrase .globals]) hk ?_ (fun _ hF => hF) rfl nofun
      refine (parses_next hk nofun).bind (X := [.phrase .globals]) (fun _ j => ?_) .any
      exact parses_functionOr rfl (by decide) (fun j => (parses_globalFunction h line).follow hany)
        (parses_globalStatement h)
    | return_ => exact absurd hk hi
    | break_ => exact hcase hk (parses_breakStatement line hk) hany rfl nofun
    | goto_ =>
      refine hcase (X := [.word .goto_, .token .name]) hk ?_ hany rfl nofun
      exact (parses_next hk nofun).bind (X := [.token .name]) (fun _ j => parses_takeName.finish)
        .any
    | _ => exact hother hk (.inr (by decide)) nofun
  | symbol x =>
    cases x with
    | colons =>
      refine .phrase (X := [.symbol .colons, .token .name, .symbol .colons]) (by rw [hk]; rfl) ?_
      refine (parses_next hk nofun).bind (X := .token .name :: .symbol .colons :: voidsRow)
        (fun _ j => ?_) .any
      exact parses_takeName.bind (X := .symbol .colons :: voidsRow)
        (fun name j => parses_labelStatement h name line) .any
    | _ => exact hother hk (.inr (by decide)) nofun
  | byte b =>
    dsimp only
    split
    · rename_i hsemicolon
      rw [hsemicolon] at hk ⊢
      refine hcase (X := [.phrase .void]) hk (.phrase (X := [.char ';']) (by rw [hk]; rfl) ?_) hany
        rfl nofun
      exact parses_next hk (by decide)
    · rename_i hsemicolon
      refine hother hk ?_ nofun
      by_cases hparen : TokenKind.byte b = .char '('
      · exact .inl (by rw [hparen]; decide)
      · exact .inr
          (by
            simpa [Phrase.statementStarts, Phrase.voidStarts]
              using ⟨by simpa using hsemicolon, by simpa using hparen⟩)
  | name => exact hother hk (.inl (by decide)) nofun
  | _ => exact hother hk (.inr (by decide)) nofun

theorem parses_statement (h : NestedReads r) (hi : ahead i ≠ .word .return_) :
    Parses i (statement r) (statementRow (ahead i)) (Avoids afterStatement) := by
  rw [statement_eq]
  exact .skip fun line => (parses_statementBody h line hi).finish

theorem parses_return (h : NestedReads r) (hi : ahead i = .word .return_) : Parses i (statement r)
    [.phrase .return_] Closes := by
  rw [statement_eq]
  refine .phrase_only rfl (.skip fun line => ?_)
  have hbody : Parses i (statementBody r line)
      [.word .return_, .optional [.phrase .expressions], .optional [.char ';']] Closes := by
    refine .kind ?_
    rw [hi]
    exact (parses_next hi nofun).bind
      (X := [.optional [.phrase .expressions], .optional [.char ';']])
      (fun _ j => parses_returnStatement h) .any
  exact hbody.finish

theorem parses_tooDeep {V : α → Prop} {X : List Part} {F : TokenKind → Prop} :
    ParsesTo V i (tooDeep : M α) X F :=
  ⟨fun _ _ => .tolerable (.inl rfl)⟩

theorem ParsesTo.metered {V : α → Prop} {X : List Part} {F : TokenKind → Prop} {m : M α}
    (h : ParsesTo V i m X F) :
    ParsesTo V i (metered m) X F := by
  rw [← List.append_nil X]
  exact .skip fun _ => h.bind_of (fun a j ha => .skip fun _ => .pure ha) .nil

theorem Fails.metered {m : M α} (h : ∀ s, Fails m s) (s : State) : Fails (metered m) s :=
  .after fun _ t => .bind (h t)

theorem nestedReads (n : Nat) : NestedReads (nested n) := by
  induction n with
  | zero =>
    exact {
      subExpr := fun i limit => ⟨fun _ _ => .inl (.inl rfl)⟩
      return_ := fun i _ => parses_tooDeep
      statement := fun i _ => parses_tooDeep
      assign := fun i _ _ _ => parses_tooDeep
      refuse := fun _ _ s _ => ⟨_, _, rfl⟩
      initGlobals := fun i _ _ _ => parses_tooDeep }
  | succ n ih =>
    exact {
      subExpr := fun i limit => .skip fun _ =>
        (begins_subExpression ih limit).bind expression_append fun _ j hv => .skip fun _ => .pure hv
      return_ := fun i hi => (parses_return ih hi).metered
      statement := fun i hi => (parses_statement ih hi).metered
      assign := fun i target earlier ht => (parses_assignRest ih target earlier ht).metered
      refuse :=
        fun target earlier s ht => .metered (fun t => fails_assignRest target earlier t ht) s
      initGlobals := fun i count line names => (parses_initGlobals ih count line names).metered }

end LuaChunk.Compile
