import LuaChunk.Proofs.Compile.Tokens
import LuaChunk.Proofs.Syntax.Grammar
import LuaChunk.Proofs.Syntax.Results
import LuaChunk.Proofs.Syntax.Scope

set_option autoImplicit false

namespace LuaChunk.Compile

open LuaChunk Grammar

variable {α β γ : Type}

/-- The errors of syntax that the grammar does not tell. -/
def excused : List Bytes :=
  [utf8 "break outside a loop", utf8 "cannot use '...' outside a vararg function", tooLong]

def Tolerable : Failure → Prop
  | .error e => e.kind = .limit ∨ e.kind = .semantic ∨ e.kind = .syntactic ∧ e.message ∈ excused
  | .broken _ => True
  | .read _ => False

def Fails (m : M α) (s : State) : Prop := ∃ e s', m s = .error e s'

/-- The state before the tokens `i`. -/
structure State.Faces (s : State) (i : List Token) : Prop where
  failure : s.lexer.failure = none
  token : s.lexer.token = i.headD .eos
  rest : s.lexer.Yields i.tail
  proper : ∀ t ∈ i, t.kind ≠ .eos

/-- What comes of an action that may leave the tokens `j` of `D b j` with a result of which `V`
holds, where tokens of the kinds of `F` may follow. -/
inductive Reading (D : β → List Token → Prop) (F : TokenKind → Prop)
    (V : α → β → List Token → Prop) :
    EStateM.Result Failure State α → Prop
  | ok {a : α} {s : State} {b : β} {j : List Token} (h : s.Faces j) (hv : V a b j) (hd : D b j)
    (hu : ∀ b' j', D b' j' → F (ahead j') → b' = b ∧ j' = j) : Reading D F V (.ok a s)
  | tolerable {e : Failure} {s : State} (h : Tolerable e) : Reading D F V (.error e s)
  | refused {e : Failure} {s : State} (h : ∀ b j, D b j → ¬ F (ahead j)) : Reading D F V
    (.error e s)

theorem Reading.bind {m : M α} {f : α → M γ} {δ : Type} {s : State} {D : β → List Token → Prop}
    {E : β → List Token → δ → List Token → Prop} {F G : TokenKind → Prop}
    {V : α → β → List Token → Prop}
    {W : γ → δ → List Token → Prop} (h : Reading D G V (m s))
    (hf : ∀ a b j s', V a b j → s'.Faces j → Reading (E b j) F W (f a s'))
    (hG : ∀ b j c k, D b j → E b j c k → F (ahead k) → G (ahead j)) :
    Reading (fun c k => ∃ b j, D b j ∧ E b j c k) F W ((m >>= f) s) := by
  show Reading _ F W (EStateM.bind m f s)
  unfold EStateM.bind
  generalize m s = r at h
  cases h with
  | tolerable h => exact .tolerable h
  | refused h => exact .refused fun c k ⟨b, j, hd, hd'⟩ hF => h b j hd (hG b j c k hd hd' hF)
  | @ok a s' b j hs hv hd hu =>
    have hrest := hf a b j s' hv hs
    dsimp only
    generalize f a s' = r at hrest
    cases hrest with
    | tolerable h => exact .tolerable h
    | refused h =>
      refine .refused fun c k ⟨b', j', hd', hc⟩ hF => ?_
      obtain ⟨rfl, rfl⟩ := hu b' j' hd' (hG b' j' c k hd' hc hF)
      exact h c k hc hF
    | @ok c _ d k ht hw hd₂ hu₂ =>
      refine .ok ht hw ⟨b, j, hd, hd₂⟩ fun d' k' ⟨b', j', hd', hc⟩ hF => ?_
      obtain ⟨rfl, rfl⟩ := hu b' j' hd' (hG b' j' d' k' hd' hc hF)
      exact hu₂ d' k' hc hF

theorem Reading.advanced {m : M α} {s : State} {taken : Nat} {D : β → List Token → Prop}
    {F : TokenKind → Prop}
    {V : α → β → List Token → Prop} (h : Reading D F V (m s)) : Reading D F V
    ((checkAdvance taken >>= fun _ => m) s) := by
  by_cases hlt : taken < s.lexer.taken
  · rw [bind_eq (checkAdvance_of_lt hlt)]
    exact h
  · show Reading D F V (EStateM.bind (checkAdvance taken) _ s)
    rw [EStateM.bind, checkAdvance_of_not_lt hlt]
    exact .tolerable trivial

theorem Reading.congr {δ : Type} {D : β → List Token → Prop} {D' : δ → List Token → Prop}
    {F : TokenKind → Prop}
    {V : α → β → List Token → Prop} {W : α → δ → List Token → Prop}
    {r : EStateM.Result Failure State α} (h : Reading D F V r)
    (hs : ∀ a b j, V a b j → D b j → ∃ d, W a d j ∧ D' d j ∧
      ∀ d' j', D' d' j' → F (ahead j') → ∃ b', D b' j' ∧ (b' = b → d' = d))
    (hc : ∀ d j, D' d j → F (ahead j) → ∃ b, D b j) : Reading D' F W r := by
  cases h with
  | tolerable h => exact .tolerable h
  | refused h =>
    refine .refused fun d j hd hF => ?_
    obtain ⟨b, hb⟩ := hc d j hd hF
    exact h b j hb hF
  | @ok a s b j hj hv hd hu =>
    obtain ⟨d, hw, hd', hu'⟩ := hs a b j hv hd
    refine .ok hj hw hd' fun d' j' hdj hF => ?_
    obtain ⟨b', hb', heq⟩ := hu' d' j' hdj hF
    obtain ⟨hb, rfl⟩ := hu b' j' hb' hF
    exact ⟨heq hb, rfl⟩

theorem Reading.narrow {D : β → List Token → Prop} {F G : TokenKind → Prop}
    {V : α → β → List Token → Prop}
    {r : EStateM.Result Failure State α} (h : Reading D G V r)
    (hG : ∀ b j, D b j → F (ahead j) → G (ahead j)) : Reading D F V r := by
  cases h with
  | ok hj hv hd hu => exact .ok hj hv hd fun b' j' hd' hF => hu b' j' hd' (hG b' j' hd' hF)
  | tolerable h => exact .tolerable h
  | refused h => exact .refused fun b j hd hF => h b j hd (hG b j hd hF)

theorem Reading.missing {m : M α} {s : State} {i : List Token} {k : TokenKind} {X : List Part}
    {F : TokenKind → Prop}
    {V : α → Unit → List Token → Prop} (h : Fails m s) (hk : ahead i ≠ k) :
    Reading (fun _ j => Derives (.token k :: X) i j) F V (m s) := by
  obtain ⟨e, s', he⟩ := h
  rw [he]
  refine .refused fun _ j h _ => ?_
  obtain ⟨t, i', rfl, ht, -⟩ := Derives.token_iff.1 h
  exact hk ht

/-- The productions of a phrase that may start with a token of a kind. -/
def candidates (p : Phrase) (k : TokenKind) : List (List Part) :=
  (productions p).filter fun Y => rowNullable Y || (rowStarts Y).contains k

theorem mem_candidates {p : Phrase} {Y : List Part} {i j : List Token} (hY : Y ∈ productions p)
    (hd : Derives Y i j) :
    Y ∈ candidates p (ahead i) := by
  refine List.mem_filter.2 ⟨hY, ?_⟩
  rcases hd.starts with hs | ⟨hn, -⟩
  · simp [hs]
  · simp [hn]

theorem single_of {p : Phrase} {X : List Part} {i j : List Token}
    (hX : candidates p (ahead i) = [X]) :
    Derives [.phrase p] i j ↔ Derives X i j := by
  have hmem : ∀ Y, Y ∈ candidates p (ahead i) ↔ Y = X := fun Y => by rw [hX, List.mem_singleton]
  rw [Derives.single_iff]
  constructor
  · rintro ⟨Y, hY, hd⟩
    obtain rfl := (hmem Y).1 (mem_candidates hY hd)
    exact hd
  · exact fun h => ⟨X, (List.mem_filter.1 ((hmem X).2 rfl)).1, h⟩

theorem repeated_none {Y : List Part} {i j : List Token} (hY : rowNullable Y = false)
    (hi : ahead i ∉ rowStarts Y)
    (h : Derives [.repeated Y] i j) : i = j := by
  rcases Derives.repeated_iff.1 h with h | ⟨k, h, -⟩
  · exact Derives.nil_iff.1 h
  · exact absurd (h.mem_starts hY) hi

/-- An action reads some parts from the tokens `i`, with a result of which `V` holds. -/
structure ParsesTo (V : α → Prop) (i : List Token) (m : M α) (X : List Part)
    (F : TokenKind → Prop) : Prop where
  outcome : ∀ s : State, s.Faces i →
    Reading (fun (_ : Unit) j => Derives X i j) F (fun a _ _ => V a) (m s)

abbrev Parses (i : List Token) (m : M α) (X : List Part) (F : TokenKind → Prop) : Prop :=
  ParsesTo (fun _ => True) i m X F

/-- Where tokens of the kinds of `F` may follow some parts, only tokens of the kinds of `G` come
first. -/
structure Meets (X : List Part) (F G : TokenKind → Prop) : Prop where
  starts : ∀ k ∈ rowStarts X, G k
  follow : rowNullable X = true → ∀ k, F k → G k

theorem Meets.nil {F : TokenKind → Prop} : Meets [] F F := ⟨nofun, fun _ _ hk => hk⟩

theorem Meets.firm {X : List Part} {F G : TokenKind → Prop} (h : ∀ k ∈ rowStarts X, G k)
    (hX : rowNullable X = false) : Meets X F G :=
  ⟨h, fun hn => by rw [hX] at hn; cases hn⟩

theorem Meets.ahead {X : List Part} {F G : TokenKind → Prop} (h : Meets X F G) {i j : List Token}
    (hd : Derives X i j)
    (hF : F (ahead j)) : G (ahead i) := by
  rcases hd.starts with hs | ⟨hn, rfl⟩
  · exact h.starts _ hs
  · exact h.follow hn _ hF

/-- An action that leaves the tokens as they are, and finds no fault with them. -/
class Still (m : M α) : Prop where
  faces : ∀ (s : State) (i : List Token), s.Faces i → match m s with
    | .ok _ s' => s'.Faces i
    | .error e _ => Tolerable e

theorem Reportable.tolerable {e : CompileError} (h : Reportable true e) : Tolerable (.error e) := by
  rcases h with h | ⟨hk, hm⟩ | ⟨hk, -⟩
  · exact .inl h
  · exact .inr (.inr ⟨hk, by simp [excused, hm]⟩)
  · exact .inr (.inl hk)

instance still_coding {m : M α} [h : Coding false true m] : Still m := by
  refine ⟨fun s i hs => ?_⟩
  have hrun := h.sameRun s s.lexer s.progress ⟨rfl, rfl, rfl⟩
  generalize m (s.withStream s.lexer s.progress) = r' at hrun
  generalize m s = r at hrun
  cases hrun with
  | ok hl _ _ => exact ⟨hl ▸ hs.failure, hl ▸ hs.token, hl ▸ hs.rest, hs.proper⟩
  | error h =>
    cases h with
    | error _ hr => exact hr.tolerable
    | broken a => trivial

instance still_tokensTaken : Still tokensTaken := ⟨fun _ _ hs => hs⟩

instance still_checkAdvance (taken : Nat) : Still (checkAdvance taken) := by
  refine ⟨fun s i hs => ?_⟩
  by_cases h : taken < s.lexer.taken
  · rw [checkAdvance_of_lt h]
    exact hs
  · rw [checkAdvance_of_not_lt h]
    trivial

instance still_enterLevel : Still enterLevel :=
  ⟨fun _ _ hs => ⟨hs.failure, hs.token, hs.rest, hs.proper⟩⟩

instance still_leaveLevel : Still leaveLevel :=
  ⟨fun _ _ hs => ⟨hs.failure, hs.token, hs.rest, hs.proper⟩⟩

section

variable {s : State} {i : List Token}

theorem State.Faces.kind (h : s.Faces i) : s.lexer.token.kind = ahead i := by rw [h.token, ahead]

theorem currentToken_eq (h : s.Faces i) : currentToken s = .ok (i.headD .eos) s := by
  show EStateM.Result.ok s.lexer.token s = _
  rw [h.token]

theorem currentKind_eq (h : s.Faces i) : currentKind s = .ok (ahead i) s := by
  show EStateM.Result.ok s.lexer.token.kind s = _
  rw [h.kind]

theorem onLexer_eq {act : Lexer.M α} {a : α} {l : Lexer} (h : act s.lexer = .ok a l) :
    onLexer act s = .ok a { s with lexer := l } := by
  unfold onLexer
  dsimp only
  rw [h]

theorem State.Faces.tail (h : s.Faces i) {l : Lexer} (hf : l.failure = none)
    (ht : l.token = i.tail.headD .eos)
    (hr : l.Yields i.tail.tail) : State.Faces { s with lexer := l } i.tail :=
  ⟨hf, ht, hr, fun t hm => h.proper t (List.mem_of_mem_tail hm)⟩

theorem next_eq (h : s.Faces i) : ∃ s', next s = .ok () s' ∧ s'.Faces i.tail := by
  obtain ⟨l, hl, ht, hr, hf, -⟩ := Lexer.next_yields h.failure h.rest
  exact ⟨_, onLexer_eq hl, h.tail hf ht hr⟩

theorem nextName_eq (d : Option Nat) (h : s.Faces i) : ∃ s', nextName d s = .ok () s' ∧
    s'.Faces i.tail := by
  let l₀ : Lexer := { s.lexer with bindings := s.lexer.bindings.push (s.lexer.number, d) }
  have hrest : l₀.Yields i.tail := h.rest
  obtain ⟨l, hl, ht, hr, hf, -⟩ := Lexer.next_yields (l := l₀) h.failure hrest
  exact ⟨_, onLexer_eq hl, h.tail hf ht hr⟩

theorem lookahead_eq (h : s.Faces i) : ∃ s', lookahead s = .ok (ahead i.tail) s' ∧ s'.Faces i := by
  obtain ⟨l, hl, ht, hr, hf, -⟩ := Lexer.lookahead_yields h.failure h.rest
  exact ⟨_, onLexer_eq hl, hf, ht.trans h.token, hr, h.proper⟩

theorem token_cons {k : TokenKind} (hk : ahead i = k) (hne : k ≠ .eos) : ∃ t, i = t :: i.tail ∧
    t.kind = k := by
  cases i with
  | nil => exact absurd hk.symm hne
  | cons t i => exact ⟨t, rfl, hk⟩

theorem testNext_true {k : TokenKind} (h : s.Faces i) (hk : ahead i = k) :
    ∃ s', testNext k s = .ok true s' ∧ s'.Faces i.tail := by
  obtain ⟨s', he, hs'⟩ := next_eq h
  refine ⟨s', ?_, hs'⟩
  unfold testNext
  rw [bind_eq (currentKind_eq h), if_pos hk, bind_eq he]
  rfl

theorem testNext_false {k : TokenKind} (h : s.Faces i) (hk : ahead i ≠ k) :
    testNext k s = .ok false s := by
  unfold testNext
  rw [bind_eq (currentKind_eq h), if_neg hk]
  rfl

end

theorem Fails.bind {m : M α} {f : α → M β} {s : State} (h : Fails m s) : Fails (m >>= f) s := by
  obtain ⟨e, s', he⟩ := h
  refine ⟨e, s', ?_⟩
  show EStateM.bind m f s = _
  unfold EStateM.bind
  rw [he]

theorem Fails.after {m : M α} {f : α → M β} {s : State} (h : ∀ a s, Fails (f a) s) :
    Fails (m >>= f) s := by
  cases hm : m s with
  | ok a s' =>
    unfold Fails
    rw [bind_eq hm]
    exact h a s'
  | error e s' => exact Fails.bind ⟨e, s', hm⟩

theorem fails_syntaxError (message : Bytes) (s : State) : Fails (syntaxError message : M α) s :=
  ⟨_, _, rfl⟩

theorem fails_errorExpected (k : TokenKind) (s : State) : Fails (errorExpected k : M α) s :=
  fails_syntaxError _ s

namespace Still

variable {m m' : M α} {f : α → M β}

instance bind [h : Still m] [hf : ∀ a, Still (f a)] : Still (m >>= f) := by
  refine ⟨fun s i hs => ?_⟩
  have hm := h.faces s i hs
  show match EStateM.bind m f s with | .ok _ s' => _ | .error e _ => _
  unfold EStateM.bind
  generalize m s = r at hm
  cases r with
  | ok a s' => exact (hf a).faces s' i hm
  | error e s' => exact hm

instance discard [h : Still m] : Still (discard m) := by
  show Still ((fun _ => ()) <$> m)
  rw [map_eq_pure_bind]
  infer_instance

end Still

instance still_intern (text : Bytes) : Still (intern text) :=
  ⟨fun _ _ hs => ⟨hs.failure, hs.token, hs.rest, hs.proper⟩⟩

instance still_declareHidden (name : String) : Still (declareHidden name) := by
  unfold declareHidden
  infer_instance

instance still_get : Still (get : M State) := ⟨fun _ _ hs => hs⟩

namespace ParsesTo

variable {V : α → Prop} {W : β → Prop} {i : List Token} {m : M α} {f : α → M β} {X Y : List Part}
  {F G : TokenKind → Prop}
  {k : TokenKind} {p : Phrase}

theorem congr (h : ParsesTo V i m X F) (hs : ∀ j, Derives X i j → Derives Y i j)
    (hc : ∀ j, F (ahead j) → Derives Y i j → Derives X i j) : ParsesTo V i m Y F :=
  ⟨fun s hf => (h.outcome s hf).congr
    (fun _ b j hv hd => ⟨b, hv, hs j hd, fun d' j' hd' hF => ⟨d', hc j' hF hd', fun _ => rfl⟩⟩)
    fun d j hd hF => ⟨d, hc j hF hd⟩⟩

theorem follow (h : ParsesTo V i m X G) (hG : ∀ k, F k → G k) : ParsesTo V i m X F :=
  ⟨fun s hf => (h.outcome s hf).narrow fun _ j _ => hG (ahead j)⟩

theorem bind_of (h : ParsesTo V i m Y G) (hf : ∀ a j, V a → ParsesTo W j (f a) X F)
    (hG : Meets X F G) :
    ParsesTo W i (m >>= f) (Y ++ X) F := by
  refine ⟨fun s hs => ?_⟩
  have hm := (h.outcome s hs).bind (W := fun c _ _ => W c)
    (fun a b j s' hv hs' => (hf a j hv).outcome s' hs') fun b j c k _ hd hF => hG.ahead hd hF
  refine hm.congr (fun c d k hw ⟨_, j, hd, hd'⟩ => ⟨d, hw, hd.append hd', ?_⟩) ?_
  · intro d' j' hd' hF
    obtain ⟨k', h₁, h₂⟩ := Derives.append_iff.1 hd'
    exact ⟨d', ⟨(), k', h₁, h₂⟩, fun _ => rfl⟩
  · intro d k hd hF
    obtain ⟨k', h₁, h₂⟩ := Derives.append_iff.1 hd
    exact ⟨d, (), k', h₁, h₂⟩

theorem bind (h : ParsesTo V i m Y G) (hf : ∀ a j, ParsesTo W j (f a) X F) (hG : Meets X F G) :
    ParsesTo W i (m >>= f) (Y ++ X) F := h.bind_of (fun a j _ => hf a j) hG

theorem pure {a : α} (h : V a) : ParsesTo V i (Pure.pure a : M α) [] F :=
  ⟨fun _ hs => .ok hs h (b := ()) (.nil i) fun _ _ hd _ => ⟨rfl, (Derives.nil_iff.1 hd).symm⟩⟩

theorem still [h : Still m] : Parses i m [] F := by
  refine ⟨fun s hs => ?_⟩
  have hm := h.faces s i hs
  generalize m s = r at hm
  cases r with
  | ok a s' =>
    exact .ok hm trivial (b := ()) (.nil i) fun _ _ hd _ => ⟨rfl, (Derives.nil_iff.1 hd).symm⟩
  | error e s' => exact .tolerable hm

theorem skip_of {P : α → Prop} [h : Still m] (hP : Results P m)
    (hf : ∀ a, P a → ParsesTo W i (f a) X F) :
    ParsesTo W i (m >>= f) X F := by
  refine ⟨fun s hs => ?_⟩
  have hm := h.faces s i hs
  have hr := hP.holds s
  show Reading _ F _ (EStateM.bind m f s)
  unfold EStateM.bind
  generalize m s = r at hm hr
  cases r with
  | ok a s' => exact (hf a (hr a s' rfl)).outcome s' hm
  | error e s' => exact .tolerable hm

theorem skip [Still m] (hf : ∀ a, ParsesTo W i (f a) X F) : ParsesTo W i (m >>= f) X F :=
  skip_of ⟨fun _ _ _ _ => trivial⟩ fun a (_ : True) => hf a

theorem finish_of [hm : ∀ a, Still (f a)] (h : ParsesTo V i m X F)
    (hf : ∀ a, V a → Results W (f a)) : ParsesTo W i (m >>= f) X F := by
  have hbind := h.bind_of (X := []) (F := F)
    (fun a j ha => skip_of (m := f a) (hf a ha) fun b hb => .pure (V := W) (a := b) hb)
    Meets.nil
  simpa only [List.append_nil, bind_pure] using hbind

theorem finish [∀ a, Still (f a)] (h : ParsesTo V i m X F) : Parses i (m >>= f) X F :=
  h.finish_of fun _ _ => ⟨fun _ _ _ _ => trivial⟩

theorem discard (h : Parses i m X F) : Parses i (discard m) X F := by
  show Parses i ((fun _ => ()) <$> m) X F
  rw [map_eq_pure_bind]
  exact h.finish

theorem refuse (h : ∀ s : State, Fails m s) (hd : ∀ j, F (ahead j) → ¬ Derives X i j) :
    ParsesTo V i m X F := by
  refine ⟨fun s _ => ?_⟩
  obtain ⟨e, s', he⟩ := h s
  rw [he]
  exact .refused fun _ j h hF => hd j hF h

theorem take (hne : k ≠ .eos)
    (hok : ahead i = k → ∀ s : State, s.Faces i → ∃ a s', m s = .ok a s' ∧ V a ∧ s'.Faces i.tail)
    (hno : ahead i ≠ k → ∀ s : State, s.Faces i → Fails m s) : ParsesTo V i m [.token k] F := by
  refine ⟨fun s hs => ?_⟩
  by_cases hk : ahead i = k
  · obtain ⟨a, s', he, hv, hs'⟩ := hok hk s hs
    obtain ⟨t, hi, ht⟩ := token_cons hk hne
    rw [he]
    refine .ok hs' hv (b := ()) ?_ fun _ j' hd _ => ⟨rfl, ?_⟩
    · rw [hi]
      exact .token ht (.nil _)
    · obtain ⟨_, i', rfl, -, hd⟩ := Derives.token_iff.1 hd
      exact (Derives.nil_iff.1 hd).symm
  · exact .missing (hno hk s hs) hk

theorem optional_with (h : ParsesTo V i m (Y ++ X) F) (hX : Meets X F G) (hi : ¬ G (ahead i)) :
    ParsesTo V i m (.optional Y :: X) F := by
  refine h.congr (fun j hd => ?_) fun j hF hd => ?_
  · obtain ⟨k, hY, hX⟩ := Derives.append_iff.1 hd
    exact .with_ hY hX
  · rcases Derives.optional_iff.1 hd with hd | ⟨k, hY, hd⟩
    · exact absurd (hX.ahead hd hF) hi
    · exact hY.append hd

theorem optional_without (h : ParsesTo V i m X F) (hY : rowNullable Y = false)
    (hi : ahead i ∉ rowStarts Y) :
    ParsesTo V i m (.optional Y :: X) F := by
  refine h.congr (fun j => .without) fun j _ hd => ?_
  rcases Derives.optional_iff.1 hd with hd | ⟨k, hd, -⟩
  · exact hd
  · exact absurd (hd.mem_starts hY) hi

/-- A repeated part comes once more, since what comes after it does not start like this. -/
theorem repeated_with (h : ParsesTo V i m (Y ++ .repeated Y :: X) F) (hX : Meets X F G)
    (hi : ¬ G (ahead i)) :
    ParsesTo V i m (.repeated Y :: X) F := by
  refine h.congr (fun j hd => ?_) fun j hF hd => ?_
  · obtain ⟨k, hY, hX⟩ := Derives.append_iff.1 hd
    exact .again hY hX
  · rcases Derives.repeated_iff.1 hd with hd | ⟨k, hY, hd⟩
    · exact absurd (hX.ahead hd hF) hi
    · exact hY.append hd

theorem repeated_without (h : ParsesTo V i m X F) (hY : rowNullable Y = false)
    (hi : ahead i ∉ rowStarts Y) :
    ParsesTo V i m (.repeated Y :: X) F := by
  refine h.congr (fun j => .stop) fun j _ hd => ?_
  rcases Derives.repeated_iff.1 hd with hd | ⟨k, hd, -⟩
  · exact hd
  · exact absurd (hd.mem_starts hY) hi

theorem phrase {Z : List Part} (hX : candidates p (ahead i) = [X]) (h : ParsesTo V i m (X ++ Z) F) :
    ParsesTo V i m (.phrase p :: Z) F := by
  refine h.congr (fun j hd => ?_) fun j _ hd => ?_
  · obtain ⟨k, hd, hZ⟩ := Derives.append_iff.1 hd
    exact Derives.cons_iff.2 ⟨k, (single_of hX).2 hd, hZ⟩
  · obtain ⟨k, hd, hZ⟩ := Derives.cons_iff.1 hd
    exact ((single_of hX).1 hd).append hZ

theorem phrase_only {Z : List Part} (hX : productions p = [X]) (h : ParsesTo V i m (X ++ Z) F) :
    ParsesTo V i m (.phrase p :: Z) F := by
  refine h.congr (fun j hd => ?_) fun j _ hd => ?_
  · obtain ⟨k, hd, hZ⟩ := Derives.append_iff.1 hd
    exact .phrase (by rw [hX]; exact List.mem_singleton.2 rfl) hd hZ
  · obtain ⟨Y, hY, k, hd, hZ⟩ := Derives.phrase_iff.1 hd
    rw [hX] at hY
    obtain rfl := List.mem_singleton.1 hY
    exact hd.append hZ

theorem kind {f : TokenKind → M β} (h : ParsesTo W i (f (ahead i)) X F) :
    ParsesTo W i (currentKind >>= f) X F := by
  refine ⟨fun s hs => ?_⟩
  rw [bind_eq (currentKind_eq hs)]
  exact h.outcome s hs

theorem currentToken {f : Token → M β} (h : ParsesTo W i (f (i.headD .eos)) X F) :
    ParsesTo W i (currentToken >>= f) X F := by
  refine ⟨fun s hs => ?_⟩
  rw [bind_eq (currentToken_eq hs)]
  exact h.outcome s hs

theorem lookahead {f : TokenKind → M β} (h : ParsesTo W i (f (ahead i.tail)) X F) :
    ParsesTo W i (lookahead >>= f) X F := by
  refine ⟨fun s hs => ?_⟩
  obtain ⟨s', he, hs'⟩ := lookahead_eq hs
  rw [bind_eq he]
  exact h.outcome s' hs'

end ParsesTo

def Any (_ : TokenKind) : Prop := True

theorem Meets.any {X : List Part} {F : TokenKind → Prop} : Meets X F Any :=
  ⟨fun _ _ => trivial, fun _ _ _ => trivial⟩

variable {V : α → Prop} {W : β → Prop} {i : List Token} {m : M α} {f : α → M β} {X Y : List Part}
  {F G : TokenKind → Prop}
  {k : TokenKind} {p : Phrase}

theorem parses_next (hk : ahead i = k) (hne : k ≠ .eos) : Parses i next [.token k] Any :=
  .take hne (fun _ s hs => by
    obtain ⟨s', he, hs'⟩ := next_eq hs
    exact ⟨(), s', he, trivial, hs'⟩) fun h => absurd hk h

theorem parses_checkNext (hne : k ≠ .eos) : Parses i (checkNext k) [.token k] Any := by
  refine .take hne (fun hk s hs => ?_) fun hk s hs => ?_
  · obtain ⟨s', he, hs'⟩ := next_eq hs
    refine ⟨(), s', ?_, trivial, hs'⟩
    have hcheck : check k s = .ok () s := by
      unfold check
      rw [bind_eq (currentKind_eq hs), if_neg (fun h => h hk)]
      rfl
    unfold checkNext
    rw [bind_eq hcheck, he]
  · have hcheck : Fails (check k) s := by
      unfold check Fails
      rw [bind_eq (currentKind_eq hs), if_pos hk]
      exact fails_errorExpected k s
    exact hcheck.bind

theorem parses_checkMatch {who : TokenKind} {line : Nat} (hne : k ≠ .eos) :
    Parses i (checkMatch k who line) [.token k] Any := by
  refine .take hne (fun hk s hs => ?_) fun hk s hs => ?_
  · obtain ⟨s', he, hs'⟩ := testNext_true hs hk
    refine ⟨(), s', ?_, trivial, hs'⟩
    unfold checkMatch
    rw [bind_eq he]
    rfl
  · unfold checkMatch Fails
    rw [bind_eq (testNext_false hs hk)]
    show Fails (if line = s.lexer.line then _ else _) s
    split
    · exact fails_errorExpected ..
    · exact fails_syntaxError ..

theorem name_cons (hk : ahead i = .name) : ∃ name, i.headD .eos = .name name := by
  unfold ahead at hk
  cases hi : i.headD .eos <;> rw [hi] at hk <;> cases hk
  exact ⟨_, rfl⟩

theorem byte_cons {b : UInt8} (hk : ahead i = .byte b) : i.headD .eos = .byte b := by
  unfold ahead at hk
  cases hi : i.headD .eos <;> rw [hi] at hk <;> cases hk
  rfl

theorem symbol_cons {x : Symbol} (hk : ahead i = .symbol x) : i.headD .eos = .symbol x := by
  unfold ahead at hk
  cases hi : i.headD .eos <;> rw [hi] at hk <;> cases hk
  rfl

theorem string_cons (hk : ahead i = .string) : ∃ text raw, i.headD .eos = .string text raw := by
  unfold ahead at hk
  cases hi : i.headD .eos <;> rw [hi] at hk <;> cases hk
  exact ⟨_, _, rfl⟩

theorem name_ne (hk : ahead i ≠ .name) (name : Bytes) : i.headD .eos ≠ .name name :=
  fun h => hk (by rw [ahead, h]; rfl)

theorem parses_takeName : Parses i takeName [.token .name] Any := by
  refine .take nofun (fun hk s hs => ?_) fun hk s hs => ?_
  · obtain ⟨name, hi⟩ := name_cons hk
    obtain ⟨s', he, hs'⟩ := nextName_eq none hs
    refine ⟨name, s', ?_, trivial, hs'⟩
    unfold takeName
    rw [bind_eq (currentToken_eq hs), hi]
    show (nextName none >>= fun _ => pure name) s = _
    rw [bind_eq he]
    rfl
  · unfold takeName Fails
    rw [bind_eq (currentToken_eq hs)]
    have hne := name_ne hk
    cases hi : i.headD .eos <;> first | exact absurd hi (hne _) | exact fails_errorExpected _ s

theorem parses_takeDeclared : Parses i takeDeclared [.token .name] Any := by
  refine .take nofun (fun hk s hs => ?_) fun hk s hs => ?_
  · obtain ⟨name, hi⟩ := name_cons hk
    obtain ⟨s', he, hs'⟩ := nextName_eq (some s.lexer.number) hs
    refine ⟨(name, s.lexer.number), s', ?_, trivial, hs'⟩
    unfold takeDeclared
    rw [bind_eq (m := get) (a := s) (t := s) rfl, bind_eq (currentToken_eq hs), hi]
    show (nextName (some s.lexer.number) >>= fun _ => pure (name, s.lexer.number)) s = _
    rw [bind_eq he]
    rfl
  · unfold takeDeclared Fails
    rw [bind_eq (m := get) (a := s) (t := s) rfl, bind_eq (currentToken_eq hs)]
    have hne := name_ne hk
    cases hi : i.headD .eos <;> first | exact absurd hi (hne _) | exact fails_errorExpected _ s

theorem ParsesTo.last [h : Still m] (hV : Results V m) : ParsesTo V i m [] F := by
  have hm := ParsesTo.skip_of (i := i) (F := F) (W := V) hV fun a ha => .pure ha
  rwa [bind_pure] at hm

theorem parses_takeVariable :
    ParsesTo (fun e => e.isVariable = true) i takeVariable [.token .name] Any := by
  refine ⟨fun s hs => ?_⟩
  unfold takeVariable
  rw [bind_eq (currentToken_eq hs)]
  by_cases hk : ahead i = .name
  · obtain ⟨name, hi⟩ := name_cons hk
    have htake : Parses i (nextName (s.declarationOf name)) [.token .name] Any :=
      .take nofun (fun _ _ hs => by
        obtain ⟨s', he, hs'⟩ := nextName_eq (s.declarationOf name) hs
        exact ⟨(), s', he, trivial, hs'⟩) fun h => absurd hk h
    rw [hi]
    exact (htake.bind (fun _ j => ParsesTo.last (results_readVariable name)) .any).outcome s hs
  · have hne := name_ne hk
    refine .missing ?_ hk
    cases hi : i.headD .eos <;> first | exact absurd hi (hne _) | exact fails_errorExpected _ s

namespace ParsesTo

theorem test_true {f : Bool → M β} (hk : ahead i = k) (hne : k ≠ .eos)
    (h : ∀ j, ParsesTo W j (f true) X F) :
    ParsesTo W i (testNext k >>= f) (.token k :: X) F := by
  have htest : ParsesTo (fun b => b = true) i (testNext k) [.token k] Any :=
    .take hne (fun _ s hs => by
    obtain ⟨s', he, hs'⟩ := testNext_true hs hk
    exact ⟨true, s', he, rfl, hs'⟩) fun h => absurd hk h
  refine htest.bind_of (fun b j hb => ?_) .any
  rw [hb]
  exact h j

theorem test_false {f : Bool → M β} (hk : ahead i ≠ k) (h : ParsesTo W i (f false) X F) :
    ParsesTo W i (testNext k >>= f) X F := by
  refine ⟨fun s hs => ?_⟩
  rw [bind_eq (testNext_false hs hk)]
  exact h.outcome s hs

theorem ifToken {f : Bool → M β} (hne : k ≠ .eos) (h₁ : ∀ j, ParsesTo W j (f true) (Y ++ X) F)
    (h₂ : ParsesTo W i (f false) X F)
    (hX : Meets X F (· ≠ k)) : ParsesTo W i (testNext k >>= f) (.optional (.token k :: Y) :: X)
    F := by
  by_cases hk : ahead i = k
  · exact optional_with (test_true hk hne h₁) hX fun h => h hk
  · exact optional_without (test_false hk h₂) rfl
      (by simpa [rowStarts, Part.starts, Part.nullable] using hk)

theorem iterate {turn : α → M (Turn α β)}
    (hstop : ∀ a s j, s.Faces j → ahead j ≠ k → ∃ b, turn a s = .ok (.done b) s)
    (hagain : ∀ a j, ahead j = k →
    ParsesTo (fun t => ∃ a', t = .again a') j (turn a) (.token k :: Y) G)
    (hF : ∀ x, F x → x ≠ k) (hG : G k) (hFG : ∀ x, F x → G x) (n : Nat) (a : α) :
    Parses i (Compile.iterate turn n a) [.repeated (.token k :: Y)] F := by
  induction n generalizing i a with
  | zero => exact ⟨fun s _ => .tolerable trivial⟩
  | succ n ih =>
    refine .skip fun taken => ?_
    by_cases hk : ahead i = k
    · have hmeets : Meets [.repeated (.token k :: Y)] F G := by
        refine ⟨fun x hx => ?_, fun _ => hFG⟩
        obtain rfl : x = k := by simpa [rowStarts, Part.starts, Part.nullable] using hx
        exact hG
      refine .repeated_with (X := []) (G := F) ((hagain a i hk).bind_of (fun t j ht => ?_) hmeets)
        .nil fun hi => hF _ hi hk
      obtain ⟨a', rfl⟩ := ht
      exact .skip fun _ => ih a'
    · refine .repeated_without (X := []) ⟨fun s hs => ?_⟩ rfl
        (by simpa [rowStarts, Part.starts, Part.nullable] using hk)
      obtain ⟨b, hb⟩ := hstop a s i hs hk
      rw [bind_eq hb]
      exact (ParsesTo.pure (V := fun _ => True) trivial).outcome s hs

theorem loop {turn : α → M (Turn α β)}
    (hstop : ∀ a s j, s.Faces j → ahead j ≠ k → ∃ b, turn a s = .ok (.done b) s)
    (hagain : ∀ a j, ahead j = k →
    ParsesTo (fun t => ∃ a', t = .again a') j (turn a) (.token k :: Y) G)
    (hF : ∀ x, F x → x ≠ k) (hG : G k) (hFG : ∀ x, F x → G x) (a : α) :
    Parses i (repeatTurn turn a) [.repeated (.token k :: Y)] F :=
  ⟨fun s hs => (iterate hstop hagain hF hG hFG s.bound a).outcome s hs⟩

end ParsesTo

/-- None of some kinds. -/
def Avoids (A : List TokenKind) (k : TokenKind) : Prop := k ∉ A

instance (A : List TokenKind) (k : TokenKind) : Decidable (Avoids A k) :=
  inferInstanceAs (Decidable (k ∉ A))

theorem Avoids.mono {A B : List TokenKind} (h : A ⊆ B) (hk : Avoids B k) : Avoids A k :=
  fun hm => hk (h hm)

theorem Meets.avoids {A B : List TokenKind}
    (h : (∀ k ∈ rowStarts X, Avoids A k) ∧ (rowNullable X = true → A ⊆ B)) :
    Meets X (Avoids B) (Avoids A) := ⟨h.1, fun hn _ hk => hk.mono (h.2 hn)⟩

/-- The tokens that go on with a name, a field, a call or the like. -/
def suffixKinds : List TokenKind := Phrase.starts .suffix

def afterOperand : List TokenKind := [.char '.', .char '[', .string, .byte 123, .char ':']

def afterExpression : List TokenKind := afterOperand ++ binaryKinds

def afterList : List TokenKind := .char ',' :: afterExpression

def afterStatement : List TokenKind := .char '=' :: afterList

def Closes (k : TokenKind) : Prop := k.closes true = true

instance (k : TokenKind) : Decidable (Closes k) :=
  inferInstanceAs (Decidable (k.closes true = true))

end LuaChunk.Compile
