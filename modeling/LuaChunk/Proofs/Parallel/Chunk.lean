import LuaChunk.Proofs.Compile.Chunk
import LuaChunk.Proofs.Parallel.Statement

set_option autoImplicit false

namespace LuaChunk

namespace Compile

variable {ρ : Renaming} {α : Type} {chunk chunk' source source' : Bytes} {ts ts' : List Token}

instance follows_tooDeep {K : Like α} : Follows ρ K (tooDeep : M α) tooDeep := by
  unfold tooDeep
  infer_instance

theorem follows_enterLevel : Follows ρ .same enterLevel enterLevel :=
  .modify (fun _ => .of_eq rfl rfl) (fun _ => .of_eq rfl rfl) fun _ _ h => { h with }

theorem follows_leaveLevel : Follows ρ .same leaveLevel leaveLevel :=
  .modify (fun _ => .of_eq rfl rfl) (fun _ => .of_eq rfl rfl) fun _ _ h => { h with }

theorem follows_metered {m m' : M α} (h : ∀ ρ, Follows ρ .same m m') : Follows ρ .same (metered m)
    (metered m') :=
  follows_enterLevel.seq fun _ => (h ρ).seq fun a => follows_leaveLevel.seq fun _ => .pureSame a

instance nested_follows (n : Nat) : NestedFollows (nested n) := by
  induction n with
  | zero =>
    exact {
      subExpr := fun _ _ => follows_tooDeep
      statement := fun _ => follows_tooDeep
      assign := fun _ _ _ => follows_tooDeep
      initGlobals := fun _ _ _ _ _ => follows_tooDeep }
  | succ n ih =>
    exact {
      subExpr := fun _ limit => follows_metered fun _ => follows_subExpression (nested n) limit
      statement := fun _ => follows_metered fun _ => follows_statement (nested n)
      assign :=
        fun _ target earlier => follows_metered fun _ =>
          follows_assignRest (nested n) target earlier
      initGlobals :=
        fun _ count line line' names => follows_metered fun _ =>
          follows_initGlobals (nested n) count line line' names }

instance follows_addUpvalue (u : Upvalue) : Follows ρ .same (addUpvalue u) (addUpvalue u) :=
  ⟨evolving_addUpvalue u, evolving_addUpvalue u, fun _ _ ht => agrees_addUpvalue ht rfl⟩

instance follows_mainFunction : Follows ρ .same mainFunction mainFunction := by
  unfold mainFunction
  exact .seq inferInstance fun _ => .seq inferInstance fun _ => .seq inferInstance fun _ =>
    inferInstance

theorem twin_initial (chunk chunk' : Bytes) (h : tokens? source = some ts)
    (h' : tokens? source' = some ts') (hfit : ρ.FitsFrom 1 ts ts') :
    Twin ρ (initial { chunk } source) (initial { chunk := chunk' } source') where
  lexer := {
    failure := rfl
    failure' := rfl
    numberOf := rfl
    number := rfl
    token := rfl
    rest := by
      have hreads : ∀ {chunk source : Bytes} {ts : List Token}, tokens? source = some ts →
          (initial { chunk } source).lexer.Yields ts := by
        intro chunk source ts h
        unfold tokens? at h
        dsimp only [Lexer.Yields, initial, Lexer.start]
        rw [Interner.reservedIndex_markAll]
        exact .of_tokensFrom? h
      exact ⟨ts, ts', hreads h, hreads h', hfit⟩ }
  fn := rfl
  outer := rfl
  vars := ⟨rfl, fun i v v' hv => by simp [initial] at hv⟩
  labels := rfl
  gotos := rfl
  items := rfl
  distinct f hf i j u w hu := by
    obtain rfl := List.mem_singleton.1 hf
    simp [initial, Builder.start] at hu

theorem dated_run (chunk source : Bytes) :
    (final (mainFunction (initial { chunk } source))).lexer.Dated := by
  refine ((follows_mainFunction (ρ := .none)).evolving _).lexer.dated
    ⟨fun e he => ?_, fun e he => ?_⟩ <;>
    simp [initial, Lexer.start] at he

end Compile

open Compile

/-- Both sources compile to functions with the same bytes, or both fail with errors of one kind. -/
inductive SameOutcome : (r r' : Except Failure Prototype) → Prop
  | ok {p p' : Prototype} (h : p'.serialize = p.serialize) : SameOutcome (.ok p) (.ok p')
  | error {e e' : CompileError} (h : e'.kind = e.kind) : SameOutcome (.error (.error e))
    (.error (.error e'))

variable {ρ : Renaming} {chunk chunk' source source' : Bytes} {ts ts' : List Token}

theorem bindings_run (chunk source : Bytes) :
    (run { chunk } source).bindings =
      (final (mainFunction (initial { chunk } source))).lexer.bindings := by
  unfold run
  cases mainFunction (initial { chunk } source) <;> rfl

/-- A compilation breaks no assertion and takes no wrong turn, so it is lost only if the renaming is
not its own. -/
theorem not_lost (h : ρ.Consistent (run { chunk } source).bindings) :
    ¬ Lost ρ (mainFunction (initial { chunk } source)) := by
  have hs := run_sound (o := { chunk }) rfl (Int.le_refl _) source
  have hstrayed := hs.lexical
  have hreported := hs.reported
  unfold run at h hstrayed hreported
  cases hm : mainFunction (initial { chunk } source) with
  | ok a t =>
    rw [hm] at h hstrayed
    rintro (hl | hl)
    · rw [final] at hl
      exact absurd hl (by simpa using hstrayed)
    · exact hl h
  | error f t =>
    rw [hm] at h hstrayed hreported
    cases f with
    | broken a => exact (hreported _ rfl).elim
    | read m => exact (hreported _ rfl).elim
    | error e =>
      rintro (hl | hl)
      · rw [final] at hl
        exact absurd hl (by simpa using hstrayed)
      · exact hl h

theorem serialize_of_bare {p q : Prototype} (h : q.bare = p.bare) : q.serialize = p.serialize := by
  unfold Prototype.serialize
  rw [Serial.prototype_congr q p
    (Prototype.seen_of_program Serial.lowByte q p (Prototype.program_of_bare h))]

/-- Sources whose tokens differ by a renaming have the same outcome, if what is renamed is what the
first compilation finds to stand for the renamed variable. -/
theorem sameOutcome_of_fits (h : tokens? source = some ts) (h' : tokens? source' = some ts')
    (hfit : ρ.FitsFrom 1 ts ts') (hcons : ρ.Consistent (run { chunk } source).bindings) :
    SameOutcome (compile chunk source) (compile chunk' source') := by
  have htwin := twin_initial chunk chunk' h h' hfit
  have hboth := (follows_mainFunction (ρ := ρ)).agrees _ _ htwin (not_lost hcons)
    (not_lost (Renaming.consistent_none _))
  unfold compile run
  generalize mainFunction (initial { chunk } source) = r at hboth
  generalize mainFunction (initial { chunk := chunk' } source') = r' at hboth
  cases hboth with
  | ok ha ht => exact .ok (serialize_of_bare (bare_prototype ht.fn _ _))
  | error hk => exact .error hk

theorem fitsFrom_bare {k : Nat} (h : ts'.map Token.bare = ts.map Token.bare) :
    Renaming.none.FitsFrom k ts ts' := by
  induction ts generalizing k ts' with
  | nil =>
    obtain rfl := List.map_eq_nil_iff.1 h
    trivial
  | cons t ts ih =>
    obtain ⟨t', ts', rfl, ht, hts⟩ :=
      List.map_eq_cons_iff.1 (show ts'.map Token.bare = t.bare :: ts.map Token.bare from h)
    refine ⟨?_, ih hts⟩
    cases t <;> cases t' <;> first | exact ht | skip
    cases ht
    exact ⟨False.elim, fun _ => ⟨rfl, fun h => by cases h⟩⟩

/-- The tokens from number `k` on, where the names that stand for the variable declared by token `d`
are new. -/
def renameFrom (bindings : Array (Nat × Option Nat)) (d : Nat) (new : Bytes) : (k : Nat) →
    List Token → List Token
  | _, [] => []
  | k, .name x :: ts =>
    (if (k, some d) ∈ bindings then .name new else .name x) :: renameFrom bindings d new (k + 1) ts
  | k, t :: ts => t :: renameFrom bindings d new (k + 1) ts

theorem mem_renameFrom {bindings : Array (Nat × Option Nat)} {d k i : Nat} {old new : Bytes}
    (hi : ts[i]? = some (.name old)) (hb : (k + i, some d) ∈ bindings) :
    Token.name new ∈ renameFrom bindings d new k ts := by
  induction ts generalizing k i with
  | nil => cases hi
  | cons t ts ih =>
    cases i with
    | zero =>
      cases hi
      rw [renameFrom, if_pos (show (k, some d) ∈ bindings from hb)]
      exact List.mem_cons_self ..
    | succ i =>
      have hrest := ih (k := k + 1) (i := i) hi (by rwa [Nat.add_right_comm, Nat.add_assoc])
      cases t <;> exact List.mem_cons_of_mem _ hrest

theorem eq_of_bare_name {t : Token} {x : Bytes} (h : t.bare = .name x) : t = .name x := by
  cases t <;> cases h
  rfl

theorem fitsFrom_rename {bindings : Array (Nat × Option Nat)} {d k : Nat}
    (hd : ρ.declaration = some d)
    (hhits : ∀ n, ρ.hits n ↔ (n, some d) ∈ bindings)
    (hold : ∀ i x, ts[i]? = some (.name x) → k + i = d → x = ρ.old)
    (hnew : Token.name ρ.new ∉ ts)
    (h : ts'.map Token.bare = (renameFrom bindings d ρ.new k ts).map Token.bare) :
    ρ.FitsFrom k ts ts' := by
  induction ts generalizing k ts' with
  | nil =>
    obtain rfl := List.map_eq_nil_iff.1 h
    trivial
  | cons t ts ih =>
    have hrest : ∀ {ts'}, ts'.map Token.bare = (renameFrom bindings d ρ.new (k + 1) ts).map
        Token.bare →
        ρ.FitsFrom (k + 1) ts ts' := fun h =>
      ih (fun i x hx hi => hold (i + 1) x hx (by omega))
        (fun hm => hnew (List.mem_cons_of_mem _ hm)) h
    cases t with
    | name x =>
      obtain ⟨t', ts', rfl, ht, hts⟩ := List.map_eq_cons_iff.1 h
      refine ⟨?_, hrest hts⟩
      by_cases hk : (k, some d) ∈ bindings
      · rw [if_pos hk] at ht
        rw [eq_of_bare_name ht]
        refine ⟨fun _ => ⟨rfl, fun hdecl => hold 0 x rfl ?_⟩, fun hn => (hn ((hhits k).2 hk)).elim⟩
        exact Option.some.inj (hdecl.symm.trans hd)
      · rw [if_neg hk] at ht
        rw [eq_of_bare_name ht]
        exact ⟨fun hn => (hk ((hhits k).1 hn)).elim,
          fun _ => ⟨rfl, fun _ he => hnew (he ▸ List.mem_cons_self ..)⟩⟩
    | _ =>
      obtain ⟨t', ts', rfl, ht, hts⟩ := List.map_eq_cons_iff.1 h
      exact ⟨ht, hrest hts⟩

/-- The second source is the first one with a new name for a local variable, which token `i`
declares. -/
structure Renames (bindings : Array (Nat × Option Nat)) (i : Nat) (old new : Bytes)
    (ts ts' : List Token) : Prop where
  declared : (i + 1, some (i + 1)) ∈ bindings
  name : ts[i]? = some (.name old)
  notEnv : old ≠ envName
  fresh : Token.name new ∉ ts
  newNotSelf : new ≠ utf8 "self"
  newNotEnv : new ≠ envName
  tokens : ts'.map Token.bare = (renameFrom bindings (i + 1) new 1 ts).map Token.bare

namespace Renames

variable {bindings : Array (Nat × Option Nat)} {i : Nat} {old new : Bytes}

theorem isName (hr : Renames bindings i old new ts ts') (h' : tokens? source' = some ts') :
    ∀ b ∈ new, Scan.isNameByte b = true := by
  have hmem : (Token.name new).bare ∈ ts'.map Token.bare := by
    rw [hr.tokens]
    exact List.mem_map_of_mem (mem_renameFrom hr.name (by rw [Nat.add_comm]; exact hr.declared))
  obtain ⟨t, ht, hb⟩ := List.mem_map.1 hmem
  rw [eq_of_bare_name hb] at ht
  exact (Lexer.Reads.of_tokensFrom? h').name ht

theorem newNotState (hr : Renames bindings i old new ts ts') (h' : tokens? source' = some ts') :
    new ≠ utf8 loopStateName := by
  rintro rfl
  have hparen : (40 : UInt8) ∈ utf8 loopStateName := by decide
  exact absurd (hr.isName h' 40 hparen) (by decide)

def toRenaming (hr : Renames bindings i old new ts ts') (h' : tokens? source' = some ts') :
    Renaming where
  hits k := (k, some (i + 1)) ∈ bindings
  declaration := some (i + 1)
  old := old
  new := new
  fresh _ := ⟨hr.notEnv, hr.newNotEnv, hr.newNotSelf, hr.newNotState h'⟩

theorem fits (hr : Renames bindings i old new ts ts') (h' : tokens? source' = some ts') :
    (hr.toRenaming h').FitsFrom 1 ts ts' := by
  refine fitsFrom_rename (ρ := hr.toRenaming h') rfl (fun _ => Iff.rfl) (fun j x hx hj => ?_)
    hr.fresh hr.tokens
  obtain rfl : j = i := by omega
  exact Token.name.inj (Option.some.inj (hx.symm.trans hr.name))

theorem consistent (hr : Renames (run { chunk } source).bindings i old new ts ts')
    (h' : tokens? source' = some ts') :
    (hr.toRenaming h').Consistent (run { chunk } source).bindings := by
  rintro ⟨k, d⟩ he
  constructor
  · intro hk
    replace hk : (k, some (i + 1)) ∈ (run { chunk } source).bindings := hk
    rw [bindings_run] at hk he
    cases (dated_run chunk source).once _ he _ hk rfl
    exact ⟨rfl, rfl⟩
  · rintro ⟨-, rfl⟩
    exact he

end Renames

/-- What a compilation yields depends on the values of the tokens only, and not on the name of a
local variable. -/
theorem compile_ignores_layout_and_names :
    (∀ (chunk chunk' source source' : Bytes) (ts ts' : List Token), tokens? source = some ts →
    tokens? source' = some ts' →
      ts'.map Token.bare = ts.map Token.bare →
        SameOutcome (compile chunk source) (compile chunk' source')) ∧
    ∀ (chunk chunk' source source' : Bytes) (ts ts' : List Token) (i : Nat) (old new : Bytes),
      tokens? source = some ts → tokens? source' = some ts' →
      Renames (run { chunk } source).bindings i old new ts ts' →
        SameOutcome (compile chunk source) (compile chunk' source') :=
  ⟨fun _ _ _ _ _ _ h h' hb =>
    sameOutcome_of_fits h h' (fitsFrom_bare hb) (Renaming.consistent_none _),
    fun _ _ _ _ _ _ _ _ _ h h' hr => sameOutcome_of_fits h h' (hr.fits h') (hr.consistent h')⟩

/-- A local variable with a number, which is returned. -/
def sampleTokens (name raw : Bytes) : List Token :=
  [.word .local_, .name name, .byte (byte '='), .integer 1 raw, .byte (byte ';'), .word .return_,
    .name name]

theorem tokens_sample : tokens? (utf8 "local x = 1; return x") =
    some (sampleTokens (utf8 "x") (utf8 "1")) := by
  decide +kernel

theorem tokens_spread_sample :
    tokens? (utf8 "local x\r\n = 0x1 -- one\n; return x") =
      some (sampleTokens (utf8 "x") (utf8 "0x1")) := by
  decide +kernel

theorem tokens_renamed_sample :
    tokens? (utf8 "local y = 1; return y") = some (sampleTokens (utf8 "y") (utf8 "1")) := by
  decide +kernel

theorem bindings_sample :
    (run { chunk := utf8 "a" } (utf8 "local x = 1; return x")).bindings =
      #[(2, some 2), (7, some 2)] := by
  rw [bindings_run]
  unfold initial Lexer.start
  rw [Interner.reservedIndex_markAll]
  decide +kernel

theorem compile_spread_and_renamed_sample :
    SameOutcome (compile (utf8 "a") (utf8 "local x = 1; return x"))
        (compile (utf8 "b") (utf8 "local x\r\n = 0x1 -- one\n; return x")) ∧
      SameOutcome (compile (utf8 "a") (utf8 "local x = 1; return x"))
        (compile (utf8 "b") (utf8 "local y = 1; return y")) := by
  refine ⟨compile_ignores_layout_and_names.1 _ _ _ _ _ _ tokens_sample tokens_spread_sample rfl,
    compile_ignores_layout_and_names.2 _ _ _ _ _ _ 1 (utf8 "x") (utf8 "y") tokens_sample
      tokens_renamed_sample ?_⟩
  rw [bindings_sample]
  exact {
    declared := by simp
    name := rfl
    notEnv := by decide
    fresh := by simp [sampleTokens, show utf8 "y" ≠ utf8 "x" by decide]
    newNotSelf := by decide
    newNotEnv := by decide
    tokens := by simp [sampleTokens, renameFrom, Token.bare] }

end LuaChunk
