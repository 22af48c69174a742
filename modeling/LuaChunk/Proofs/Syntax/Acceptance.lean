import LuaChunk.Proofs.Syntax.Statements

set_option autoImplicit false

namespace LuaChunk

open Compile Grammar

theorem Lexer.tokenOf_ne_eos {x : Scan.Lexeme} (hx : x.Proper) :
    (tokenOf Keyword.number x).kind ≠ .eos := by
  cases x with
  | eos => exact hx.elim
  | number n => cases n <;> rintro ⟨⟩
  | word s =>
    have hnamed : ∀ r < 23, ∀ k ∈ TokenKind.named[r]?, (Token.ofKind k).kind ≠ .eos := by
      decide +kernel
    have hnumber : Keyword.number s ≤ 23 := by
      by_cases hs : s ∈ Keyword.words
      · exact (show ∀ w ∈ Keyword.words, Keyword.number w ≤ 23 by decide) s hs
      · rw [Keyword.number, List.idxOf?_eq_none_iff.2 hs]
        exact Nat.zero_le _
    simp only [tokenOf]
    split
    · rintro ⟨⟩
    · rename_i r hr
      split
      · rename_i k hk
        exact hnamed r (by omega) k hk
      · rintro ⟨⟩
  | _ => rintro ⟨⟩

theorem Lexer.Reads.proper {input : Bytes} {line : Nat} {ts : List Token}
    (h : Reads Keyword.number input line ts) :
    ∀ t ∈ ts, t.kind ≠ .eos := by
  generalize hn : Keyword.number = numberOf at h
  induction h with
  | eos => nofun
  | token _ hx _ ih =>
    subst hn
    intro t ht
    rcases List.mem_cons.1 ht with rfl | ht
    · exact tokenOf_ne_eos hx
    · exact ih t ht

theorem opened_faces (chunk : Bytes) {source : Bytes} {ts : List Token}
    (hts : tokens? source = some ts) :
    ∃ s, Compile.next (opened chunk source) = .ok () s ∧ s.Faces ts := by
  obtain ⟨l, hl, ht, hr, hf, -⟩ := Lexer.next_yields rfl (opened_yields chunk hts)
  exact ⟨_, onLexer_eq hl, hf, ht, hr, (Lexer.Reads.of_tokensFrom? hts).proper⟩

theorem reading_mainFunction (chunk : Bytes) {source : Bytes} {ts : List Token}
    (hts : tokens? source = some ts) :
    Reading (fun (_ : Unit) j => Derives [.phrase .block] ts j ∧ j = []) Closes (fun _ _ _ => True)
      (mainFunction (initial { chunk } source)) := by
  obtain ⟨s, hs, hfaces⟩ := opened_faces chunk hts
  rw [mainFunction_opened, bind_eq hs]
  refine (((parses_statements (nestedReads maxNesting)).outcome s hfaces).bind
    (E := fun _ j (_ : Unit) k => j = k ∧ k = [])
    (W := fun _ _ _ => True) (fun _ _ j s' _ hs' => ?_) ?_).congr (fun _ _ j _ hd => ?_)
      fun _ j hd _ => ?_
  · by_cases hj : ahead j = .eos
    · have hcheck : check .eos s' = .ok () s' := by
        unfold check
        rw [bind_eq (currentKind_eq hs'), if_neg fun h => h hj]
        rfl
      obtain rfl : j = [] := by
        cases j with
        | nil => rfl
        | cons t j => exact absurd hj (hs'.proper t (List.mem_cons_self ..))
      rw [bind_eq hcheck]
      exact ((ParsesTo.still (m := closeFunction) (F := Closes)).outcome s' hs').congr
        (fun _ _ k _ hd => ⟨(), trivial, ⟨Derives.nil_iff.1 hd, (Derives.nil_iff.1 hd).symm⟩,
          fun _ k' hd' _ =>
          ⟨(), hd'.1 ▸ .nil _, fun _ => rfl⟩⟩) fun _ k hd _ => ⟨(), hd.1 ▸ .nil _⟩
    · have hcheck : Fails (check .eos) s' := by
        unfold check Fails
        rw [bind_eq (currentKind_eq hs'), if_pos hj]
        exact fails_errorExpected ..
      obtain ⟨e, s'', he⟩ := hcheck.bind (f := fun _ => closeFunction)
      rw [he]
      refine .refused fun _ k hd _ => hj ?_
      rw [hd.1, hd.2]
      rfl
  · rintro _ j _ k - ⟨rfl, rfl⟩ hF
    exact hF
  · obtain ⟨_, k, hd, hk, hnil⟩ := hd
    exact ⟨(), trivial, ⟨hk ▸ hd, hnil⟩, fun _ j' hd' _ =>
      ⟨(), ⟨(), j', hd'.1, rfl, hd'.2⟩, fun _ => rfl⟩⟩
  · exact ⟨(), (), j, hd.1, rfl, hd.2⟩

/-- A source of the grammar is compiled or refused for another reason, and no other source is
compiled. -/
theorem compile_grammar (chunk source : Bytes) (ts : List Token) (hts : tokens? source = some ts) :
    (∀ p, compile chunk source = .ok p → Derives [.phrase .block] ts []) ∧
    (Derives [.phrase .block] ts [] → ∀ f, compile chunk source = .error f →
      ∃ e, f = .error e ∧ (e.kind = .limit ∨ e.kind = .semantic ∨ e.kind = .syntactic ∧
        e.message ∈ excused)) := by
  have hread := reading_mainFunction chunk hts
  have hreported : ∀ f, compile chunk source = .error f → ∃ e : CompileError, f = .error e :=
    fun _ => error_of_compile
  unfold compile run at hreported ⊢
  generalize mainFunction (initial { chunk } source) = res at hread hreported
  cases hread with
  | @ok _ s _ j hs _ hd _ => exact ⟨fun _ _ => hd.2 ▸ hd.1, fun _ f hf => nomatch hf⟩
  | @refused e s h =>
    exact ⟨fun p hp => (nomatch hp), fun hd => absurd (rfl : Closes (ahead [])) (h () [] ⟨hd, rfl⟩)⟩
  | @tolerable e s h =>
    refine ⟨fun p hp => (nomatch hp), fun _ f hf => ?_⟩
    obtain ⟨e', rfl⟩ := hreported f hf
    cases hf
    exact ⟨e', rfl, h⟩

theorem openLoop_refused : (match compile (utf8 "a") (utf8 "while true do") with
    | .error (.error e) => e.kind == .syntactic && !excused.contains e.message
    | _ => false) = true := by
  unfold compile run initial Lexer.start
  rw [Interner.reservedIndex_markAll]
  decide +kernel

/-- A loop is a block, and without its end it is none. -/
theorem compile_grammar_loop :
    (∃ ts, tokens? (utf8 "while true do end") = some ts ∧ Derives [.phrase .block] ts []) ∧
    ∃ ts, tokens? (utf8 "while true do") = some ts ∧ ¬ Derives [.phrase .block] ts [] := by
  have hok : (compile (utf8 "a") (utf8 "while true do end")).toOption.isSome = true := by
    unfold compile run initial Lexer.start
    rw [Interner.reservedIndex_markAll]
    decide +kernel
  have hno := openLoop_refused
  have hts : (tokens? (utf8 "while true do end")).isSome = true := by decide +kernel
  have hts' : (tokens? (utf8 "while true do")).isSome = true := by decide +kernel
  obtain ⟨ts, hts⟩ := Option.isSome_iff_exists.1 hts
  obtain ⟨ts', hts'⟩ := Option.isSome_iff_exists.1 hts'
  refine ⟨⟨ts, hts, ?_⟩, ts', hts', fun hd => ?_⟩
  · cases hp : compile (utf8 "a") (utf8 "while true do end") with
    | ok p => exact (compile_grammar (utf8 "a") _ ts hts).1 p hp
    | error f =>
      rw [hp] at hok
      cases hok
  · cases hp : compile (utf8 "a") (utf8 "while true do") with
    | ok p =>
      rw [hp] at hno
      cases hno
    | error f =>
      obtain ⟨e, rfl, hkind⟩ := (compile_grammar (utf8 "a") _ ts' hts').2 hd f hp
      rw [hp] at hno
      simp only [Bool.and_eq_true, beq_iff_eq, Bool.not_eq_true', List.contains_eq_mem,
        decide_eq_false_iff_not] at hno
      rcases hkind with hk | hk | ⟨-, hm⟩
      · rw [hno.1] at hk
        cases hk
      · rw [hno.1] at hk
        cases hk
      · exact hno.2 hm

end LuaChunk
