import Mathlib.Data.List.Basic
import LuaChunk.Project.ModuleName
import LuaChunk.Proofs.Source.Printing

/-!
Module names as names of the language. What `checkedModuleName` accepts is made of letters, digits
and underscores, and is a name that stays as it is, except in one case: an underscore is put before
a digit only if the dependency's own name starts with it, not if characters before the digit are
left out.
-/

set_option autoImplicit false

namespace LuaChunk.Project

open Scan (isNameByte)

/-- A dependency whose first character that stays is a digit, with characters before it that are
left out. -/
def LateDigit (dependency : Bytes) : Prop :=
  ∃ (lost : List Utf8.Rune) (code : Nat) (rest : List Utf8.Rune),
    Utf8.runes dependency = lost ++ .char code :: rest ∧
    lost ≠ [] ∧ (∀ r ∈ lost, modulePart r = []) ∧ isDigit code = true

theorem digit_small {code : Nat} (h : isDigit code = true) : code < 128 := by
  simp only [isDigit, Bool.and_eq_true, decide_eq_true_eq] at h
  omega

theorem letter_small {code : Nat} (h : isLetter code = true) : code < 128 := by
  simp only [isLetter, Bool.or_eq_true, Bool.and_eq_true, decide_eq_true_eq] at h
  omega

theorem modulePart_cases (r : Utf8.Rune) : modulePart r = [] ∨ ∃ b, modulePart r = [b] ∧
    isNameByte b = true ∧
    (Numeral.isDigit b = true ↔ ∃ code, r = .char code ∧ isDigit code = true) := by
  cases r with
  | stray b => exact .inl rfl
  | char code =>
    have hall : ∀ c : Fin 128, (isLetter c.val || isDigit c.val) = true →
        modulePart (.char c.val) = [c.val.toUInt8] ∧ isNameByte c.val.toUInt8 = true ∧
          Numeral.isDigit c.val.toUInt8 = isDigit c.val := by decide
    by_cases hkept : (isLetter code || isDigit code) = true
    · have hsmall : code < 128 := (Bool.or_eq_true _ _ ▸ hkept).elim letter_small digit_small
      obtain ⟨hpart, hname, hdigit⟩ := hall ⟨code, hsmall⟩ hkept
      refine .inr ⟨_, hpart, hname, ?_⟩
      rw [hdigit]
      refine ⟨fun h => ⟨code, rfl, h⟩, ?_⟩
      rintro ⟨_, heq, h⟩
      exact Utf8.Rune.char.inj heq ▸ h
    · have hdigit : ¬∃ c, Utf8.Rune.char code = .char c ∧ isDigit c = true := by
        rintro ⟨_, heq, h⟩
        exact hkept (by rw [Utf8.Rune.char.inj heq, h, Bool.or_true])
      rw [modulePart, if_neg hkept]
      split
      · exact .inr ⟨byte '_', rfl, by decide, iff_of_false (by decide) hdigit⟩
      · exact .inl rfl

theorem modulePart_digit {code : Nat} (h : isDigit code = true) :
    ∃ b, modulePart (.char code) = [b] ∧ Numeral.isDigit b = true := by
  rcases modulePart_cases (.char code) with hnil | ⟨b, hpart, -, hdigit⟩
  · have hne : ∀ c : Fin 128, isDigit c.val = true → modulePart (.char c.val) ≠ [] := by decide
    exact absurd hnil (hne ⟨code, digit_small h⟩ h)
  · exact ⟨b, hpart, hdigit.2 ⟨code, rfl, h⟩⟩

theorem modulePart_name {b : UInt8} (h : isNameByte b = true) :
    b < 0x80 ∧ modulePart (.char b.toNat) = [b] ∧ isDigit b.toNat = Numeral.isDigit b := by
  have hall : ∀ n : Fin 256, isNameByte (UInt8.ofFin n) = true → UInt8.ofFin n < 0x80 ∧
      modulePart (.char (UInt8.ofFin n).toNat) = [UInt8.ofFin n] ∧
        isDigit (UInt8.ofFin n).toNat = Numeral.isDigit (UInt8.ofFin n) := by decide +kernel
  exact hall b.toFin h

theorem isNameByte_of_mem_moduleName {d : Bytes} : ∀ b ∈ moduleName d, isNameByte b = true := by
  intro b hb
  rcases List.mem_append.1 hb with hb | hb
  · split at hb
    · rw [List.mem_singleton.1 hb]
      decide
    · cases hb
  · obtain ⟨r, -, hb⟩ := List.mem_flatMap.1 hb
    rcases modulePart_cases r with hnil | ⟨c, hpart, hname, -⟩
    · rw [hnil] at hb
      cases hb
    · rw [hpart] at hb
      rw [List.mem_singleton.1 hb]
      exact hname

theorem first_kept (rs : List Utf8.Rune) : rs.flatMap modulePart = [] ∨ ∃ lost r rest b,
    rs = lost ++ r :: rest ∧
    (∀ x ∈ lost, modulePart x = []) ∧ modulePart r = [b] ∧
      rs.flatMap modulePart = b :: rest.flatMap modulePart := by
  induction rs with
  | nil => exact .inl rfl
  | cons r rs ih =>
    rw [List.flatMap_cons]
    rcases modulePart_cases r with hnil | ⟨b, hpart, -⟩
    · rw [hnil, List.nil_append]
      refine ih.imp_right ?_
      rintro ⟨lost, x, rest, b, rfl, hlost, hpart, hflat⟩
      exact ⟨r :: lost, x, rest, b, rfl, List.forall_mem_cons.2 ⟨hnil, hlost⟩, hpart, hflat⟩
    · rw [hpart]
      exact .inr ⟨[], r, rs, b, rfl, List.forall_mem_nil _, hpart, rfl⟩

theorem lateDigit_iff (d : Bytes) : LateDigit d ↔ ∃ b, (moduleName d).head? = some b ∧
    Numeral.isDigit b = true := by
  unfold LateDigit moduleName
  dsimp only
  generalize Utf8.runes d = rs
  constructor
  · rintro ⟨lost, code, rest, rfl, hne, hlost, hdigit⟩
    obtain ⟨r, lost, rfl⟩ := List.exists_cons_of_ne_nil hne
    have hstart : startsWithDigit (r :: lost ++ .char code :: rest) = false := by
      cases r with
      | stray b => rfl
      | char c =>
        refine Bool.eq_false_iff.2 fun hc => ?_
        obtain ⟨b, hpart, -⟩ := modulePart_digit hc
        rw [hlost _ List.mem_cons_self] at hpart
        cases hpart
    obtain ⟨b, hpart, hb⟩ := modulePart_digit hdigit
    have hnil : (r :: lost).flatMap modulePart = [] := List.flatMap_eq_nil_iff.2 hlost
    rw [hstart, List.flatMap_append, hnil, List.flatMap_cons, hpart]
    exact ⟨b, rfl, hb⟩
  · rintro ⟨b, hhead, hb⟩
    cases hstart : startsWithDigit rs with
    | true =>
      rw [hstart] at hhead
      cases hhead
      cases hb
    | false =>
      rw [hstart] at hhead
      change (rs.flatMap modulePart).head? = some b at hhead
      rcases first_kept rs with hnil | ⟨lost, r, rest, c, rfl, hlost, hpart, hflat⟩
      · rw [hnil] at hhead
        cases hhead
      · rw [hflat] at hhead
        cases hhead
        rcases modulePart_cases r with hnil | ⟨x, hx, -, hdigit⟩
        · rw [hnil] at hpart
          cases hpart
        · rw [hx] at hpart
          cases hpart
          obtain ⟨code, rfl, hcode⟩ := hdigit.1 hb
          refine ⟨lost, code, rest, rfl, ?_, hlost, hcode⟩
          rintro rfl
          exact Bool.false_ne_true (hstart.symm.trans hcode)

theorem runes_of_ascii {s : Bytes} (h : ∀ b ∈ s, b < 0x80) : Utf8.runes s = s.map fun b =>
    .char b.toNat := by
  induction s with
  | nil => rw [Utf8.runes]; rfl
  | cons b s ih =>
    obtain ⟨hb, hs⟩ := List.forall_mem_cons.1 h
    rw [Utf8.runes, Utf8.first, if_pos hb, ih hs]
    rfl

theorem moduleName_of_ascii {s : Bytes} (h : ∀ b ∈ s, b < 0x80) : moduleName s =
    (if startsWithDigit (s.map fun b => .char b.toNat) then [byte '_'] else []) ++
      (s.map fun b => Utf8.Rune.char b.toNat).flatMap modulePart := by
  rw [moduleName, runes_of_ascii h]

theorem moduleName_eq_self_iff {m : Bytes} (h : ∀ b ∈ m, isNameByte b = true) :
    moduleName m = m ↔ ¬∃ b, m.head? = some b ∧ Numeral.isDigit b = true := by
  have hkept : ∀ b ∈ m, modulePart (.char b.toNat) = [b] :=
    fun b hb => (modulePart_name (h b hb)).2.1
  have hflat : (m.map fun b => Utf8.Rune.char b.toNat).flatMap modulePart = m := by
    rw [List.flatMap_map]
    exact (List.flatMap_congr hkept).trans (List.flatMap_singleton' m)
  have hstart : startsWithDigit (m.map fun b => Utf8.Rune.char b.toNat) = true ↔
      ∃ b, m.head? = some b ∧ Numeral.isDigit b = true := by
    cases m with
    | nil =>
      refine iff_of_false (by decide) ?_
      rintro ⟨b, hb, -⟩
      cases hb
    | cons b m =>
      have hb := (modulePart_name (h b List.mem_cons_self)).2.2
      show isDigit b.toNat = true ↔ _
      rw [hb]
      refine ⟨fun hd => ⟨b, rfl, hd⟩, ?_⟩
      rintro ⟨c, hc, hd⟩
      exact Option.some.inj hc ▸ hd
  rw [moduleName_of_ascii fun b hb => (modulePart_name (h b hb)).1, hflat, ← hstart]
  split
  · exact iff_of_false (List.cons_ne_self _ _) (not_not_intro ‹_›)
  · exact iff_of_true rfl ‹_›

end LuaChunk.Project

namespace LuaChunk

theorem name_of_tokenOf {numberOf : Bytes → Nat} {s name : Bytes} (hne : name ≠ [])
    (h : Lexer.tokenOf numberOf (.word s) = .name name) : s = name := by
  simp only [Lexer.tokenOf] at h
  split at h
  · exact Token.name.inj h
  split at h
  · rename_i k _
    cases k <;> cases h
    exact absurd rfl hne
  · exact Token.name.inj h

theorem tokens?_name {s : Bytes} (h : IsName s) : tokens? s = some [.name s] ↔
    s.length ≤ maxTokenSize := by
  obtain ⟨b, t, rfl⟩ := List.exists_cons_of_ne_nil (l := s)
    (by rintro rfl; obtain ⟨⟨b, hb, -⟩, -⟩ := h; cases hb)
  have hclear : Clear [] := fun b hb => by cases hb
  constructor
  · intro ht
    have hreads := Lexer.Reads.of_tokensFrom? ht
    generalize hts : [Token.name (b :: t)] = ts at hreads
    cases hreads with
    | eos => cases hts
    | @token _ _ x c ts hs _ _ =>
      have hletter : Scan.isLetter b = true := by
        obtain ⟨⟨c, hc, hletter⟩, -⟩ := h
        exact Option.some.inj hc ▸ hletter
      have hstart := (Word.name (b :: t) h).startsToken hclear
      rw [show (Word.name (b :: t) h).text ++ [] = b :: t from List.append_nil _] at hstart
      change Reader.placed (Reader.on (b :: t) 1 []).next = _ at hs
      rw [Reader.next_token hstart, Reader.lexeme_letter hletter] at hs
      cases hsave : Reader.saveWhile Scan.isNameByte 0 (Reader.on (b :: t) 1 []) with
      | error e =>
        rw [hsave] at hs
        cases hs
      | ok p =>
        rw [hsave] at hs
        cases hs
        have hsize : p.2.text.length ≤ maxTokenSize := Reader.size_saveWhile hsave (Nat.zero_le _)
        rw [name_of_tokenOf (List.cons_ne_nil _ _) (List.cons.inj hts).1.symm] at hsize
        exact hsize
  · intro hlen
    have hword := (Reader.scan_word [] (.name (b :: t) h) hclear 1 fun (_ : True) =>
      ⟨⟨List.forall_mem_nil _, hlen⟩, show 1 + 0 < maxLines by decide⟩).eq trivial
    rw [List.append_nil] at hword
    have hscan : Reader.scan (b :: t) 1 = .ok (.word (b :: t), ⟨[], 1⟩) := hword
    have htoken : Lexer.tokenOf Keyword.number (.word (b :: t)) = .name (b :: t) :=
      (Word.name (b :: t) h).tokenOf_lexeme
    unfold tokens? Lexer.tokensFrom?
    rw [hscan]
    dsimp only
    rw [List.length_cons, Lexer.tokensFrom?, Reader.scan_nil, htoken]
    rfl

theorem not_name_of_digit {b : UInt8} {s : Bytes} (hb : Numeral.isDigit b = true) (name : Bytes) :
    tokens? (b :: s) ≠ some [.name name] := by
  intro h
  have hreads := Lexer.Reads.of_tokensFrom? h
  generalize hts : [Token.name name] = ts at hreads
  cases hreads with
  | eos => cases hts
  | @token _ _ x c ts hs _ _ =>
    have hx : Lexer.tokenOf Keyword.number x = .name name := (List.cons.inj hts).1.symm
    have hblank : Text.isBlank b = false := by
      cases h : Text.isBlank b with
      | false => rfl
      | true => exact absurd (isDigit_of_isBlank h) (ne_false_of_eq_true hb)
    have hstart : StartsToken (b :: s) := by
      refine ⟨fun c hc => Option.some.inj hc ▸ hblank, ?_⟩
      show Bytes.dropPrefix? [byte '-', byte '-'] (b :: s) = none
      rw [Bytes.dropPrefix?, if_neg (ne_of_isDigit hb (by decide)).symm]
    replace hs := Reader.scan_eq_of_ok hs
    unfold Scan.scan at hs
    rw [skip_startsToken hstart] at hs
    dsimp only at hs
    rw [lexeme_digit _ hb, Scan.numeral] at hs
    split at hs
    split at hs
    · rename_i n _
      cases hs
      cases n <;> cases hx
    · cases hs

end LuaChunk

namespace LuaChunk.Project

theorem checkedModuleName_eq_ok {d m : Bytes} :
    checkedModuleName d = .ok m ↔ moduleName d ≠ [] ∧ Keyword.isReserved (moduleName d) = false ∧
      moduleName d = m := by
  unfold checkedModuleName
  dsimp only
  split
  · rename_i h
    exact iff_of_false (fun hm => by cases hm) fun hm => hm.1 (List.isEmpty_iff.1 h)
  · rename_i h
    split
    · rename_i hreserved
      exact iff_of_false (fun hm => by cases hm) fun hm =>
        absurd hm.2.1 (ne_false_of_eq_true hreserved)
    · rename_i hreserved
      rw [Except.ok.injEq]
      exact ⟨fun hm => ⟨fun hnil => h (hnil ▸ rfl), Bool.eq_false_iff.2 hreserved, hm⟩,
        fun hm => hm.2.2⟩

theorem not_digit_iff_isName {m : Bytes} (hne : m ≠ []) (hall : ∀ b ∈ m, Scan.isNameByte b = true)
    (hreserved : Keyword.isReserved m = false) :
    (¬∃ b, m.head? = some b ∧ Numeral.isDigit b = true) ↔ IsName m := by
  obtain ⟨b, s, rfl⟩ := List.exists_cons_of_ne_nil hne
  constructor
  · intro h
    refine ⟨⟨b, rfl, ?_⟩, hall, hreserved⟩
    exact (Bool.or_eq_true_iff.1 (hall b List.mem_cons_self)).resolve_right fun hb => h ⟨b, rfl, hb⟩
  · rintro ⟨⟨c, hc, hletter⟩, -⟩ ⟨x, hx, hdigit⟩
    cases hc
    cases hx
    exact absurd (isDigit_of_isLetter hletter) (ne_false_of_eq_true hdigit)

/-- What is accepted is made of the bytes of names, is not empty and not reserved. It is a name, and
the module name of itself, exactly if it starts with no digit; and it starts with a digit exactly if
characters are left out before one. A name is one token unless it is too long for any. -/
theorem checkedModuleName_name {d m : Bytes} (h : checkedModuleName d = .ok m) :
    (m ≠ [] ∧ (∀ b ∈ m, Scan.isNameByte b = true) ∧ Keyword.isReserved m = false) ∧
      (LateDigit d ↔ ∃ b, m.head? = some b ∧ Numeral.isDigit b = true) ∧
      (¬LateDigit d ↔ IsName m) ∧
        (tokens? m = some [.name m] ↔ ¬LateDigit d ∧ m.length ≤ maxTokenSize) ∧
      (¬LateDigit d ↔ moduleName m = m) ∧ (¬LateDigit d ↔ checkedModuleName m = .ok m) := by
  obtain ⟨hne, hreserved, rfl⟩ := checkedModuleName_eq_ok.1 h
  have hall : ∀ b ∈ moduleName d, Scan.isNameByte b = true := isNameByte_of_mem_moduleName
  have hlate := lateDigit_iff d
  have hsame : ¬LateDigit d ↔ moduleName (moduleName d) = moduleName d := by
    rw [hlate, moduleName_eq_self_iff hall]
  have hname : ¬LateDigit d ↔ IsName (moduleName d) := by
    rw [hlate]
    exact not_digit_iff_isName hne hall hreserved
  refine ⟨⟨hne, hall, hreserved⟩, hlate, hname, ?_, hsame, ?_⟩
  · refine ⟨fun ht => ?_, fun hm => (tokens?_name (hname.1 hm.1)).2 hm.2⟩
    have hdigit : ¬∃ b, (moduleName d).head? = some b ∧ Numeral.isDigit b = true := by
      rintro ⟨b, hb, hdigit⟩
      obtain ⟨s, hs⟩ := List.head?_eq_some_iff.1 hb
      rw [hs] at ht
      exact not_name_of_digit hdigit _ ht
    have hisName := (not_digit_iff_isName hne hall hreserved).1 hdigit
    exact ⟨hname.2 hisName, (tokens?_name hisName).1 ht⟩
  · rw [hsame, checkedModuleName_eq_ok]
    refine ⟨fun heq => ?_, fun hm => hm.2.2⟩
    rw [heq]
    exact ⟨hne, hreserved, rfl⟩

/-- A name whose first character is kept, with characters that become underscores and one that is
left out. -/
theorem checkedModuleName_name_kept :
    checkedModuleName (utf8 "2d-physics+ .x") = .ok (utf8 "_2d_physics__x") ∧
    ¬LateDigit (utf8 "2d-physics+ .x") ∧
      tokens? (utf8 "_2d_physics__x") = some [.name (utf8 "_2d_physics__x")] := by
  have hname : moduleName (utf8 "2d-physics+ .x") = utf8 "_2d_physics__x" := by
    rw [moduleName_of_ascii (by decide +kernel)]
    decide
  have h : checkedModuleName (utf8 "2d-physics+ .x") = .ok (utf8 "_2d_physics__x") :=
    checkedModuleName_eq_ok.2 ⟨by rw [hname]; decide, by rw [hname]; decide +kernel, hname⟩
  obtain ⟨-, hlate, -, htokens, -⟩ := checkedModuleName_name h
  have hkept : ¬LateDigit (utf8 "2d-physics+ .x") := by
    rw [hlate]
    rintro ⟨b, hb, hdigit⟩
    cases hb
    revert hdigit
    decide
  exact ⟨h, hkept, htokens.2 ⟨hkept, by decide⟩⟩

/-- A character that is left out before a digit: what is accepted starts with the digit. -/
theorem checkedModuleName_not_name : ¬∀ d m : Bytes, checkedModuleName d = .ok m →
    IsName m ∧ tokens? m = some [.name m] ∧ moduleName m = m := by
  intro h
  have hname : moduleName (utf8 "+2d") = utf8 "2d" := by
    rw [moduleName_of_ascii (by decide +kernel)]
    decide
  have hlate : checkedModuleName (utf8 "+2d") = .ok (utf8 "2d") :=
    checkedModuleName_eq_ok.2 ⟨by rw [hname]; decide, by rw [hname]; decide +kernel, hname⟩
  obtain ⟨⟨⟨b, hb, hletter⟩, -⟩, -⟩ := h _ _ hlate
  cases hb
  revert hletter
  decide

end LuaChunk.Project
