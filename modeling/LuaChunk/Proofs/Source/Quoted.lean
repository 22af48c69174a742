import LuaChunk.Proofs.Source.Words

set_option autoImplicit false

namespace LuaChunk

open Scan (isNewline)
open Numeral (isDigit isHexDigit ofDigits ofHexDigits)

/-- The letters that stand for a byte after a backslash, with the byte. -/
def simpleEscapes : List (UInt8 × UInt8) :=
  [(byte 'a', 7), (byte 'b', 8), (byte 'f', 12), (byte 'n', 10), (byte 'r', 13), (byte 't', 9),
    (byte 'v', 11),
    (byte '\\', byte '\\'), (byte '"', byte '"'), (39, 39)]

inductive Escape where
  | simple (letter value : UInt8) (h : (letter, value) ∈ simpleEscapes)
  | hex (high low : UInt8) (h : isHexDigit high = true ∧ isHexDigit low = true)
  | decimal (first : UInt8) (more : Bytes)
    (h : (∀ b ∈ first :: more, isDigit b = true) ∧ more.length ≤ 2 ∧ ofDigits (first :: more) ≤ 255)
  | code (first : UInt8) (more : Bytes)
    (h : (∀ b ∈ first :: more, isHexDigit b = true) ∧ ofHexDigits (first :: more) < 2 ^ 31)
  | newline (n : Newline)
  | skip (run : Bytes) (h : ∀ b ∈ run, Text.isBlank b = true)

namespace Escape

def body : Escape → Bytes
  | .simple letter _ _ => [letter]
  | .hex high low _ => [byte 'x', high, low]
  | .decimal first more _ => first :: more
  | .code first more _ => [byte 'u', 123] ++ (first :: more) ++ [125]
  | .newline n => n.text
  | .skip run _ => byte 'z' :: run

def bytes : Escape → Bytes
  | .simple _ value _ => [value]
  | .hex high low _ => [(ofHexDigits [high, low]).toUInt8]
  | .decimal first more _ => [(ofDigits (first :: more)).toUInt8]
  | .code first more _ => Utf8.encode (ofHexDigits (first :: more))
  | .newline _ => [10]
  | .skip _ _ => []

/-- How many newlines there are in it. -/
def lines : Escape → Nat
  | .newline _ => 1
  | .skip run _ => newlines run
  | _ => 0

/-- The room that the escape takes in the buffer of a reader while it is read. -/
def room : Escape → Nat
  | .hex _ _ _ => 3
  | .decimal _ more _ => more.length + 2
  | .code _ more _ => more.length + 4
  | _ => 1

/-- Whether an escape ends where a text starts: it is not continued by it. -/
def EndsAt : Escape → Bytes → Prop
  | .decimal _ more _, s => more.length < 2 → ∀ b, s.head? = some b → isDigit b = false
  | .newline .lf, s => s.head? ≠ some 13
  | .newline .cr, s => s.head? ≠ some 10
  | .skip _ _, s => ∀ b, s.head? = some b → Text.isBlank b = false
  | _, _ => True

variable {s t bytes : Bytes} {b c : UInt8} {line : Nat} {place : Scan.Cursor}

theorem simpleEscape?_mem {p : UInt8 × UInt8} (h : p ∈ simpleEscapes) :
    Scan.simpleEscape? p.1 = some p.2 := by
  have hall : simpleEscapes.all (fun p => Scan.simpleEscape? p.1 == some p.2) = true := by decide
  exact eq_of_beq (List.all_eq_true.1 hall p h)

theorem mem_simpleEscapes (h : Scan.simpleEscape? b = some c) : (b, c) ∈ simpleEscapes := by
  have hall : ∀ n < 256, (Scan.simpleEscape? (UInt8.ofNat n)).all
      (fun v => simpleEscapes.contains (UInt8.ofNat n, v)) = true := by decide +kernel
  have := hall b.toNat b.toNat_lt
  rw [UInt8.ofNat_toNat, h] at this
  exact List.contains_iff_mem.1 this

theorem afterNewline_cases (b : UInt8) (s : Bytes) :
    Scan.afterNewline b s = s ∨ ∃ c, s = c :: Scan.afterNewline b s ∧ isNewline c = true ∧
      c ≠ b := by
  cases s with
  | nil => exact .inl rfl
  | cons c s =>
    by_cases h : (isNewline c && c != b) = true
    · simp only [Scan.afterNewline, if_pos h]
      simp only [Bool.and_eq_true, bne_iff_ne] at h
      exact .inr ⟨c, rfl, h⟩
    · exact .inl (if_neg h)

theorem afterNewline_eq (hb : ∀ d, isNewline d = true → d ≠ b → d = c) (hs : s.head? ≠ some c) :
    Scan.afterNewline b s = s := by
  refine (afterNewline_cases b s).resolve_right ?_
  rintro ⟨d, heq, hd, hne⟩
  rw [heq, List.head?_cons, hb d hd hne] at hs
  exact hs rfl

theorem skipBlanks_run {run : Bytes} (h : ∀ b ∈ run, Text.isBlank b = true)
    (hs : ∀ b, s.head? = some b → Text.isBlank b = false) (line : Nat) :
    Scan.skipBlanks (run ++ s) line = ⟨s, line + newlines run⟩ := by
  have hplain : StartsPlain s := fun b hb => by
    cases hn : isNewline b with
    | false => rfl
    | true => exact absurd (isBlank_of_isNewline hn) (by simp [hs b hb])
  induction hlen : run.length using Nat.strongRecOn generalizing run line with
  | ind n ih =>
    cases run with
    | nil =>
      cases s with
      | nil => unfold Scan.skipBlanks; rfl
      | cons b s =>
        rw [List.nil_append]
        unfold Scan.skipBlanks
        rw [if_neg (by simp [hplain b rfl]), if_neg (by simp [hs b rfl])]
        rfl
    | cons b run =>
      rw [List.cons_append]
      unfold Scan.skipBlanks
      cases hn : isNewline b with
      | true =>
        have hle := Scan.length_afterNewline_le b run
        simp only [List.length_cons] at hlen
        have hrest : ∀ c ∈ Scan.afterNewline b run, Text.isBlank c = true := by
          intro c hc
          rcases afterNewline_cases b run with heq | ⟨d, heq, -⟩
          · exact h c (List.mem_cons_of_mem _ (heq ▸ hc))
          · exact h c (List.mem_cons_of_mem _ (heq ▸ List.mem_cons_of_mem _ hc))
        rw [if_pos rfl, afterNewline_append hplain,
          ih (Scan.afterNewline b run).length (by omega) hrest _ rfl,
          newlines_cons_newline _ hn, Nat.add_assoc, Nat.add_comm 1]
      | false =>
        rw [if_neg Bool.false_ne_true, if_pos (h b List.mem_cons_self), newlines_cons_plain _ hn]
        exact ih run.length (by simp only [List.length_cons] at hlen; omega)
          (fun c hc => h c (List.mem_cons_of_mem _ hc)) line rfl

theorem exists_run (s : Bytes) (line : Nat) : ∃ run, s = run ++ (Scan.skipBlanks s line).rest ∧
    (∀ b ∈ run, Text.isBlank b = true) ∧ ∀ b, (Scan.skipBlanks s line).rest.head? = some b →
      Text.isBlank b = false := by
  fun_induction Scan.skipBlanks s line with
  | case1 line => exact ⟨[], rfl, by simp, by simp⟩
  | case2 line b rest hn ih =>
    obtain ⟨run, hsplit, hrun, hend⟩ := ih
    have hb := isBlank_of_isNewline hn
    rcases afterNewline_cases b rest with heq | ⟨c, heq, hc, -⟩
    · rw [heq] at hsplit hend ⊢
      exact ⟨b :: run, congrArg (b :: ·) hsplit, List.forall_mem_cons.2 ⟨hb, hrun⟩, hend⟩
    · refine ⟨b :: c :: run, ?_,
        List.forall_mem_cons.2 ⟨hb, List.forall_mem_cons.2 ⟨isBlank_of_isNewline hc, hrun⟩⟩, hend⟩
      rw [List.cons_append, List.cons_append, ← hsplit, ← heq]
  | case3 line b rest hn hb ih =>
    obtain ⟨run, hsplit, hrun, hend⟩ := ih
    exact ⟨b :: run, congrArg (b :: ·) hsplit, List.forall_mem_cons.2 ⟨hb, hrun⟩, hend⟩
  | case4 line b rest hn hb => exact ⟨[], rfl, by simp, by simpa using hb⟩

theorem le_foldl (ds : Bytes) (value : Nat) :
    value ≤ ds.foldl (fun a b => a * 16 + Numeral.hexValue b) value := by
  induction ds generalizing value with
  | nil => exact Nat.le_refl _
  | cons d ds ih => exact Nat.le_trans (by omega) (ih (value * 16 + Numeral.hexValue d))

theorem codeDigits_digits {ds : Bytes} (hd : ∀ b ∈ ds, isHexDigit b = true) (value : Nat)
    (shown : Bytes)
    (hv : ds.foldl (fun a b => a * 16 + Numeral.hexValue b) value < 2 ^ 31) (line : Nat) :
    Scan.codeDigits value shown line (ds ++ 125 :: s) =
      .ok (Utf8.encode (ds.foldl (fun a b => a * 16 + Numeral.hexValue b) value), ⟨s, line⟩) := by
  induction ds generalizing value shown with
  | nil =>
    rw [List.nil_append, Scan.codeDigits, if_neg (by decide), if_pos rfl]
    rfl
  | cons d ds ih =>
    obtain ⟨hd, hds⟩ := List.forall_mem_cons.1 hd
    rw [List.foldl_cons] at hv ⊢
    have hle : value * 16 + Numeral.hexValue d ≤ ds.foldl (fun a b => a * 16 + Numeral.hexValue b)
        (value * 16 + Numeral.hexValue d) :=
      le_foldl ds _
    rw [List.cons_append, Scan.codeDigits, if_pos hd, if_pos (by omega), Nat.mul_comm 16]
    exact ih hds _ _ hv

theorem codeDigits_split {value : Nat} {shown : Bytes} (hv : value < 2 ^ 31)
    (h : Scan.codeDigits value shown line t = .ok (bytes, place)) :
    ∃ ds, t = ds ++ 125 :: place.rest ∧ (∀ b ∈ ds, isHexDigit b = true) ∧
      ds.foldl (fun a b => a * 16 + Numeral.hexValue b) value < 2 ^ 31 := by
  fun_induction Scan.codeDigits value shown line t with
  | case1 => exact absurd h Scan.badEscape_ne_ok
  | case2 value shown b rest hb hle ih =>
    have hdigit := Numeral.hexValue_lt b
    obtain ⟨ds, hsplit, hds, hlt⟩ := ih (by omega) h
    refine ⟨b :: ds, congrArg (b :: ·) hsplit, List.forall_mem_cons.2 ⟨hb, hds⟩, ?_⟩
    rw [List.foldl_cons, Nat.mul_comm]
    exact hlt
  | case3 => exact absurd h Scan.badEscape_ne_ok
  | case4 =>
    cases h
    exact ⟨[], rfl, by simp, hv⟩
  | case5 => exact absurd h Scan.badEscape_ne_ok

theorem decimalEscape_digits {ds : Bytes} (hd : ∀ b ∈ ds, isDigit b = true) (hlen : ds.length ≤ 3)
    (hv : ofDigits ds ≤ 255)
    (hend : ds.length < 3 → ∀ b, s.head? = some b → isDigit b = false) (line : Nat) :
    Scan.decimalEscape (ds ++ s) line = .ok ([(ofDigits ds).toUInt8], ⟨s, line⟩) := by
  have htake : ((ds ++ s).take 3).takeWhile isDigit = ds := by
    rw [List.take_append, List.take_of_length_le hlen, List.takeWhile_append_of_pos hd]
    rcases Nat.lt_or_ge ds.length 3 with hlt | hge
    · cases s with
      | nil => simp
      | cons b s =>
        have hb := hend hlt b rfl
        obtain ⟨k, hk⟩ : ∃ k, 3 - ds.length = k + 1 := ⟨2 - ds.length, by omega⟩
        rw [hk, List.take_succ_cons, List.takeWhile_cons, hb]
        simp
    · rw [Nat.sub_eq_zero_of_le hge]
      simp
  unfold Scan.decimalEscape
  rw [htake]
  dsimp only
  rw [if_pos hv, List.drop_left]

theorem decimalEscape_split (h : Scan.decimalEscape t line = .ok (bytes, place)) :
    ∃ ds, t = ds ++ place.rest ∧ (∀ b ∈ ds, isDigit b = true) ∧ ds.length ≤ 3 ∧ ofDigits ds ≤ 255 ∧
      (ds.length < 3 → ∀ b, place.rest.head? = some b → isDigit b = false) := by
  unfold Scan.decimalEscape at h
  dsimp only at h
  split at h
  case isFalse => exact absurd h Scan.badEscape_ne_ok
  rename_i hv
  cases h
  generalize hds : (t.take 3).takeWhile isDigit = ds at hv
  have hdigits : ∀ b ∈ ds, isDigit b = true := fun b hb => List.mem_takeWhile_imp (hds ▸ hb)
  have hpre : ds <+: t.take 3 := hds ▸ List.takeWhile_prefix _
  obtain ⟨r, rfl⟩ := hpre.trans (List.take_prefix 3 t)
  rw [List.drop_left]
  refine ⟨ds, rfl, hdigits, hpre.length_le.trans (List.length_take_le ..), hv, fun hlt b hb => ?_⟩
  cases r with
  | nil => cases hb
  | cons c r =>
    cases hb
    -- a further digit would have been taken
    cases hc : isDigit b with
    | false => rfl
    | true =>
      obtain ⟨k, hk⟩ : ∃ k, 3 - ds.length = k + 1 := ⟨2 - ds.length, by omega⟩
      rw [List.take_append, List.take_of_length_le (by omega), List.takeWhile_append_of_pos hdigits,
        hk,
        List.take_succ_cons, List.takeWhile_cons, if_pos hc] at hds
      simp at hds

theorem simpleEscape?_digit (hb : isDigit b = true) : Scan.simpleEscape? b = none := by
  cases hv : Scan.simpleEscape? b with
  | none => rfl
  | some v =>
    have hdigits : simpleEscapes.all (fun p => !isDigit p.1) = true := by decide
    have := List.all_eq_true.1 hdigits _ (mem_simpleEscapes hv)
    simp [hb] at this

theorem escape_digit (hb : isDigit b = true) (s : Bytes) (line : Nat) :
    Scan.escape b s line = Scan.decimalEscape (b :: s) line := by
  have hne {c : UInt8} (hc : isDigit c = false) : b ≠ c := ne_of_isDigit hb hc
  unfold Scan.escape
  rw [simpleEscape?_digit hb]
  dsimp only
  rw [if_neg (hne (by decide)), if_neg (hne (by decide)), if_neg, if_neg (hne (by decide)),
    if_pos hb]
  simp [isNewline, hne (c := 10) (by decide), hne (c := 13) (by decide)]

theorem scan_escape (e : Escape) (hs : e.EndsAt s) (line : Nat) :
    ∃ c t, e.body ++ s = c :: t ∧ Scan.escape c t line = .ok (e.bytes, ⟨s, line + e.lines⟩) := by
  cases e with
  | simple letter value h =>
    refine ⟨letter, s, rfl, ?_⟩
    unfold Scan.escape
    rw [simpleEscape?_mem h]
    rfl
  | hex high low h =>
    refine ⟨byte 'x', high :: low :: s, rfl, ?_⟩
    show Scan.hexEscape (high :: low :: s) line = _
    unfold Scan.hexEscape
    dsimp only
    rw [h.1, h.2]
    simp [bytes, lines, ofHexDigits, Nat.mul_comm]
  | decimal first more h =>
    refine ⟨first, more ++ s, rfl, ?_⟩
    rw [escape_digit (h.1 first List.mem_cons_self)]
    exact decimalEscape_digits h.1 (by simp only [List.length_cons]; omega) h.2.2
      (fun hlt => hs (by simp only [List.length_cons] at hlt; omega)) line
  | code first more h =>
    obtain ⟨hfirst, hmore⟩ := List.forall_mem_cons.1 h.1
    refine ⟨byte 'u', 123 :: first :: (more ++ 125 :: s), by simp [body], ?_⟩
    show Scan.codeEscape (123 :: first :: (more ++ 125 :: s)) line = _
    refine (if_pos hfirst).trans ?_
    have hvalue : ofHexDigits (first :: more) = more.foldl (fun a b => a * 16 + Numeral.hexValue b)
        (Numeral.hexValue first) := by
      simp [ofHexDigits]
    rw [codeDigits_digits hmore _ _ (hvalue ▸ h.2), ← hvalue]
    rfl
  | newline n =>
    cases n with
    | lf =>
      refine ⟨10, s, rfl, ?_⟩
      show Except.ok (([10], ⟨Scan.afterNewline 10 s, line + 1⟩) : Bytes × Scan.Cursor) = _
      rw [afterNewline_eq (c := 13) (by simp [isNewline]) hs]
      rfl
    | cr =>
      refine ⟨13, s, rfl, ?_⟩
      show Except.ok (([10], ⟨Scan.afterNewline 13 s, line + 1⟩) : Bytes × Scan.Cursor) = _
      rw [afterNewline_eq (c := 10) (by simp [isNewline]) hs]
      rfl
    | crlf => exact ⟨13, 10 :: s, rfl, rfl⟩
    | lfcr => exact ⟨10, 13 :: s, rfl, rfl⟩
  | skip run h =>
    refine ⟨byte 'z', run ++ s, rfl, ?_⟩
    show Except.ok (([], Scan.skipBlanks (run ++ s) line) : Bytes × Scan.Cursor) = _
    rw [skipBlanks_run h hs]
    rfl

theorem held_body (e : Escape) (h : e.body ++ s = c :: t) : Reader.held c t s = e.room := by
  have hlen : e.body.length + s.length = t.length + 1 := by
    rw [← List.length_append, h, List.length_cons]
  cases e with
  | simple letter value he =>
    cases h
    unfold Reader.held
    rw [simpleEscape?_mem he]
    rfl
  | hex high low he =>
    obtain ⟨rfl, -⟩ := List.cons.inj h
    have hbody : (hex high low he).body.length = 3 := rfl
    unfold Reader.held
    rw [if_neg (by decide), if_neg (by decide), room]
    omega
  | decimal first more he =>
    obtain ⟨rfl, -⟩ := List.cons.inj h
    have hbody : (decimal first more he).body.length = more.length + 1 := rfl
    have hd := he.1 first List.mem_cons_self
    have hne {b : UInt8} (hb : isDigit b = false) : first ≠ b := ne_of_isDigit hd hb
    unfold Reader.held
    rw [simpleEscape?_digit hd,
      if_neg (by simp [isNewline, hne (b := 10) (by decide), hne (b := 13) (by decide),
      hne (b := byte 'z') (by decide)]), if_pos hd, room]
    omega
  | code first more he =>
    obtain ⟨rfl, -⟩ := List.cons.inj h
    have hbody : (code first more he).body.length = more.length + 4 := by simp [body]
    unfold Reader.held
    rw [if_neg (by decide), if_neg (by decide), room]
    omega
  | newline n =>
    cases n <;> cases h <;> rfl
  | skip run he =>
    cases h
    rfl

/-- An escape is written with at least as many bytes as it takes room, and as it stands for. -/
theorem length_le (e : Escape) : e.room ≤ e.body.length + 1 ∧
    e.bytes.length ≤ e.body.length + 1 := by
  cases e with
  | simple letter value he => exact ⟨Nat.le_add_left 1 _, Nat.le_add_left 1 _⟩
  | hex high low he => exact ⟨Nat.le_succ 3, Nat.le_add_left 1 3⟩
  | decimal first more he => exact ⟨Nat.le_refl _, Nat.le_add_left 1 _⟩
  | code first more he =>
    have hbody : (code first more he).body.length = more.length + 4 := by simp [body]
    rw [hbody]
    refine ⟨Nat.le_succ _, ?_⟩
    cases more with
    | nil =>
      have hvalue : ofHexDigits [first] < 2 ^ 7 := by
        have hlt := Numeral.hexValue_lt first
        simp only [ofHexDigits, List.foldl_cons, List.foldl_nil]
        omega
      exact Nat.le_trans (Utf8.length_encode_le (n := 1) he.2 (by decide) hvalue)
        (Nat.le_add_left 1 _)
    | cons d more =>
      have hlen := Utf8.length_encode_le (n := 6) he.2 (by decide) he.2
      simp only [bytes, List.length_cons]
      omega
  | newline n => cases n <;> exact ⟨by decide, by decide⟩
  | skip run he => exact ⟨Nat.le_add_left 1 _, Nat.zero_le _⟩

theorem exists_hex (h : Scan.hexEscape t line = .ok (bytes, place)) :
    ∃ e : Escape, e.body ++ place.rest = byte 'x' :: t ∧ e.EndsAt place.rest := by
  unfold Scan.hexEscape at h
  dsimp only at h
  split at h
  · rename_i high low rest
    split at h
    · exact absurd h Scan.badEscape_ne_ok
    rename_i hhigh
    split at h
    · exact absurd h Scan.badEscape_ne_ok
    rename_i hlow
    cases h
    simp only [Bool.not_eq_true', Bool.not_eq_false] at hhigh hlow
    exact ⟨.hex high low ⟨hhigh, hlow⟩, rfl, trivial⟩
  · split at h <;> exact absurd h Scan.badEscape_ne_ok
  · exact absurd h Scan.badEscape_ne_ok

theorem exists_code (h : Scan.codeEscape t line = .ok (bytes, place)) :
    ∃ e : Escape, e.body ++ place.rest = byte 'u' :: t ∧ e.EndsAt place.rest := by
  unfold Scan.codeEscape at h
  split at h
  · rename_i first rest
    split at h
    · rename_i hfirst
      have hlt := Numeral.hexValue_lt first
      obtain ⟨ds, rfl, hds, hv⟩ := codeDigits_split (by omega) h
      have hvalue : ofHexDigits (first :: ds) < 2 ^ 31 := by simpa [ofHexDigits] using hv
      exact ⟨.code first ds ⟨List.forall_mem_cons.2 ⟨hfirst, hds⟩, hvalue⟩, by simp [body], trivial⟩
    · exact absurd h Scan.badEscape_ne_ok
  · exact absurd h Scan.badEscape_ne_ok
  · exact absurd h Scan.badEscape_ne_ok

theorem exists_newline (hc : isNewline c = true) (t : Bytes) :
    ∃ e : Escape, e.body ++ Scan.afterNewline c t = c :: t ∧ e.EndsAt (Scan.afterNewline c t) := by
  have hpair : ∀ d, isNewline d = true → d ≠ c → Scan.afterNewline c t = t → t.head? ≠ some d := by
    rintro d hd hne heq hhead
    obtain ⟨r, rfl⟩ := List.head?_eq_some_iff.1 hhead
    rw [Scan.afterNewline, if_pos (by simp [hd, hne])] at heq
    exact absurd (congrArg List.length heq) (by simp)
  have hcs : c = 10 ∨ c = 13 := by simpa [isNewline] using hc
  rcases afterNewline_cases c t with heq | ⟨d, heq, hd, hne⟩
  · have := fun d hd hne => hpair d hd hne heq
    rw [heq]
    rcases hcs with rfl | rfl
    · exact ⟨.newline .lf, rfl, this 13 (by decide) (by decide)⟩
    · exact ⟨.newline .cr, rfl, this 10 (by decide) (by decide)⟩
  · have hds : d = 10 ∨ d = 13 := by simpa [isNewline] using hd
    rcases hcs with rfl | rfl <;> rcases hds with rfl | rfl
    · exact absurd rfl hne
    · exact ⟨.newline .lfcr, congrArg (10 :: ·) heq.symm, trivial⟩
    · exact ⟨.newline .crlf, congrArg (13 :: ·) heq.symm, trivial⟩
    · exact absurd rfl hne

theorem exists_escape (h : Scan.escape c t line = .ok (bytes, place)) :
    ∃ e : Escape, e.body ++ place.rest = c :: t ∧ e.EndsAt place.rest := by
  unfold Scan.escape at h
  split at h
  · rename_i v hv
    cases h
    exact ⟨.simple c v (mem_simpleEscapes hv), rfl, trivial⟩
  split at h
  · rename_i hc
    subst hc
    exact exists_hex h
  split at h
  · rename_i hc
    subst hc
    exact exists_code h
  split at h
  · rename_i hc
    cases h
    exact exists_newline hc t
  split at h
  · rename_i hc
    subst hc
    cases h
    obtain ⟨run, hsplit, hrun, hend⟩ := exists_run t line
    exact ⟨.skip run hrun, congrArg (byte 'z' :: ·) hsplit.symm, hend⟩
  split at h
  · rename_i hd
    obtain ⟨ds, hsplit, hds, hlen, hv, hend⟩ := decimalEscape_split h
    cases ds with
    | nil =>
      exact absurd (hend (by decide) c (by rw [← List.nil_append place.rest, ← hsplit]; rfl))
        (by simp [hd])
    | cons d ds =>
      simp only [List.length_cons] at hlen hend
      exact ⟨.decimal d ds ⟨hds, by omega, hv⟩, hsplit.symm, fun hlt => hend (by omega)⟩
  · exact absurd h Scan.badEscape_ne_ok

theorem badEscape_line {α : Type} {message : String} {shown : Bytes} {e : Scan.EscapeFault}
    (h : Scan.badEscape (α := α) message shown t line = .error e) : e.place.line = line := by
  cases t <;> cases h <;> rfl

theorem codeDigits_line {value : Nat} {shown : Bytes} {e : Scan.EscapeFault}
    (h : Scan.codeDigits value shown line t = .error e) : e.place.line = line := by
  fun_induction Scan.codeDigits value shown line t with
  | case1 => exact badEscape_line h
  | case2 value shown b rest hb hle ih => exact ih h
  | case3 => exact badEscape_line h
  | case4 => cases h
  | case5 => exact badEscape_line h

theorem escape_line {e : Scan.EscapeFault} (h : Scan.escape c t line = .error e) :
    e.place.line = line := by
  unfold Scan.escape Scan.hexEscape Scan.codeEscape Scan.decimalEscape at h
  dsimp only at h
  repeat' split at h
  all_goals first | exact badEscape_line h | exact codeDigits_line h | cases h

end Escape

/-- A part of a string in quotes. -/
inductive QuotedPart (q : Quote) where
  | plain (b : UInt8) (h : b ≠ q.byte ∧ b ≠ byte '\\' ∧ isNewline b = false)
  | escape (e : Escape)

namespace QuotedPart

variable {q : Quote} {s t : Bytes}

def text : QuotedPart q → Bytes
  | .plain b _ => [b]
  | .escape e => byte '\\' :: e.body

def bytes : QuotedPart q → Bytes
  | .plain b _ => [b]
  | .escape e => e.bytes

def lines : QuotedPart q → Nat
  | .plain _ _ => 0
  | .escape e => e.lines

/-- The room that the part takes in the buffer of a reader while it is read. -/
def room : QuotedPart q → Nat
  | .plain _ _ => 1
  | .escape e => e.room

def EndsAt : QuotedPart q → Bytes → Prop
  | .plain _ _, _ => True
  | .escape e, s => e.EndsAt s

/-- Parts one after the other, as they are written. -/
def textAll (ps : List (QuotedPart q)) : Bytes := ps.flatMap text

def bytesAll (ps : List (QuotedPart q)) : Bytes := ps.flatMap bytes

def linesAll : List (QuotedPart q) → Nat
  | [] => 0
  | p :: ps => p.lines + linesAll ps

/-- Whether each part ends where the next one starts, and the last one where a text does. -/
def EndAt : List (QuotedPart q) → Bytes → Prop
  | [], _ => True
  | p :: ps, s => p.EndsAt (textAll ps ++ s) ∧ EndAt ps s

/-- Whether a buffer that holds some bytes has room for parts and for a quote after them. -/
def Fits : (held : Nat) → List (QuotedPart q) → Prop
  | held, [] => held + 1 ≤ maxTokenSize
  | held, p :: ps => held + p.room ≤ maxTokenSize ∧ Fits (held + p.bytes.length) ps

/-- Whether a text cannot be inside of quotes: it is empty, or it starts with a newline, or with a
backslash that begins no escape. -/
inductive Breaks : Bytes → Prop
  | ended : Breaks []
  | newline (b : UInt8) (s : Bytes) (h : isNewline b = true) : Breaks (b :: s)
  | escape (s : Bytes) (h : ∀ (e : Escape) (t : Bytes), s = e.body ++ t → ¬e.EndsAt t) : Breaks
    (byte '\\' :: s)

theorem Quote.byte_ne (q : Quote) : byte '\\' ≠ q.byte ∧ isNewline q.byte = false := by
  cases q <;> decide

theorem starts_quote (q : Quote) (s : Bytes) : StartsToken (q.byte :: s) :=
  ⟨fun b hb => by cases hb; cases q <;> decide, by cases q <;> rfl⟩

theorem quotedText_slash (c : UInt8) (t : Bytes) (line : Nat) (acc : Bytes) :
    Scan.quotedText q.byte (byte '\\' :: c :: t) line acc = (match Scan.escape c t line with
      | .ok (bytes, cursor) => Scan.quotedText q.byte cursor.rest cursor.line (bytes.reverse ++ acc)
      | .error e => .error ⟨e.message, Token.quote (acc.reverse ++ e.shown), e.place⟩) := by
  rw [Scan.quotedText.eq_def]
  dsimp only
  rw [if_neg (Quote.byte_ne q).1, if_neg (by decide), if_pos rfl]
  split <;> rename_i h <;> rw [h]

theorem quotedText_part (p : QuotedPart q) (hs : p.EndsAt s) (line : Nat) (acc : Bytes) :
    Scan.quotedText q.byte (p.text ++ s) line acc = Scan.quotedText q.byte s (line + p.lines)
      (p.bytes.reverse ++ acc) := by
  cases p with
  | plain b h =>
    show Scan.quotedText q.byte (b :: s) line acc = _
    rw [Scan.quotedText.eq_def]
    dsimp only
    rw [if_neg h.1, if_neg (by simp [h.2.2]), if_neg h.2.1]
    rfl
  | escape e =>
    obtain ⟨c, t, hsplit, he⟩ := e.scan_escape hs line
    show Scan.quotedText q.byte (byte '\\' :: (e.body ++ s)) line acc = _
    rw [hsplit, quotedText_slash, he]
    rfl

theorem quotedText_parts {ps : List (QuotedPart q)} (hs : EndAt ps s) (line : Nat) (acc : Bytes) :
    Scan.quotedText q.byte (textAll ps ++ s) line acc =
      Scan.quotedText q.byte s (line + linesAll ps) ((bytesAll ps).reverse ++ acc) := by
  induction ps generalizing line acc with
  | nil => rfl
  | cons p ps ih =>
    have htext : textAll (p :: ps) ++ s = p.text ++ (textAll ps ++ s) := by simp [textAll]
    rw [htext, quotedText_part p hs.1, ih hs.2]
    simp [linesAll, bytesAll, Nat.add_assoc]

theorem Fits.length {n : Nat} {ps : List (QuotedPart q)} (h : Fits n ps) :
    n + (bytesAll ps).length + 1 ≤ maxTokenSize := by
  induction ps generalizing n with
  | nil => exact h
  | cons p ps ih =>
    have hrest := ih h.2
    have hbytes : bytesAll (p :: ps) = p.bytes ++ bytesAll ps := rfl
    rw [hbytes, List.length_append, ← Nat.add_assoc]
    exact hrest

theorem length_le (p : QuotedPart q) : p.room ≤ p.text.length ∧ p.bytes.length ≤ p.text.length := by
  cases p with
  | plain b h => exact ⟨Nat.le_refl _, Nat.le_refl _⟩
  | escape e => exact e.length_le

theorem fits_of_length {n : Nat} {ps : List (QuotedPart q)}
    (h : n + (textAll ps).length + 1 ≤ maxTokenSize) : Fits n ps := by
  induction ps generalizing n with
  | nil => exact h
  | cons p ps ih =>
    obtain ⟨hroom, hbytes⟩ := p.length_le
    have htext : textAll (p :: ps) = p.text ++ textAll ps := rfl
    rw [htext, List.length_append] at h
    exact ⟨by omega, ih (by omega)⟩

theorem quotedText_breaks (h : Breaks s) (line : Nat) (acc : Bytes) :
    ∃ f, Scan.quotedText q.byte s line acc = .error f ∧ f.place.line = line := by
  cases h with
  | ended => exact ⟨_, by rw [Scan.quotedText.eq_def], rfl⟩
  | newline b s hb =>
    have hne : b ≠ q.byte := fun he => by rw [he, (Quote.byte_ne q).2] at hb; cases hb
    rw [Scan.quotedText.eq_def]
    dsimp only
    rw [if_neg hne, if_pos hb]
    exact ⟨_, rfl, rfl⟩
  | escape s hs =>
    cases s with
    | nil =>
      rw [Scan.quotedText.eq_def]
      dsimp only
      rw [if_neg (Quote.byte_ne q).1, if_neg (by decide), if_pos rfl]
      exact ⟨_, rfl, rfl⟩
    | cons c t =>
      rw [quotedText_slash]
      cases he : Scan.escape c t line with
      | ok r =>
        obtain ⟨e, hsplit, hend⟩ := Escape.exists_escape he
        exact absurd hend (hs e _ hsplit.symm)
      | error e => exact ⟨_, rfl, Escape.escape_line he⟩

theorem exists_parts (q : Quote) (s : Bytes) :
    ∃ (ps : List (QuotedPart q)) (t : Bytes), s = textAll ps ++ t ∧ EndAt ps t ∧
      ((∃ rest, t = q.byte :: rest) ∨ Breaks t) := by
  induction hlen : s.length using Nat.strongRecOn generalizing s with
  | ind n ih =>
    have further (p : QuotedPart q) (t : Bytes) (hp : s = p.text ++ t) (hend : p.EndsAt t)
        (hlt : t.length < n) :
        ∃ (ps : List (QuotedPart q)) (t : Bytes), s = textAll ps ++ t ∧ EndAt ps t ∧
          ((∃ rest, t = q.byte :: rest) ∨ Breaks t) := by
      obtain ⟨ps, t', rfl, hends, hstop⟩ := ih t.length hlt t rfl
      exact ⟨p :: ps, t', by simp [hp, textAll], ⟨hend, hends⟩, hstop⟩
    cases s with
    | nil => exact ⟨[], [], rfl, trivial, .inr .ended⟩
    | cons b s =>
      by_cases hquote : b = q.byte
      · exact ⟨[], b :: s, rfl, trivial, .inl ⟨s, by rw [hquote]⟩⟩
      cases hnewline : isNewline b with
      | true => exact ⟨[], b :: s, rfl, trivial, .inr (.newline b s hnewline)⟩
      | false =>
        by_cases hslash : b = byte '\\'
        · subst hslash
          by_cases hescape : ∀ (e : Escape) (t : Bytes), s = e.body ++ t → ¬e.EndsAt t
          · exact ⟨[], _, rfl, trivial, .inr (.escape s hescape)⟩
          · simp only [not_forall, not_not] at hescape
            obtain ⟨e, t, rfl, hend⟩ := hescape
            exact further (.escape e) t rfl hend
              (by simp only [List.length_cons, List.length_append] at hlen; omega)
        · exact further (.plain b ⟨hquote, hslash, hnewline⟩) s rfl trivial
            (by simp only [List.length_cons] at hlen; omega)

end QuotedPart

namespace Reader

variable {small : Prop} {q : Quote} {s t : Bytes} {line : Nat}

open QuotedPart

theorem quotedBody_part (p : QuotedPart q) (hs : p.EndsAt s)
    (h : small → t.length + p.room ≤ maxTokenSize ∧ line + p.lines < maxLines) :
    Agrees small (quotedBody q.byte (on (p.text ++ s) line t))
      (quotedBody q.byte (on s (line + p.lines) (t ++ p.bytes))) := by
  cases p with
  | plain b hb =>
    exact quotedBody_plain hb.1 (by simp [hb.2.2]) hb.2.1 (fun hsmall => (h hsmall).1) (.refl _)
  | escape e =>
    obtain ⟨c, rest, hsplit, he⟩ := e.scan_escape hs line
    have hescape := escape_agrees t fun (hsmall : small) => ⟨_, he, by
      rw [e.held_body hsplit]
      exact h hsmall⟩
    rw [he] at hescape
    show Agrees small (quotedBody q.byte (on (byte '\\' :: (e.body ++ s)) line t)) _
    rw [hsplit]
    exact quotedBody_escape (Quote.byte_ne q).1 hescape (.refl _)

theorem quotedBody_parts {ps : List (QuotedPart q)} (hs : EndAt ps s)
    (h : small → Fits t.length ps ∧ line + linesAll ps < maxLines) :
    Agrees small (quotedBody q.byte (on (textAll ps ++ s) line t))
      (quotedBody q.byte (on s (line + linesAll ps) (t ++ bytesAll ps))) := by
  induction ps generalizing line t with
  | nil =>
    rw [show t ++ bytesAll (q := q) [] = t from List.append_nil t]
    exact .refl _
  | cons p ps ih =>
    have htext : textAll (p :: ps) ++ s = p.text ++ (textAll ps ++ s) := by simp [textAll]
    have hbytes : t ++ bytesAll (p :: ps) = t ++ p.bytes ++ bytesAll ps := by simp [bytesAll]
    have hpart : Agrees small (quotedBody q.byte (on (p.text ++ (textAll ps ++ s)) line t)) _ :=
      quotedBody_part p hs.1 fun hsmall =>
      ⟨(h hsmall).1.1, Nat.lt_of_le_of_lt (Nat.add_le_add_left (Nat.le_add_right ..) line)
        (h hsmall).2⟩
    have hrest : Agrees small
        (quotedBody q.byte (on (textAll ps ++ s) (line + p.lines) (t ++ p.bytes))) _ :=
      ih hs.2 fun hsmall => by
      rw [List.length_append, Nat.add_assoc]
      exact ⟨(h hsmall).1.2, (h hsmall).2⟩
    rw [htext, hbytes, linesAll, ← Nat.add_assoc]
    exact hpart.trans hrest

theorem scan_parts (line : Nat) {ps : List (QuotedPart q)} (hs : EndAt ps (q.byte :: s))
    (h : small → Fits 1 ps ∧ line + linesAll ps < maxLines) :
    Agrees small (scan (q.byte :: (textAll ps ++ q.byte :: s)) line)
      (.ok (.string (bytesAll ps) ([q.byte]
        ++ bytesAll ps ++ [q.byte]), ⟨s, line + linesAll ps⟩)) := by
  have hbody : Agrees small (quotedBody q.byte (on (textAll ps ++ q.byte :: s) line [q.byte])) _ :=
    quotedBody_parts hs h
  rw [quotedBody_eq (r := on (q.byte :: s) (line + linesAll ps) _)] at hbody
  have hquoted := quoted_body (c := ⟨s, line + linesAll ps⟩) (.trans hbody (.of_eq (if_pos rfl)))
    fun hsmall => by
    have := (h hsmall).1.length
    omega
  rw [← lexeme_quote, ← next_token (starts_quote q _)] at hquoted
  exact hquoted

end Reader

namespace Lexer

/-- A string in quotes is read to its closing quote, if the buffer has room for its parts. The bytes
of the string are those that its parts stand for, and the line advances by the newlines inside.
Where there is no closing quote after the parts, there is a fault. -/
theorem scan_quoted (q : Quote) (l : Lexer) (hf : l.failure = none) (s : Bytes)
    (hi : l.input = q.byte :: s) :
    (∀ (ps : List (QuotedPart q)) (rest : Bytes), s = QuotedPart.textAll ps ++ q.byte :: rest →
    QuotedPart.EndAt ps (q.byte :: rest) →
      QuotedPart.Fits 1 ps → l.line + QuotedPart.linesAll ps < maxLines →
      scan l = .ok (.string (QuotedPart.bytesAll ps) (q.byte :: QuotedPart.bytesAll ps ++ [q.byte]))
        { l with
          input := rest, line := l.line + QuotedPart.linesAll ps,
          noted := l.noted.push (QuotedPart.bytesAll ps) }) ∧
    (∀ (ps : List (QuotedPart q)) (t : Bytes), s = QuotedPart.textAll ps ++ t →
    QuotedPart.EndAt ps t → QuotedPart.Breaks t →
      ∃ line message near l', scan l = .error (.error ⟨.lexical, l.source, line, message, near⟩)
        l' ∧
        (line = l.line + QuotedPart.linesAll ps ∨ message = utf8 "lexical element too long" ∨
          message = utf8 "chunk has too many lines")) ∧
    ∃ (ps : List (QuotedPart q)) (t : Bytes), s = QuotedPart.textAll ps ++ t ∧
      QuotedPart.EndAt ps t ∧
      ((∃ rest, t = q.byte :: rest) ∨ QuotedPart.Breaks t) := by
  refine ⟨?_, ?_, QuotedPart.exists_parts q s⟩
  · intro ps rest hs hend hroom hlines
    have hscan := (Reader.scan_parts l.line hend fun (_ : True) => ⟨hroom, hlines⟩).eq trivial
    rw [scan_eq hf, hi, hs, Reader.read_eq (x := .ok _) hscan]
    rfl
  · intro ps t hs hend hbreaks
    obtain ⟨f, hf', hline⟩ :=
      QuotedPart.quotedText_breaks (q := q) hbreaks (l.line + QuotedPart.linesAll ps)
      ((QuotedPart.bytesAll ps).reverse ++ [q.byte])
    have hscan : Scan.scan (q.byte :: s) l.line = .error f := by
      unfold Scan.scan
      rw [skip_startsToken (QuotedPart.starts_quote q s)]
      dsimp only
      rw [lexeme_quote, hs, QuotedPart.quotedText_parts hend, hf']
    have hread (f : Scan.Fault) (h : Reader.scan (q.byte :: s) l.line = .error (.fault f)) : ∃ l',
        scan l = .error (.error ⟨.lexical, l.source, f.place.line, f.message, f.near⟩) l' := by
      rw [scan_eq hf, hi, Reader.read_eq (x := .error f) h]
      exact ⟨_, rfl⟩
    rcases Reader.scan_agrees (q.byte :: s) l.line with h | ⟨-, e, h, hlimit⟩
    · rw [hscan] at h
      obtain ⟨l', hl⟩ := hread f h
      exact ⟨_, _, _, l', hl, .inl hline⟩
    · cases hlimit with
      | long c =>
        obtain ⟨l', hl⟩ := hread _ h
        exact ⟨_, _, _, l', hl, .inr (.inl rfl)⟩
      | lines c =>
        obtain ⟨l', hl⟩ := hread _ h
        exact ⟨_, _, _, l', hl, .inr (.inr rfl)⟩

/-- A short decimal escape, an escaped newline and blanks that are passed over. -/
theorem scan_quoted_escapes :
    let l : Lexer := { input := utf8 "'a\\65\\\n\\z b';", numberOf := fun _ => 0, source := [] }
    scan l = .ok (.string (utf8 "aA\nb") (utf8 "'aA\nb'"))
      { l with input := utf8 ";", line := 2, noted := #[utf8 "aA\nb"] } := by
  intro l
  have h := scan_quoted .single l rfl (utf8 "a\\65\\\n\\z b';") (by decide)
  exact h.1 [.plain (byte 'a') (by decide),
    .escape (.decimal (byte '6') [byte '5'] ⟨List.all_eq_true.1 (by decide), by decide, by decide⟩),
      .escape (.newline .lf),
    .escape (.skip [32] (List.all_eq_true.1 (by decide))), .plain (byte 'b') (by decide)] (utf8 ";")
      (by decide)
    ⟨trivial,
      fun _ b hb => by cases hb; decide, nofun, fun b hb => by cases hb; decide, trivial, trivial⟩
    (QuotedPart.fits_of_length (by decide)) (by decide)

end Lexer

end LuaChunk
