import LuaChunk.Proofs.Source.Buffer
import LuaChunk.Proofs.Text.Utf8

set_option autoImplicit false

namespace LuaChunk

open Scan (EscapeFault Cursor isNewline)
open Numeral (isDigit isHexDigit hexValue digitValue ofDigits)

theorem Numeral.hexValue_lt (b : UInt8) : hexValue b < 16 := by
  have hall : ∀ n < 256, hexValue (UInt8.ofNat n) < 16 := by decide +kernel
  simpa using hall b.toNat b.toNat_lt

namespace Reader

variable {small : Prop} {b c d : UInt8} {s t pre rest : Bytes} {line n : Nat}

/-- An escape as it is found in the buffer, after what was there before it. -/
def afterEscape (pre : Bytes) : Except EscapeFault (Bytes × Cursor) → Except Halt Reader
  | .ok (bytes, c) => .ok (on c.rest c.line (pre ++ bytes))
  | .error e => .error (.fault ⟨e.message, Token.quote (pre ++ e.shown), e.place⟩)

/-- How many bytes of an escape are in the buffer at a time, given its first byte, what follows it
and what is left. -/
def held (c : UInt8) (rest after : Bytes) : Nat :=
  if (Scan.simpleEscape? c).isSome || isNewline c || c == byte 'z' then 1
  else if isDigit c then rest.length - after.length + 2
  else rest.length - after.length + 1

def offence (message : String) (s : Bytes) (line : Nat) (t : Bytes) : Halt :=
  .fault ⟨utf8 message, Token.quote (t ++ s.take 1), ⟨s.tail, line⟩⟩

theorem afterEscape_badEscape {message : String} :
    afterEscape pre (Scan.badEscape message t s line) =
      .error (offence message s line (pre ++ t)) := by
  unfold offence
  rw [List.append_assoc]
  cases s with
  | nil =>
    rw [List.take_nil, List.append_nil]
    rfl
  | cons b s => rfl

theorem check_true {message : String} {ok : Bool} (h : ok = true) :
    (on s line t).check ok message = .ok () := by
  rw [h]
  rfl

theorem check_false {message : String} {ok : Bool} (hs : ¬small) (h : ok = false) :
    Agrees small ((on s line t).check ok message) (.error (offence message s line t)) := by
  rw [h]
  cases s with
  | nil =>
    unfold offence
    rw [List.take_nil, List.append_nil]
    exact .refl _
  | cons b s => exact (saveAndAdvance_agrees fun h => absurd h hs).step (.refl _)

theorem not_of_badEscape {x : Except EscapeFault (Bytes × Cursor)} {message : String}
    (h : small → ∃ r, x = .ok r)
    (hx : x = Scan.badEscape message t s line) : ¬small :=
  fun hs => (h hs).elim fun _ hr => Scan.badEscape_ne_ok (hx.symm.trans hr)

theorem hexDigit_agrees (h : small → t.length < maxTokenSize) (hd : isHexDigit d = true) :
    Agrees small (on (b :: d :: s) line t).hexDigit
      (.ok (hexValue d, on (d :: s) line (t ++ [b]))) := by
  refine (saveAndAdvance_agrees h).step ?_
  rw [check_true (by exact hd)]
  exact .refl _

theorem hexDigit_fails (hs : ¬small) (hd : s.head?.any isHexDigit = false) :
    Agrees small (on (b :: s) line t).hexDigit
      (.error (offence "hexadecimal digit expected" s line (t ++ [b]))) :=
  (saveAndAdvance_agrees fun h => absurd h hs).step (check_false hs hd).stop

theorem replace_agrees {u : Bytes} (hu : u.length = 1) (h : small → pre.length < maxTokenSize) :
    Agrees small ((on s line (pre ++ u)).replace c) (.ok (on s line (pre ++ [c]))) := by
  unfold replace
  rw [unsave_on hu]
  exact save_agrees h

theorem hexEscape_eq (r : Reader) : r.hexEscape = r.hexDigit >>= fun p => p.2.hexDigit >>= fun q =>
    q.2.unsave 2 >>= fun r => .ok ((16 * p.1 + q.1).toUInt8, r) := rfl

theorem hexEscape_agrees (h : small → pre.length + 3 ≤ maxTokenSize ∧
    ∃ r, Scan.hexEscape s line = .ok r) :
    Agrees small (do
      let (c, r) ← (on (byte 'x' :: s) line (pre ++ [byte '\\'])).hexEscape
      r.advance.replace c) (afterEscape pre (Scan.hexEscape s line)) := by
  have hbad {message : String} {t u : Bytes}
      (he : Scan.hexEscape s line = Scan.badEscape message t u line) : ¬small :=
    not_of_badEscape (fun hs => (h hs).2) he
  have hshown : pre ++ utf8 "\\x" = pre ++ [byte '\\'] ++ [byte 'x'] := by
    rw [List.append_assoc]
    rfl
  cases s with
  | nil =>
    have he : Scan.hexEscape [] line = Scan.badEscape "hexadecimal digit expected" (utf8 "\\x")
        [] line := rfl
    rw [he, afterEscape_badEscape, hshown]
    exact ((hexDigit_fails (s := []) (hbad he) rfl).stop).stop
  | cons a s =>
    cases ha : isHexDigit a with
    | false =>
      have he : Scan.hexEscape (a :: s) line = Scan.badEscape "hexadecimal digit expected"
          (utf8 "\\x") (a :: s) line := by
        cases s <;> simp [Scan.hexEscape, ha]
      rw [he, afterEscape_badEscape, hshown]
      exact ((hexDigit_fails (s := a :: s) (hbad he) ha).stop).stop
    | true =>
      have hfirst : Agrees small (on (byte 'x' :: a :: s) line (pre ++ [byte '\\'])).hexDigit
          (.ok (hexValue a, on (a :: s) line (pre ++ [byte '\\'] ++ [byte 'x']))) :=
        hexDigit_agrees
          (fun hs => by
            have := (h hs).1
            simp only [List.length_append, List.length_singleton]
            omega) ha
      cases hb : s.head?.any isHexDigit with
      | false =>
        have he : Scan.hexEscape (a :: s) line = Scan.badEscape "hexadecimal digit expected"
            (utf8 "\\x" ++ [a]) s line := by
          cases s with
          | nil => simp [Scan.hexEscape, ha]
          | cons b s => simp [Scan.hexEscape, ha, show isHexDigit b = false from hb]
        rw [he, afterEscape_badEscape, ← List.append_assoc, hshown]
        exact (hfirst.step (hexDigit_fails (hbad he) hb).stop).stop
      | true =>
        obtain ⟨b, s, rfl⟩ : ∃ b r, s = b :: r := by
          cases s with
          | nil => cases hb
          | cons b s => exact ⟨b, s, rfl⟩
        have he : Scan.hexEscape (a :: b :: s) line =
            .ok ([(16 * hexValue a + hexValue b).toUInt8], ⟨s, line⟩) := by
          simp [Scan.hexEscape, ha, show isHexDigit b = true from hb]
        have hsecond : Agrees small
            (on (a :: b :: s) line (pre ++ [byte '\\'] ++ [byte 'x'])).hexDigit
            (.ok (hexValue b, on (b :: s) line (pre ++ [byte '\\'] ++ [byte 'x'] ++ [a]))) :=
          hexDigit_agrees
            (fun hs => by
              have := (h hs).1
              simp only [List.length_append, List.length_singleton]
              omega) hb
        have hunsave : (on (b :: s) line (pre ++ [byte '\\'] ++ [byte 'x'] ++ [a])).unsave 2 =
            .ok (on (b :: s) line (pre ++ [byte '\\'])) := by
          rw [List.append_assoc (pre ++ _)]
          exact unsave_on rfl
        have hread : Agrees small (on (byte 'x' :: a :: b :: s) line (pre ++ [byte '\\'])).hexEscape
            (.ok ((16
              * hexValue a + hexValue b).toUInt8, on (b :: s) line (pre ++ [byte '\\']))) := by
          rw [hexEscape_eq]
          refine hfirst.step (hsecond.step (.of_eq ?_))
          rw [hunsave]
          rfl
        rw [he]
        exact hread.step (replace_agrees (u := [byte '\\']) rfl
          fun hs => by have := (h hs).1; omega)

theorem decimalDigits_agrees
    (h : small → t.length + ((s.take n).takeWhile isDigit).length ≤ maxTokenSize)
    (value count : Nat) :
    Agrees small (decimalDigits n value count (on s line t)) (.ok
      (((s.take n).takeWhile isDigit).foldl (fun a b => a * 10 + digitValue b) value,
        count + ((s.take n).takeWhile isDigit).length,
        on (s.drop ((s.take n).takeWhile isDigit).length) line
          (t ++ (s.take n).takeWhile isDigit))) := by
  induction n generalizing s t value count with
  | zero =>
    rw [List.take_zero, List.takeWhile_nil, List.append_nil]
    exact .refl _
  | succ n ih =>
    cases s with
    | nil =>
      rw [List.take_nil, List.takeWhile_nil, List.append_nil]
      exact .refl _
    | cons b s =>
      cases hb : isDigit b with
      | false =>
        rw [List.take_succ_cons, List.takeWhile_cons_of_neg (by simp [hb]), List.append_nil]
        exact .of_eq (if_neg (by simp [hb]))
      | true =>
        rw [List.take_succ_cons, List.takeWhile_cons_of_pos hb] at h ⊢
        rw [List.length_cons] at h ⊢
        have hrest := ih (s := s) (t := t ++ [b])
          (fun hs => by have := h hs; simp only [List.length_append, List.length_singleton]; omega)
          (value * 10 + digitValue b) (count + 1)
        rw [List.append_assoc, List.singleton_append, Nat.add_assoc count, Nat.add_comm 1] at hrest
        refine .trans (.of_eq (if_pos hb))
          ((saveAndAdvance_agrees fun hs => by have := h hs; omega).step ?_)
        rw [Nat.mul_comm 10]
        exact hrest

theorem decimalEscape_agrees
    (h : small → pre.length + 1 + ((s.take 3).takeWhile isDigit).length ≤ maxTokenSize ∧
    ∃ r, Scan.decimalEscape s line = .ok r) :
    Agrees small (do
      let (c, r) ← (on s line (pre ++ [byte '\\'])).decimalEscape
      r.replace c) (afterEscape pre (Scan.decimalEscape s line)) := by
  have hdigits : Agrees small (decimalDigits 3 0 0 (on s line (pre ++ [byte '\\']))) _ :=
    decimalDigits_agrees (fun hs => by have := (h hs).1; simpa using this) 0 0
  unfold Scan.decimalEscape at h ⊢
  generalize (s.take 3).takeWhile isDigit = ds at h hdigits ⊢
  dsimp only at h ⊢
  rw [Nat.zero_add] at hdigits
  change Agrees small _ (.ok (ofDigits ds, _)) at hdigits
  by_cases hv : ofDigits ds ≤ 255
  · rw [if_pos hv]
    have hunsave : (on (s.drop ds.length) line (pre ++ [byte '\\'] ++ ds)).unsave ds.length =
        .ok (on (s.drop ds.length) line (pre ++ [byte '\\'])) :=
      unsave_on rfl
    have hread : Agrees small (on s line (pre ++ [byte '\\'])).decimalEscape
        (.ok ((ofDigits ds).toUInt8, on (s.drop ds.length) line (pre ++ [byte '\\']))) := by
      refine hdigits.step (.of_eq ?_)
      dsimp only
      rw [check_true (decide_eq_true hv), hunsave]
      rfl
    exact hread.step (replace_agrees (u := [byte '\\']) rfl fun hs => by have := (h hs).1; omega)
  · rw [if_neg hv] at h ⊢
    have hs : ¬small := not_of_badEscape (fun hs => (h hs).2) rfl
    have hshown : pre ++ byte '\\' :: ds = pre ++ [byte '\\'] ++ ds := List.append_cons ..
    rw [afterEscape_badEscape, hshown]
    exact (hdigits.step (check_false hs (decide_eq_false hv)).stop).stop

theorem saveAll_agrees {u : Bytes} (h : small → t.length + u.length ≤ maxTokenSize) :
    Agrees small (u.foldlM (fun r b => r.save b) (on s line t)) (.ok (on s line (t ++ u))) := by
  induction u generalizing t with
  | nil =>
    rw [List.append_nil]
    exact .refl _
  | cons b u ih =>
    rw [List.length_cons] at h
    rw [List.foldlM_cons, List.append_cons]
    refine (save_agrees fun hs => by have := h hs; omega).step (ih fun hs => ?_)
    have := h hs
    simp only [List.length_append, List.length_singleton]
    omega

theorem codeDigits_eq (count : Nat) (value : UInt32) (r : Reader) :
    codeDigits count value r = r.saveAndAdvance >>= fun r =>
    r.current?.elim (.ok (count, value, r)) fun b =>
      if isHexDigit b then
        r.check (value ≤ 0x7FFFFFF) "UTF-8 value too large" >>= fun _ =>
          codeDigits (count + 1) (value <<< 4 + (hexValue b).toUInt32) r
      else .ok (count, value, r) := by
  rw [codeDigits.eq_def]
  unfold current?
  split <;> rename_i h <;> rw [h]
  · show _ = Option.elim (List.head? _) _ _
    split <;> rename_i hr <;> rw [hr]
    · rw [List.head?_cons, Option.elim_some]
      split
      · split <;> rename_i hc <;> rw [hc] <;> rfl
      · rfl
    · rfl
  · rfl

theorem codeDigits_step {count : Nat} {value : UInt32} (h : small → t.length < maxTokenSize) :
    Agrees small (codeDigits count value (on (d :: s) line t))
      (s.head?.elim (.ok (count, value, on s line (t ++ [d]))) fun b =>
      if isHexDigit b then
        (on s line (t ++ [d])).check (value ≤ 0x7FFFFFF) "UTF-8 value too large" >>= fun _ =>
          codeDigits (count + 1) (value <<< 4 + (hexValue b).toUInt32) (on s line (t ++ [d]))
      else .ok (count, value, on s line (t ++ [d]))) := by
  rw [codeDigits_eq]
  exact (saveAndAdvance_agrees h).step (.refl _)

def codeEnd (p : Nat × UInt32 × Reader) : Except Halt Reader := do
  p.2.2.check (p.2.2.current? == some 125) "missing '\x7d' in \\u\x7bxxxx\x7d"
  let r ← p.2.2.advance.unsave p.1
  (Utf8.encode p.2.1.toNat).foldlM (fun r b => r.save b) r

theorem codeEscape_eq (r : Reader) : r.codeEscape = r.saveAndAdvance >>= fun r =>
    r.check (r.current? == some 123) "missing '\x7b' in \\u\x7bxxxx\x7d" >>= fun _ =>
      r.hexDigit >>= fun p => codeDigits 4 p.1.toUInt32 p.2 >>= codeEnd := rfl

theorem toNat_further {value : UInt32} (hv : value.toNat ≤ 0x7FFFFFF) (b : UInt8) :
    (value <<< 4 + (hexValue b).toUInt32).toNat = 16 * value.toNat + hexValue b := by
  have hb := Numeral.hexValue_lt b
  have hdigit : (hexValue b).toUInt32.toNat = hexValue b :=
    UInt32.toNat_ofNat_of_lt (Nat.lt_trans hb (by decide))
  have hshift : (value <<< 4).toNat = 16 * value.toNat := by
    rw [UInt32.toNat_shiftLeft]
    show value.toNat <<< 4 % 2 ^ 32 = _
    rw [Nat.shiftLeft_eq, Nat.mod_eq_of_lt (by omega), Nat.mul_comm]
  rw [UInt32.toNat_add, hshift, hdigit]
  exact Nat.mod_eq_of_lt (by omega)

/-- The digits of a code after its first ones, and its end. What has been read of the escape is in
the buffer. -/
theorem codeDigits_agrees {u : Bytes} {value : UInt32} (hu : 3 ≤ u.length)
    (hv : value.toNat < 2 ^ 31)
    (hp : value.toNat < 16 ^ (u.length - 2))
    (h : small → ∃ r, Scan.codeDigits value.toNat (u ++ [d]) line s = .ok r ∧
      pre.length + u.length + (s.length - r.2.rest.length) ≤ maxTokenSize) :
    Agrees small (codeDigits (u.length + 1) value (on (d :: s) line (pre ++ u)) >>= codeEnd)
      (afterEscape pre (Scan.codeDigits value.toNat (u ++ [d]) line s)) := by
  induction s generalizing d u value with
  | nil =>
    have he : Scan.codeDigits value.toNat (u ++ [d]) line [] =
        Scan.badEscape "missing '\x7d' in \\u\x7bxxxx\x7d" (u ++ [d]) [] line := rfl
    have hs : ¬small := not_of_badEscape (fun hs => (h hs).imp fun _ hr => hr.1) he
    rw [he, afterEscape_badEscape, ← List.append_assoc]
    exact Agrees.step (codeDigits_step fun h => absurd h hs) (check_false hs rfl).stop
  | cons b s ih =>
    have hsave : small → (pre ++ u).length < maxTokenSize := fun hs => by
      obtain ⟨r, hr, hle⟩ := h hs
      have := Scan.length_codeDigits_lt hr
      rw [List.length_append]
      omega
    have hbad {message : String} {s' : Bytes}
        (he : Scan.codeDigits value.toNat (u ++ [d]) line (b :: s) =
        Scan.badEscape message (u ++ [d]) s' line) :
        ¬small := not_of_badEscape (fun hs => (h hs).imp fun _ hr => hr.1) he
    have hstep : Agrees small (codeDigits (u.length + 1) value (on (d :: b :: s) line (pre ++ u)))
        _ := codeDigits_step hsave
    by_cases hb : isHexDigit b = true
    · replace hstep := hstep.trans (.of_eq (if_pos hb))
      by_cases hv' : value.toNat ≤ 0x7FFFFFF
      · have he : Scan.codeDigits value.toNat (u ++ [d]) line (b :: s) =
            Scan.codeDigits (16 * value.toNat + hexValue b) (u ++ [d] ++ [b]) line s := by
          rw [Scan.codeDigits, if_pos hb, if_pos hv']
        have hdigit := Numeral.hexValue_lt b
        have hpow : 16 * 16 ^ (u.length - 2) = 16 ^ ((u ++ [d]).length - 2) := by
          rw [List.length_append, List.length_singleton,
            show u.length + 1 - 2 = u.length - 2 + 1 by omega, Nat.pow_succ, Nat.mul_comm]
        have hfurther := toNat_further hv' b
        rw [check_true (decide_eq_true (UInt32.le_iff_toNat_le.2 hv'))] at hstep
        rw [he] at h ⊢
        rw [← hfurther] at h ⊢
        have hrest : Agrees small
            (codeDigits ((u ++ [d]).length + 1) (value <<< 4 + (hexValue b).toUInt32)
            (on (b :: s) line (pre ++ (u ++ [d]))) >>= codeEnd) _ :=
          ih (by rw [List.length_append]; omega) (by omega) (by omega) fun hs => by
            obtain ⟨r, hr, hle⟩ := h hs
            have := Scan.length_codeDigits_lt hr
            refine ⟨r, hr, ?_⟩
            simp only [List.length_append, List.length_cons, List.length_nil] at hle ⊢
            omega
        rw [List.length_append, List.length_singleton, ← List.append_assoc] at hrest
        exact .trans (Agrees.bind hstep fun _ _ => .refl _) hrest
      · have he : Scan.codeDigits value.toNat (u ++ [d]) line (b :: s) =
            Scan.badEscape "UTF-8 value too large" (u ++ [d]) (b :: s) line := by
          rw [Scan.codeDigits, if_pos hb, if_neg hv']
        have hlarge : decide (value ≤ 0x7FFFFFF) = false :=
          decide_eq_false fun h => hv' (UInt32.le_iff_toNat_le.1 h)
        rw [he, afterEscape_badEscape, ← List.append_assoc]
        exact (Agrees.trans hstep (check_false (hbad he) hlarge).stop).stop
    · replace hstep := hstep.trans (.of_eq (if_neg hb))
      by_cases hb' : b = 125
      · subst hb'
        have he : Scan.codeDigits value.toNat (u ++ [d]) line (125 :: s) =
            .ok (Utf8.encode value.toNat, ⟨s, line⟩) := by
          rw [Scan.codeDigits, if_neg hb, if_pos rfl]
        have hunsave : (on s line (pre ++ u ++ [d])).unsave (u.length + 1) =
            .ok (on s line pre) := by
          rw [List.append_assoc]
          exact unsave_on (List.length_append ..)
        have hlen : (Utf8.encode value.toNat).length ≤ u.length + 1 := by
          rcases Nat.lt_or_ge u.length 5 with hu' | hu'
          · have hlow : value.toNat < 2 ^ Utf8.bitLimit 2 := Nat.lt_of_lt_of_le hp
              (Nat.le_trans (Nat.pow_le_pow_right (by decide) (show u.length - 2 ≤ 2 by omega))
                (by decide))
            exact Nat.le_trans (Utf8.length_encode_le hv (by decide) hlow) (by omega)
          · exact Nat.le_trans (Utf8.length_encode_le hv (show 0 < 6 by decide) hv) (by omega)
        rw [he]
        refine hstep.step (.trans (.of_eq ?_) (saveAll_agrees fun hs => ?_))
        · unfold codeEnd
          dsimp only
          rw [check_true (by rfl)]
          show (on s line (pre ++ u ++ [d])).unsave (u.length + 1) >>= _ = _
          rw [hunsave]
          rfl
        · obtain ⟨r, hr, hle⟩ := h hs
          cases he.symm.trans hr
          simp only [List.length_cons] at hle
          omega
      · have he : Scan.codeDigits value.toNat (u ++ [d]) line (b :: s) =
            Scan.badEscape "missing '\x7d' in \\u\x7bxxxx\x7d" (u ++ [d]) (b :: s) line := by
          rw [Scan.codeDigits, if_neg hb, if_neg hb']
        rw [he, afterEscape_badEscape, ← List.append_assoc]
        exact hstep.step (check_false (hbad he) (by simp [hb'])).stop

theorem codeEscape_agrees
    (h : small → ∃ r, Scan.codeEscape s line = .ok r ∧
    pre.length + (s.length - r.2.rest.length + 1) ≤ maxTokenSize) :
    Agrees small (on (byte 'u' :: s) line (pre ++ [byte '\\'])).codeEscape
      (afterEscape pre (Scan.codeEscape s line)) := by
  have hbad {message : String} {t u : Bytes}
      (he : Scan.codeEscape s line = Scan.badEscape message t u line) : ¬small :=
    not_of_badEscape (fun hs => (h hs).imp fun _ hr => hr.1) he
  have hroom : small → pre.length + 3 < maxTokenSize := fun hs => by
    obtain ⟨r, hr, hle⟩ := h hs
    have := Scan.length_codeEscape_le hr
    omega
  have hletter : Agrees small (on (byte 'u' :: s) line (pre ++ [byte '\\'])).saveAndAdvance
      (.ok (on s line (pre ++ utf8 "\\u"))) := by
    have hshown : pre ++ utf8 "\\u" = pre ++ [byte '\\'] ++ [byte 'u'] := by
      rw [List.append_assoc]
      rfl
    rw [hshown]
    exact saveAndAdvance_agrees fun hs => by
      have := hroom hs; rw [List.length_append, List.length_singleton]; omega
  rw [codeEscape_eq]
  refine hletter.step ?_
  by_cases hbrace : s.head? = some 123
  · obtain ⟨s, rfl⟩ := List.head?_eq_some_iff.1 hbrace
    rw [check_true (by rfl)]
    have hshown : pre ++ utf8 "\\u\x7b" = pre ++ utf8 "\\u" ++ [123] := by
      rw [List.append_assoc]
      rfl
    cases hd : s.head?.any isHexDigit with
    | false =>
      have he : Scan.codeEscape (123 :: s) line = Scan.badEscape "hexadecimal digit expected"
          (utf8 "\\u\x7b") s line := by
        cases s with
        | nil => rfl
        | cons b s => simp [Scan.codeEscape, show isHexDigit b = false from hd]
      rw [he, afterEscape_badEscape, hshown]
      exact (hexDigit_fails (hbad he) hd).stop
    | true =>
      obtain ⟨d, s, rfl⟩ : ∃ d r, s = d :: r := by
        cases s with
        | nil => cases hd
        | cons d s => exact ⟨d, s, rfl⟩
      have he : Scan.codeEscape (123 :: d :: s) line = Scan.codeDigits (hexValue d)
          (utf8 "\\u\x7b" ++ [d]) line s := by
        simp [Scan.codeEscape, show isHexDigit d = true from hd]
      have hfirst : Agrees small (on (123 :: d :: s) line (pre ++ utf8 "\\u")).hexDigit
          (.ok (hexValue d, on (d :: s) line (pre ++ utf8 "\\u\x7b"))) := by
        rw [hshown]
        refine hexDigit_agrees (fun hs => ?_) hd
        have := hroom hs
        rw [List.length_append]
        show pre.length + 2 < maxTokenSize
        omega
      have hvalue : (hexValue d).toUInt32.toNat = hexValue d :=
        UInt32.toNat_ofNat_of_lt (Nat.lt_trans (Numeral.hexValue_lt d) (by decide))
      have hlt := Numeral.hexValue_lt d
      rw [he] at h ⊢
      rw [← hvalue] at h ⊢
      have hrest : Agrees small (codeDigits ((utf8 "\\u\x7b").length + 1) (hexValue d).toUInt32
          (on (d :: s) line (pre ++ utf8 "\\u\x7b")) >>= codeEnd) _ :=
        codeDigits_agrees (by decide) (by omega) (by rw [hvalue]; exact hlt) fun hs => by
          obtain ⟨r, hr, hle⟩ := h hs
          have := Scan.length_codeDigits_lt hr
          refine ⟨r, hr, ?_⟩
          simp only [List.length_cons] at hle
          show pre.length + 3 + _ ≤ _
          omega
      exact hfirst.step hrest
  · have he : Scan.codeEscape s line = Scan.badEscape "missing '\x7b' in \\u\x7bxxxx\x7d"
        (utf8 "\\u") s line := by
      unfold Scan.codeEscape
      split
      · exact absurd rfl hbrace
      · exact absurd rfl hbrace
      · rfl
    rw [he, afterEscape_badEscape]
    exact (check_false (hbad he) (beq_eq_false_iff_ne.2 hbrace)).stop

theorem escape_agrees (pre : Bytes)
    (h : small → ∃ r, Scan.escape c s line = .ok r ∧ pre.length + held c s r.2.rest ≤ maxTokenSize ∧
    r.2.line < maxLines) :
    Agrees small (on (byte '\\' :: c :: s) line pre).escape
      (afterEscape pre (Scan.escape c s line)) := by
  have hpos : ∀ after : Bytes, 0 < held c s after := fun after => by
    unfold held
    split
    · exact Nat.one_pos
    · split <;> exact Nat.succ_pos _
  have hroom : small → pre.length < maxTokenSize := fun hs => by
    obtain ⟨r, -, hle, -⟩ := h hs
    have := hpos r.2.rest
    omega
  have hreplace {s' : Bytes} {line' : Nat} {v : UInt8} :
      Agrees small ((on s' line' (pre ++ [byte '\\'])).replace v)
        (.ok (on s' line' (pre ++ [v]))) := replace_agrees rfl hroom
  unfold Scan.escape at h ⊢
  refine Agrees.step (saveAndAdvance_agrees hroom) ?_
  dsimp only [current?_on, List.head?_cons]
  cases hv : Scan.simpleEscape? c with
  | some v => exact hreplace
  | none =>
    rw [hv] at h
    dsimp only at h ⊢
    by_cases hx : c = byte 'x'
    · subst hx
      rw [if_pos rfl] at h
      rw [if_pos rfl, if_pos rfl]
      refine hexEscape_agrees fun hs => ?_
      obtain ⟨r, hr, hle, -⟩ := h hs
      have hlen := Scan.length_hexEscape hr
      have hheld : held (byte 'x') s r.2.rest = s.length - r.2.rest.length + 1 := rfl
      exact ⟨by omega, r, hr⟩
    by_cases hu : c = byte 'u'
    · subst hu
      rw [if_neg hx, if_pos rfl] at h
      rw [if_neg hx, if_pos rfl, if_neg hx, if_pos rfl]
      refine codeEscape_agrees fun hs => ?_
      obtain ⟨r, hr, hle, -⟩ := h hs
      have hheld : held (byte 'u') s r.2.rest = s.length - r.2.rest.length + 1 := rfl
      exact ⟨r, hr, by rwa [← hheld]⟩
    by_cases hn : isNewline c = true
    · rw [if_neg hx, if_neg hu, if_pos hn] at h
      rw [if_neg hx, if_neg hu, if_pos hn, if_neg hx, if_neg hu, if_pos hn]
      refine Agrees.step (skipNewline_agrees fun hs => ?_) hreplace
      obtain ⟨r, hr, -, hlt⟩ := h hs
      cases hr
      exact hlt
    by_cases hz : c = byte 'z'
    · subst hz
      rw [if_neg hx, if_neg hu, if_neg hn, if_pos rfl] at h
      rw [if_neg hx, if_neg hu, if_neg hn, if_pos rfl, if_neg hx, if_neg hu, if_neg hn, if_pos rfl]
      rw [unsave_on (n := 1) rfl]
      refine .trans (skipBlanks_agrees fun hs => ?_) (.of_eq ?_)
      · obtain ⟨r, hr, -, hlt⟩ := h hs
        cases hr
        exact hlt
      · exact congrArg (fun t => Except.ok (on _ _ t)) (List.append_nil pre).symm
    rw [if_neg hx, if_neg hu, if_neg hn, if_neg hz] at h
    rw [if_neg hx, if_neg hu, if_neg hn, if_neg hz, if_neg hx, if_neg hu, if_neg hn, if_neg hz]
    cases hd : isDigit c with
    | false =>
      rw [hd, if_neg Bool.false_ne_true] at h
      have hs : ¬small := not_of_badEscape (fun hs => (h hs).imp fun _ hr => hr.1) rfl
      rw [if_neg Bool.false_ne_true, afterEscape_badEscape]
      exact (check_false hs rfl).stop
    | true =>
      rw [hd, if_pos rfl] at h
      rw [if_pos rfl, check_true rfl]
      refine decimalEscape_agrees fun hs => ?_
      obtain ⟨r, hr, hle, -⟩ := h hs
      have hlen := Scan.length_decimalEscape hr
      have hfirst : 0 < (((c :: s).take 3).takeWhile isDigit).length := by
        rw [List.take_succ_cons, List.takeWhile_cons_of_pos hd]
        exact Nat.succ_pos _
      have hheld : held c s r.2.rest = s.length - r.2.rest.length + 2 := by
        unfold held
        rw [hv, hd, if_pos rfl, if_neg]
        simp [hn, hz]
      simp only [List.length_cons] at hlen
      exact ⟨by omega, r, hr⟩

theorem quotedBody_eq (delim : UInt8) (r : Reader) : quotedBody delim r =
    r.current?.elim (r.fail (utf8 "unfinished string") TokenKind.eos.text) fun b =>
      if b = delim then .ok r
      else if isNewline b then r.fail (utf8 "unfinished string") (Token.quote r.text)
      else (if b = byte '\\' then r.escape else r.saveAndAdvance) >>= quotedBody delim := by
  rw [quotedBody.eq_def]
  unfold current?
  split <;> rename_i hr <;> rw [hr]
  · rfl
  rw [List.head?_cons, Option.elim_some]
  split
  · rfl
  · split
    · rfl
    · split <;> rename_i h <;> rw [h] <;> rfl

section

variable {delim : UInt8} {z : Except Halt Reader}

theorem quotedBody_escape {r : Reader} (hd : byte '\\' ≠ delim)
    (h : Agrees small (on (byte '\\' :: s) line t).escape (.ok r))
    (hr : Agrees small (quotedBody delim r) z) : Agrees small
    (quotedBody delim (on (byte '\\' :: s) line t)) z := by
  rw [quotedBody_eq]
  exact .trans (.of_eq ((if_neg hd).trans (if_neg (by decide)))) (h.step hr)

theorem quotedBody_plain (hd : b ≠ delim) (hn : isNewline b ≠ true) (hs : b ≠ byte '\\')
    (ht : small → t.length < maxTokenSize)
    (hr : Agrees small (quotedBody delim (on s line (t ++ [b]))) z) : Agrees small
    (quotedBody delim (on (b :: s) line t)) z := by
  rw [quotedBody_eq]
  refine .trans (.of_eq ((if_neg hd).trans (if_neg hn))) ?_
  rw [if_neg hs]
  exact (saveAndAdvance_agrees ht).step hr

end

theorem quotedBody_agrees (delim : UInt8) (s : Bytes) (line : Nat) (acc : Bytes) :
    Agrees False (quotedBody delim (on s line acc.reverse))
      (match Scan.quotedText delim s line acc with
      | .ok (text, c) => .ok (on (delim :: c.rest) c.line text)
      | .error f => .error (.fault f)) := by
  fun_induction Scan.quotedText delim s line acc with
  | case1 line acc =>
    rw [quotedBody_eq]
    exact .refl _
  | case2 line acc rest =>
    rw [quotedBody_eq]
    exact .of_eq (if_pos rfl)
  | case3 line acc fault b rest hd hn =>
    rw [quotedBody_eq]
    exact .of_eq ((if_neg hd).trans (if_pos hn))
  | case4 line acc fault hd hn =>
    have hlast : Agrees False (on [byte '\\'] line acc.reverse).escape
        (.ok (on [] line (acc.reverse ++ [byte '\\']))) :=
      (saveAndAdvance_agrees False.elim).step (.refl _)
    refine quotedBody_escape hd hlast ?_
    rw [quotedBody_eq]
    exact .refl _
  | case5 line acc c rest bytes place he hd hn ih =>
    have hescape : Agrees False (on (byte '\\' :: c :: rest) line acc.reverse).escape _ :=
      escape_agrees _ False.elim
    rw [he] at hescape
    refine quotedBody_escape hd hescape ?_
    rw [List.reverse_append, List.reverse_reverse] at ih
    exact ih
  | case6 line acc fault c rest e he hd hn =>
    have hescape : Agrees False (on (byte '\\' :: c :: rest) line acc.reverse).escape _ :=
      escape_agrees _ False.elim
    rw [he] at hescape
    rw [quotedBody_eq]
    exact .trans (.of_eq ((if_neg hd).trans (if_neg (by decide)))) hescape.stop
  | case7 line acc b rest hd hn hs ih =>
    refine quotedBody_plain hd hn hs False.elim ?_
    rw [List.reverse_cons] at ih
    exact ih

end Reader

end LuaChunk
