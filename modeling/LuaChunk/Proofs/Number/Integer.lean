import Mathlib.Data.Nat.Digits.Lemmas
import LuaChunk.Proofs.Source.Words
import LuaChunk.Value

/-!
Integer numerals. A text denotes an integer if it is a decimal numeral in the 64-bit range or a
hexadecimal numeral of any length, with an optional sign and white space around it. Main statements:
which texts denote which integers, that the text of an integer denotes it, and that a decimal
numeral out of range is a float.
-/

set_option autoImplicit false

namespace LuaChunk.Numeral

open Text (isBlank)

def positional (base : Nat) (valueOf : UInt8 → Nat) (digits : Bytes) : Nat :=
  Nat.ofDigits base (digits.reverse.map valueOf)

/-- The texts of a sign. Without one a number is not negated. -/
inductive IsSign : Bool → Bytes → Prop
  | none : IsSign false []
  | plus : IsSign false [byte '+']
  | minus : IsSign true [byte '-']

def IsDecimal (text : Bytes) (m : Nat) : Prop :=
  text ≠ [] ∧ (∀ b ∈ text, isDigit b = true) ∧ m = positional 10 digitValue text

def IsHexadecimal (text : Bytes) (m : Nat) : Prop :=
  ∃ x digits, text = byte '0' :: x :: digits ∧ (x = byte 'x' ∨ x = byte 'X') ∧ digits ≠ [] ∧
    (∀ b ∈ digits, isHexDigit b = true) ∧ m = positional 16 hexValue digits

/-- A numeral with an optional sign and white space around it. -/
inductive Written (numeral : Bytes → Nat → Prop) : Bytes → Int → Prop
  | intro {before sign text after : Bytes} {negative : Bool} {m : Nat}
    (hb : ∀ b ∈ before, isBlank b = true)
    (hs : IsSign negative sign) (ht : numeral text m) (ha : ∀ b ∈ after, isBlank b = true) :
    Written numeral (before ++ (sign ++ (text ++ after))) (signed negative m)

theorem Written.between {numeral : Bytes → Nat → Prop} (before after : Bytes) {sign text : Bytes}
    {negative : Bool} {m : Nat}
    (hb : ∀ b ∈ before, isBlank b = true) (hs : IsSign negative sign) (ht : numeral text m)
    (ha : ∀ b ∈ after, isBlank b = true) :
    Written numeral (before ++ (sign ++ (text ++ after))) (signed negative m) := .intro hb hs ht ha

theorem ofDigits_eq (digits : Bytes) : ofDigits digits = positional 10 digitValue digits := by
  induction digits using List.reverseRecOn with
  | nil => rfl
  | append_singleton s b ih =>
    rw [ofDigits_append, ih, positional, positional, List.reverse_append, List.reverse_singleton,
      List.singleton_append,
      List.map_cons, Nat.ofDigits_cons]
    ring

theorem ofHexDigits_eq (digits : Bytes) : ofHexDigits digits = positional 16 hexValue digits := by
  induction digits using List.reverseRecOn with
  | nil => rfl
  | append_singleton s b ih =>
    rw [ofHexDigits, List.foldl_append, ← ofHexDigits, ih, positional, positional,
      List.reverse_append,
      List.reverse_singleton, List.singleton_append, List.map_cons, Nat.ofDigits_cons]
    simp only [List.foldl_cons, List.foldl_nil]
    ring

def Stops (p : UInt8 → Bool) (rest : Bytes) : Prop := ∀ b, rest.head? = some b → p b = false

theorem takeWhile_run {p : UInt8 → Bool} {t rest : Bytes} (ht : ∀ b ∈ t, p b = true)
    (hr : Stops p rest) :
    (t ++ rest).takeWhile p = t ∧ (t ++ rest).dropWhile p = rest := by
  rw [List.takeWhile_append_of_pos ht, List.dropWhile_append_of_pos ht]
  cases rest with
  | nil => simp
  | cons b rest => simp [hr b rfl]

theorem stops_of_blank {p : UInt8 → Bool} (hp : ∀ b, isBlank b = true → p b = false) {after : Bytes}
    (ha : ∀ b ∈ after, isBlank b = true) : Stops p after := fun b hb =>
  hp b (ha b (List.mem_of_mem_head? hb))

def StartsDigit (s : Bytes) : Prop := ∃ d rest, s = d :: rest ∧ isDigit d = true

theorem isBlank_of_isDigit {b : UInt8} (h : isDigit b = true) : isBlank b = false := by
  cases hb : isBlank b with
  | false => rfl
  | true =>
    rw [isDigit_of_isBlank hb] at h
    cases h

theorem IsDecimal.startsDigit {text : Bytes} {m : Nat} (h : IsDecimal text m) (rest : Bytes) :
    StartsDigit (text ++ rest) := by
  obtain ⟨hne, hall, -⟩ := h
  obtain ⟨d, ds, rfl⟩ := List.exists_cons_of_ne_nil hne
  exact ⟨d, ds ++ rest, rfl, hall d (List.mem_cons_self ..)⟩

theorem IsHexadecimal.startsDigit {text : Bytes} {m : Nat} (h : IsHexadecimal text m)
    (rest : Bytes) :
    StartsDigit (text ++ rest) := by
  obtain ⟨x, digits, rfl, -⟩ := h
  exact ⟨_, _, rfl, by decide⟩

theorem sign_append {sign s : Bytes} {negative : Bool} (hs : IsSign negative sign)
    (hd : StartsDigit s) :
    Numeral.sign (sign ++ s) = (negative, s) := by
  obtain ⟨d, rest, rfl, hd⟩ := hd
  cases hs with
  | none => exact sign_digit hd rest
  | plus => rfl
  | minus => rfl

theorem stops_sign {sign s : Bytes} {negative : Bool} (hs : IsSign negative sign)
    (hd : StartsDigit s) :
    Stops isBlank (sign ++ s) := by
  obtain ⟨d, rest, rfl, hd⟩ := hd
  intro b hb
  cases hs <;> cases hb
  · exact isBlank_of_isDigit hd
  · rfl
  · rfl

theorem sign_written {before sign s : Bytes} {negative : Bool} (hb : ∀ b ∈ before, isBlank b = true)
    (hs : IsSign negative sign)
    (hd : StartsDigit s) : Numeral.sign ((before ++ (sign ++ s)).dropWhile isBlank) =
    (negative, s) := by
  rw [(takeWhile_run hb (stops_sign hs hd)).2, sign_append hs hd]

theorem exists_sign (s : Bytes) : ∃ before sign, (∀ b ∈ before, isBlank b = true) ∧
    IsSign (Numeral.sign (s.dropWhile isBlank)).1 sign ∧
    s = before ++ (sign ++ (Numeral.sign (s.dropWhile isBlank)).2) := by
  have hsplit := (List.takeWhile_append_dropWhile (p := isBlank) (l := s)).symm
  generalize s.dropWhile isBlank = r at hsplit ⊢
  have hblank : ∀ b ∈ s.takeWhile isBlank, isBlank b = true := fun b hb => List.mem_takeWhile_imp hb
  generalize s.takeWhile isBlank = before at hsplit hblank
  subst hsplit
  unfold Numeral.sign
  split
  · exact ⟨before, _, hblank, .minus, rfl⟩
  · exact ⟨before, _, hblank, .plus, rfl⟩
  · exact ⟨before, [], hblank, .none, rfl⟩

theorem hexBody?_eq_some {s digits : Bytes} (h : hexBody? s = some digits) :
    ∃ x, s = byte '0' :: x :: digits ∧ (x = byte 'x' ∨ x = byte 'X') := by
  unfold hexBody? at h
  split at h
  · cases h
    exact ⟨_, rfl, .inl rfl⟩
  · cases h
    exact ⟨_, rfl, .inr rfl⟩
  · cases h

theorem hexBody?_hexadecimal {x : UInt8} (hx : x = byte 'x' ∨ x = byte 'X') (s : Bytes) :
    hexBody? (byte '0' :: x :: s) = some s := by
  rcases hx with rfl | rfl <;> rfl

theorem hexBody?_decimal {digits after : Bytes} (hd : ∀ b ∈ digits, isDigit b = true)
    (hne : digits ≠ [])
    (ha : ∀ b ∈ after, isBlank b = true) : hexBody? (digits ++ after) = none := by
  cases h : hexBody? (digits ++ after) with
  | none => rfl
  | some t =>
    obtain ⟨x, hx, hletter⟩ := hexBody?_eq_some h
    obtain ⟨d, ds, rfl⟩ := List.exists_cons_of_ne_nil hne
    have hsecond : isDigit x = true ∨ isBlank x = true := by
      have hmem : x ∈ ds ++ after := by
        rw [show ds ++ after = x :: t from (List.cons.inj hx).2]
        exact List.mem_cons_self ..
      rcases List.mem_append.1 hmem with hm | hm
      · exact .inl (hd x (List.mem_cons_of_mem _ hm))
      · exact .inr (ha x hm)
    rcases hletter with rfl | rfl <;> rcases hsecond with hs | hs <;> cases hs

theorem allBlank_iff {s : Bytes} : allBlank s = true ↔ ∀ b ∈ s, isBlank b = true := List.all_eq_true

theorem digits_written {p : UInt8 → Bool} (hp : ∀ b, isBlank b = true → p b = false)
    {digits after : Bytes}
    (hd : ∀ b ∈ digits, p b = true) (hne : digits ≠ []) (ha : ∀ b ∈ after, isBlank b = true) :
    (digits ++ after).takeWhile p = digits ∧
      (((digits ++ after).takeWhile p).isEmpty || !allBlank ((digits ++ after).dropWhile p)) =
        false := by
  obtain ⟨htake, hdrop⟩ := takeWhile_run hd (stops_of_blank hp ha)
  rw [htake, hdrop, allBlank_iff.2 ha]
  exact ⟨rfl, by simpa using hne⟩

theorem exists_digits {p : UInt8 → Bool} {s : Bytes}
    (h : ¬ ((s.takeWhile p).isEmpty || !allBlank (s.dropWhile p)) = true) :
    s.takeWhile p ≠ [] ∧ (∀ b ∈ s.takeWhile p, p b = true) ∧
      (∀ b ∈ s.dropWhile p, isBlank b = true) := by
  simp only [Bool.or_eq_true, List.isEmpty_iff, Bool.not_eq_true', not_or, Bool.not_eq_false] at h
  exact ⟨h.1, fun b hb => List.mem_takeWhile_imp hb, allBlank_iff.1 h.2⟩

theorem readInt_decimal {s : Bytes} {v : Int} (h : Written IsDecimal s v) :
    readInt s = if -2 ^ 63 ≤ v ∧ v ≤ 2 ^ 63 - 1 then some (Int64.ofInt v) else none := by
  obtain ⟨hb, hs, ht, ha⟩ := h
  rename_i negative m
  obtain ⟨hne, hall, hm⟩ := id ht
  obtain ⟨htake, hcheck⟩ := digits_written (fun _ => isDigit_of_isBlank) hall hne ha
  rw [readInt_eq]
  unfold integer?
  rw [sign_written hb hs (ht.startsDigit _)]
  dsimp only
  rw [hexBody?_decimal hall hne ha]
  dsimp only
  rw [hcheck, htake, ofDigits_eq, ← hm, if_neg Bool.false_ne_true]

theorem readInt_hexadecimal {s : Bytes} {v : Int} (h : Written IsHexadecimal s v) :
    readInt s = some (Int64.ofInt v) := by
  obtain ⟨hb, hs, ht, ha⟩ := h
  rename_i negative m
  obtain ⟨x, digits, rfl, hx, hne, hall, hm⟩ := id ht
  obtain ⟨htake, hcheck⟩ := digits_written (fun _ => isHexDigit_of_isBlank) hall hne ha
  rw [readInt_eq]
  unfold integer?
  rw [sign_written hb hs (ht.startsDigit _)]
  dsimp only [List.cons_append]
  rw [hexBody?_hexadecimal hx]
  dsimp only
  rw [hcheck, htake, ofHexDigits_eq, ← hm, if_neg Bool.false_ne_true]

theorem written_of_readInt {s : Bytes} {n : Int64} (h : readInt s = some n) :
    (∃ v, Written IsDecimal s v) ∨ ∃ v, Written IsHexadecimal s v := by
  obtain ⟨before, sign, hb, hs, hsplit⟩ := exists_sign s
  rw [readInt_eq] at h
  unfold integer? at h
  generalize Numeral.sign (s.dropWhile isBlank) = p at h hs hsplit
  obtain ⟨negative, body⟩ := p
  dsimp only at h hs hsplit
  subst hsplit
  split at h
  · rename_i rest hhex
    obtain ⟨x, rfl, hx⟩ := hexBody?_eq_some hhex
    split at h
    · cases h
    · rename_i hcheck
      obtain ⟨hne, hall, ha⟩ := exists_digits hcheck
      have hw : Written IsHexadecimal _ _ := .intro hb hs
        ⟨x, rest.takeWhile isHexDigit, rfl, hx, hne, hall, rfl⟩ ha
      rw [List.cons_append, List.cons_append, List.takeWhile_append_dropWhile] at hw
      exact .inr ⟨_, hw⟩
  · split at h
    · cases h
    · rename_i hcheck
      obtain ⟨hne, hall, ha⟩ := exists_digits hcheck
      have hw : Written IsDecimal _ _ := .intro hb hs ⟨hne, hall, rfl⟩ ha
      rw [List.takeWhile_append_dropWhile] at hw
      exact .inl ⟨_, hw⟩

theorem read_eq_int {s : Bytes} {n : Int64} : read s = some (.int n) ↔ readInt s = some n := by
  unfold read
  cases readInt s with
  | none => simp [Option.map_eq_some_iff]
  | some m => simp

theorem written_ofInt (v : Int) : Written IsDecimal (Bytes.ofInt v) v := by
  have hdecimal : ∀ m, IsDecimal (Bytes.ofNat m) m := by
    intro m
    obtain ⟨d, ds, hds⟩ := ofNat_eq_cons m
    exact ⟨by simp [hds], isDigit_ofNat m, by rw [← ofDigits_eq, ofDigits_ofNat]⟩
  cases v with
  | ofNat m =>
    have hw := Written.between [] [] nofun .none (hdecimal m) nofun
    rwa [List.append_nil] at hw
  | negSucc m =>
    have hw := Written.between [] [] nofun .minus (hdecimal (m + 1)) nofun
    rwa [List.append_nil] at hw

theorem trimBlank_written {before text after : Bytes} (hb : ∀ b ∈ before, isBlank b = true)
    (hfirst : Stops isBlank (text ++ after))
    (hlast : Stops isBlank text.reverse) (ha : ∀ b ∈ after, isBlank b = true) :
    trimBlank (before ++ (text ++ after)) = text := by
  have ha' : ∀ b ∈ after.reverse, isBlank b = true := fun b hb => ha b (List.mem_reverse.1 hb)
  rw [trimBlank, (takeWhile_run hb hfirst).2, List.reverse_append, (takeWhile_run ha' hlast).2,
    List.reverse_reverse]

theorem readFloat_decimal {s : Bytes} {v : Int} (h : Written IsDecimal s v) :
    ∃ x, readFloat s = some x := by
  obtain ⟨hb, hs, ht, ha⟩ := h
  rename_i before sign text after negative m
  obtain ⟨hne, hall, -⟩ := id ht
  have hfirst : Stops isBlank ((sign ++ text) ++ after) := by
    rw [List.append_assoc]
    exact stops_sign hs (ht.startsDigit after)
  have hlast : Stops isBlank (sign ++ text).reverse := by
    intro b hb
    rw [List.reverse_append, List.head?_append_of_ne_nil _ (by simpa using hne)] at hb
    exact isBlank_of_isDigit (hall b (List.mem_reverse.1 (List.mem_of_mem_head? hb)))
  have hsign : Numeral.sign (sign ++ text) = (negative, text) := by
    have hstart := ht.startsDigit []
    rw [List.append_nil] at hstart
    exact sign_append hs hstart
  have hhex : hexBody? text = none := hexBody?_digits hall
  have htake : text.takeWhile isDigit = text := List.takeWhile_eq_self_iff.2 hall
  have hdrop : text.dropWhile isDigit = [] := List.dropWhile_eq_nil_iff.2 hall
  unfold readFloat
  rw [← List.append_assoc sign, trimBlank_written hb hfirst hlast ha, hsign]
  dsimp only
  rw [hhex]
  dsimp only
  unfold readDecimal
  dsimp only
  rw [htake, hdrop]
  dsimp only
  rw [List.append_nil, if_neg (by simpa using hne)]
  exact ⟨_, rfl⟩

/-- Which texts denote which integers: decimal numerals in range with their value, and hexadecimal
numerals with their value modulo `2 ^ 64`. So the text of an integer denotes it, and a decimal
numeral out of range is not cut off to an integer but denotes a float. -/
theorem integers_read_exactly :
    (∀ (s : Bytes) (n : Int64), read s = some (.int n) ↔
      (∃ v, Written IsDecimal s v ∧ -2 ^ 63 ≤ v ∧ v ≤ 2 ^ 63 - 1 ∧ n.toInt = v) ∨
      ∃ v, Written IsHexadecimal s v ∧ n.toInt = v.bmod (2 ^ 64)) ∧
    (∀ n : Int64, read (Value.num (.int n)).text = some (.int n)) ∧
    ∀ (s : Bytes) (v : Int), Written IsDecimal s v → v < -2 ^ 63 ∨ 2 ^ 63 - 1 < v →
      ∃ x, read s = some (.float x) := by
  refine ⟨fun s n => ?_, fun n => ?_, fun s v hw hrange => ?_⟩
  · rw [read_eq_int]
    constructor
    · intro h
      rcases written_of_readInt h with ⟨v, hw⟩ | ⟨v, hw⟩
      · rw [readInt_decimal hw] at h
        split at h
        · rename_i hrange
          refine .inl ⟨v, hw, hrange.1, hrange.2, ?_⟩
          rw [← Option.some.inj h, Int64.toInt_ofInt_of_le (by omega) (by omega)]
        · cases h
      · rw [readInt_hexadecimal hw] at h
        rw [← Option.some.inj h]
        exact .inr ⟨v, hw, Int64.toInt_ofInt⟩
    · rintro (⟨v, hw, hlow, hhigh, hn⟩ | ⟨v, hw, hn⟩)
      · rw [readInt_decimal hw, if_pos ⟨hlow, hhigh⟩, ← hn, Int64.ofInt_toInt]
      · rw [readInt_hexadecimal hw]
        exact congrArg some (Int64.toInt_inj.1 (Int64.toInt_ofInt.trans hn.symm))
  · have hrange : -2 ^ 63 ≤ n.toInt ∧ n.toInt ≤ 2 ^ 63 - 1 :=
      ⟨n.le_toInt, Int.le_sub_one_of_lt n.toInt_lt⟩
    rw [read_eq_int, Value.text, Number.text, readInt_decimal (written_ofInt n.toInt),
      if_pos hrange, Int64.ofInt_toInt]
  · obtain ⟨x, hx⟩ := readFloat_decimal hw
    have hnot : ¬ (-2 ^ 63 ≤ v ∧ v ≤ 2 ^ 63 - 1) := by omega
    refine ⟨x, ?_⟩
    rw [read, readInt_decimal hw, if_neg hnot, hx]
    rfl

/-- The least integer, a hexadecimal numeral that wraps around, and the first decimal numeral that
does not fit. -/
theorem integers_read_exactly_edges :
    read (utf8 " -9223372036854775808\n") = some (.int Int64.minValue) ∧
    read (utf8 "-0x10000000000000001") = some (.int (-1)) ∧
    ∃ x, read (utf8 "9223372036854775808") = some (.float x) := by
  have hlarge : IsDecimal (utf8 "9223372036854775808") 9223372036854775808 :=
    ⟨by decide, by decide +kernel, by decide +kernel⟩
  have hdigits : IsHexadecimal (utf8 "0x10000000000000001") 18446744073709551617 :=
    ⟨byte 'x',
      utf8 "10000000000000001", by
      decide, .inl rfl, by decide, by decide +kernel, by decide +kernel⟩
  have hleast : Written IsDecimal (utf8 " -9223372036854775808\n") (-9223372036854775808) :=
    .between (utf8 " ") (utf8 "\n") (by decide +kernel) .minus hlarge (by decide +kernel)
  have hwraps : Written IsHexadecimal (utf8 "-0x10000000000000001") (-18446744073709551617) :=
    .between [] [] (List.forall_mem_nil _) .minus hdigits (List.forall_mem_nil _)
  have hpast : Written IsDecimal (utf8 "9223372036854775808") 9223372036854775808 :=
    .between [] [] (List.forall_mem_nil _) .none hlarge (List.forall_mem_nil _)
  exact ⟨(integers_read_exactly.1 _ _).2 (.inl ⟨_, hleast, by decide, by decide, by decide⟩),
    (integers_read_exactly.1 _ _).2 (.inr ⟨_, hwraps, by decide⟩),
    integers_read_exactly.2.2 _ _ hpast (.inr (by decide))⟩

end LuaChunk.Numeral
