import Mathlib.Algebra.Group.Nat.Defs
import Mathlib.Data.List.TakeWhile
import LuaChunk.Proofs.Number.Word
import LuaChunk.Proofs.Source.Spacing
import LuaChunk.Proofs.Source.Stream

/-!
Words: tokens that can be written down. Each is read back from its text, to its end and not further,
if a blank or a newline follows it or nothing at all. Such a byte belongs to no token, so no longer
symbol and no longer number is read.
-/

set_option autoImplicit false

namespace LuaChunk

open Scan (isNewline isLetter isNameByte)

/-- Whether a text is a name: a letter, then letters and digits, and not a reserved word. -/
def IsName (s : Bytes) : Prop :=
  (∃ b, s.head? = some b ∧ isLetter b = true) ∧ (∀ b ∈ s, isNameByte b = true) ∧
    Keyword.isReserved s = false

def marks : List UInt8 := utf8 "+-*/%^#&~|<>=()\x7b\x7d[];:,."

def escaped (b : UInt8) : Bytes :=
  [byte '\\', Bytes.digit (b.toNat / 100), Bytes.digit (b.toNat / 10), Bytes.digit b.toNat]

/-- What stands around a quoted string. -/
inductive Quote where
  | single | double
  deriving DecidableEq, Repr

def Quote.byte : Quote → UInt8
  | .single => 39
  | .double => 34

inductive Word where
  | name (s : Bytes) (h : IsName s)
  | keyword (k : Keyword)
  | symbol (s : Symbol)
  | mark (b : UInt8) (h : b ∈ marks)
  | integer (n : Nat) (h : n < 2 ^ 63)
  | string (q : Quote) (s : Bytes)

namespace Word

/-- The word as it is written. -/
def text : Word → Bytes
  | .name s _ => s
  | .keyword k => k.text
  | .symbol s => s.text
  | .mark b _ => [b]
  | .integer n _ => Bytes.ofNat n
  | .string q s => [q.byte] ++ s.flatMap escaped ++ [q.byte]

/-- The token that the word stands for. -/
def token : Word → Token
  | .name s _ => .name s
  | .keyword k => .word k
  | .symbol s => .symbol s
  | .mark b _ => .byte b
  | .integer n _ => .integer (Int64.ofNat n) (Bytes.ofNat n)
  | .string q s => .string s ([q.byte] ++ s ++ [q.byte])

def lexeme : Word → Scan.Lexeme
  | .name s _ => .word s
  | .keyword k => .word k.text
  | .symbol s => .symbol s
  | .mark b _ => .byte b
  | .integer n _ => .number (.int (Int64.ofNat n)) (Bytes.ofNat n)
  | .string q s => .string s ([q.byte] ++ s ++ [q.byte])

/-- The room that the word takes, if that is not bounded. In a quoted string an escape is held
together with what comes before it. -/
def room : Word → Nat
  | .name s _ => s.length
  | .string _ s => s.length + 4
  | _ => 0

end Word

theorem isDigit_iff {b : UInt8} : Numeral.isDigit b = true ↔ 48 ≤ b.toNat ∧ b.toNat ≤ 57 := by
  simp only [Numeral.isDigit, Bool.and_eq_true, decide_eq_true_eq, UInt8.le_iff_toNat_le]
  rfl

theorem isBlank_iff {b : UInt8} : Text.isBlank b = true ↔ b.toNat = 32 ∨ 9 ≤ b.toNat ∧
    b.toNat ≤ 13 := by
  simp only [Text.isBlank, Bool.or_eq_true, Bool.and_eq_true, beq_iff_eq, decide_eq_true_eq,
    UInt8.le_iff_toNat_le,
    ← UInt8.toNat_inj]
  rfl

theorem isLetter_iff {b : UInt8} : isLetter b = true ↔
    (b.toNat = 95 ∨ 97 ≤ b.toNat ∧ b.toNat ≤ 122) ∨ 65 ≤ b.toNat ∧ b.toNat ≤ 90 := by
  simp only [isLetter, Bool.or_eq_true, Bool.and_eq_true, beq_iff_eq, decide_eq_true_eq,
    UInt8.le_iff_toNat_le,
    ← UInt8.toNat_inj]
  rfl

theorem isDigit_of_isBlank {b : UInt8} (h : Text.isBlank b = true) : Numeral.isDigit b = false := by
  rw [isBlank_iff] at h
  rw [Bool.eq_false_iff, Ne, isDigit_iff]
  omega

theorem isLetter_of_isBlank {b : UInt8} (h : Text.isBlank b = true) : isLetter b = false := by
  rw [isBlank_iff] at h
  rw [Bool.eq_false_iff, Ne, isLetter_iff]
  omega

theorem isHexDigit_of_isBlank {b : UInt8} (h : Text.isBlank b = true) :
    Numeral.isHexDigit b = false := by
  have hd := isDigit_of_isBlank h
  rw [isBlank_iff] at h
  have ha : (byte 'a' ≤ b) = False := by
    rw [UInt8.le_iff_toNat_le, show (byte 'a').toNat = 97 from rfl]
    exact eq_false (by omega)
  have hA : (byte 'A' ≤ b) = False := by
    rw [UInt8.le_iff_toNat_le, show (byte 'A').toNat = 65 from rfl]
    exact eq_false (by omega)
  simp [Numeral.isHexDigit, Numeral.hexValue?, hd, ha, hA]

theorem isNameByte_of_isBlank {b : UInt8} (h : Text.isBlank b = true) : isNameByte b = false := by
  simp [isNameByte, isDigit_of_isBlank h, isLetter_of_isBlank h]

theorem isDigit_of_isLetter {b : UInt8} (h : isLetter b = true) : Numeral.isDigit b = false := by
  rw [isLetter_iff] at h
  rw [Bool.eq_false_iff, Ne, isDigit_iff]
  omega

theorem toNat_digit (n : Nat) : (Bytes.digit n).toNat = 48 + n % 10 := by
  have := Nat.mod_lt n (show 0 < 10 by decide)
  simp only [Bytes.digit, UInt8.toNat_ofNat']
  omega

theorem isDigit_digit (n : Nat) : Numeral.isDigit (Bytes.digit n) = true := by
  have := Nat.mod_lt n (show 0 < 10 by decide)
  rw [isDigit_iff, toNat_digit]
  omega

theorem digitValue_digit (n : Nat) : Numeral.digitValue (Bytes.digit n) = n % 10 := by
  rw [Numeral.digitValue, toNat_digit]
  omega

theorem ne_of_isDigit {b c : UInt8} (h : Numeral.isDigit b = true)
    (hc : Numeral.isDigit c = false) : b ≠ c := by
  rintro rfl
  rw [h] at hc
  cases hc

theorem isHexDigit_of_isDigit {b : UInt8} (h : Numeral.isDigit b = true) :
    Numeral.isHexDigit b = true := by
  simp [Numeral.isHexDigit, Numeral.hexValue?, h]

theorem isDigit_ofNat (n : Nat) : ∀ b ∈ Bytes.ofNat n, Numeral.isDigit b = true := by
  induction n using Nat.strongRecOn with
  | ind n ih =>
    intro b hb
    unfold Bytes.ofNat at hb
    split at hb
    · rw [List.mem_singleton.1 hb]
      exact isDigit_digit n
    · rcases List.mem_append.1 hb with hb | hb
      · exact ih (n / 10) (by omega) b hb
      · rw [List.mem_singleton.1 hb]
        exact isDigit_digit n

theorem ofNat_eq_cons (n : Nat) : ∃ d ds, Bytes.ofNat n = d :: ds := by
  unfold Bytes.ofNat
  split
  · exact ⟨_, _, rfl⟩
  · cases Bytes.ofNat (n / 10) with
    | nil => exact ⟨_, _, rfl⟩
    | cons d ds => exact ⟨_, _, rfl⟩

theorem length_ofNat_le {n k : Nat} (h : n < 10 ^ (k + 1)) : (Bytes.ofNat n).length ≤ k + 1 := by
  induction k generalizing n with
  | zero =>
    unfold Bytes.ofNat
    rw [if_pos (by exact h)]
    exact Nat.le_refl _
  | succ k ih =>
    have hdiv : n / 10 < 10 ^ (k + 1) :=
      Nat.div_lt_of_lt_mul (by rw [Nat.mul_comm, ← Nat.pow_succ]; exact h)
    unfold Bytes.ofNat
    split
    · exact Nat.le_add_left 1 _
    · rw [List.length_append, List.length_singleton]
      exact Nat.succ_le_succ (ih hdiv)

theorem ofDigits_append (s : Bytes) (b : UInt8) :
    Numeral.ofDigits (s ++ [b]) = Numeral.ofDigits s * 10 + Numeral.digitValue b := by
  simp [Numeral.ofDigits]

theorem ofDigits_ofNat (n : Nat) : Numeral.ofDigits (Bytes.ofNat n) = n := by
  induction n using Nat.strongRecOn with
  | ind n ih =>
    unfold Bytes.ofNat
    split
    · simp only [Numeral.ofDigits, List.foldl_cons, List.foldl_nil, digitValue_digit]
      omega
    · rw [ofDigits_append, ih (n / 10) (by omega), digitValue_digit]
      omega

theorem sign_digit {d : UInt8} (hd : Numeral.isDigit d = true) (ds : Bytes) :
    Numeral.sign (d :: ds) = (false, d :: ds) := by
  unfold Numeral.sign
  split
  · rename_i h
    cases h
    cases hd
  · rename_i h
    cases h
    cases hd
  · rfl

theorem hexBody?_digits {s : Bytes} (hs : ∀ b ∈ s, Numeral.isDigit b = true) :
    Numeral.hexBody? s = none := by
  unfold Numeral.hexBody?
  split
  · cases hs 120 (by simp)
  · cases hs 88 (by simp)
  · rfl

theorem read_ofNat {n : Nat} (hn : n < 2 ^ 63) :
    Numeral.read (Bytes.ofNat n) = some (.int (Int64.ofNat n)) := by
  obtain ⟨d, ds, hds⟩ := ofNat_eq_cons n
  have hall := isDigit_ofNat n
  have hvalue := ofDigits_ofNat n
  rw [hds] at hall hvalue ⊢
  have hd := hall d (List.mem_cons_self ..)
  have hblank : Text.isBlank d = false := by
    cases h : Text.isBlank d with
    | false => rfl
    | true => rw [isDigit_of_isBlank h] at hd; cases hd
  have htake : (d :: ds).takeWhile Numeral.isDigit = d :: ds := List.takeWhile_eq_self_iff.2 hall
  have hdrop : (d :: ds).dropWhile Numeral.isDigit = [] := List.dropWhile_eq_nil_iff.2 hall
  have hint : Numeral.readInt (d :: ds) = some (Int64.ofNat n) := by
    rw [Numeral.readInt_eq]
    unfold Numeral.integer?
    rw [List.dropWhile_cons, hblank, if_neg (by simp), sign_digit hd]
    dsimp only
    rw [hexBody?_digits hall]
    dsimp only
    have hsigned : Numeral.signed false n = n := rfl
    rw [htake, hdrop, hvalue, hsigned, if_neg (by simp [Numeral.allBlank]), if_pos (by omega)]
    simp [Int64.ofInt, Int64.ofNat]
  unfold Numeral.read
  rw [hint]

/-- A text that a word may stand before: it is empty or starts with a blank or a newline. -/
def Clear (s : Bytes) : Prop := ∀ b, s.head? = some b → Text.isBlank b = true

section

variable {rest : Bytes} (hr : Clear rest) (line : Nat)

include hr

theorem clear_ne {b c : UInt8} {s : Bytes} (h : rest = b :: s) (hc : Text.isBlank c = false) :
    b ≠ c := by
  rintro rfl
  rw [hr b (by rw [h]; rfl)] at hc
  cases hc

theorem lexeme_symbol (s : Symbol) :
    Scan.lexeme (s.text ++ rest) line = .ok (.symbol s, ⟨rest, line⟩) := by
  cases s with
  | concat =>
    cases h : rest with
    | nil => rfl
    | cons c t =>
      have hc : c ≠ byte '.' := clear_ne hr h (by decide)
      show Scan.points (byte '.' :: c :: t) line = _
      simp [Scan.points, hc]
  | _ => rfl

theorem bracket_clear : Scan.bracket rest line = .ok (.byte (byte '['), ⟨rest, line⟩) := by
  cases h : rest with
  | nil => rfl
  | cons c t =>
    have heq : (c == byte '=') = false := beq_eq_false_iff_ne.2 (clear_ne hr h (by decide))
    have hb : c ≠ byte '[' := clear_ne hr h (by decide)
    simp [Scan.bracket, Scan.openBracket?, heq, hb]

theorem twoBytes_clear {b second : UInt8} {double : Symbol} (h : Text.isBlank second = false) :
    Scan.twoBytes b second double rest line = (.byte b, ⟨rest, line⟩) := by
  cases hrest : rest with
  | nil => rfl
  | cons c t => simp [Scan.twoBytes, clear_ne hr hrest h]

theorem twoBytesOf_clear {b c d : UInt8} {s t : Symbol} (hc : Text.isBlank c = false)
    (hd : Text.isBlank d = false) :
    Scan.twoBytesOf b [(c, s), (d, t)] rest line = (.byte b, ⟨rest, line⟩) := by
  cases hrest : rest with
  | nil => rfl
  | cons x u =>
    have hxc : (x == c) = false := beq_eq_false_iff_ne.2 (clear_ne hr hrest hc)
    have hxd : (x == d) = false := beq_eq_false_iff_ne.2 (clear_ne hr hrest hd)
    simp [Scan.twoBytesOf, List.lookup_cons, hxc, hxd]

theorem points_clear : Scan.points rest line = .ok (.byte (byte '.'), ⟨rest, line⟩) := by
  cases h : rest with
  | nil => rfl
  | cons c t =>
    have hc : c ≠ byte '.' := clear_ne hr h (by decide)
    have hd : Numeral.isDigit c = false := isDigit_of_isBlank (hr c (by rw [h]; rfl))
    simp [Scan.points, hc, hd]

theorem lexeme_mark {b : UInt8} (h : b ∈ marks) :
    Scan.lexeme ([b] ++ rest) line = .ok (.byte b, ⟨rest, line⟩) := by
  have hbracket := bracket_clear hr line
  have hpoints := points_clear hr line
  rw [show marks = [43, 45, 42, 47, 37, 94, 35, 38, 126, 124, 60, 62, 61, 40, 41, 123, 125, 91, 93,
    59, 58, 44, 46] by
    decide] at h
  simp only [List.mem_cons, List.not_mem_nil, or_false] at h
  rcases h with rfl
      | rfl
      | rfl | rfl | rfl | rfl | rfl | rfl | rfl | rfl | rfl | rfl | rfl | rfl | rfl | rfl | rfl |
    rfl | rfl | rfl | rfl | rfl | rfl
  · rfl
  · rfl
  · rfl
  · exact congrArg Except.ok (twoBytes_clear hr line (by decide))
  · rfl
  · rfl
  · rfl
  · rfl
  · exact congrArg Except.ok (twoBytes_clear hr line (by decide))
  · rfl
  · exact congrArg Except.ok (twoBytesOf_clear hr line (by decide) (by decide))
  · exact congrArg Except.ok (twoBytesOf_clear hr line (by decide) (by decide))
  · exact congrArg Except.ok (twoBytes_clear hr line (by decide))
  · rfl
  · rfl
  · rfl
  · rfl
  · exact hbracket
  · rfl
  · rfl
  · exact congrArg Except.ok (twoBytes_clear hr line (by decide))
  · rfl
  · exact hpoints

theorem takeWhile_name {s : Bytes} (hs : ∀ b ∈ s, isNameByte b = true) :
    (s ++ rest).takeWhile isNameByte = s ∧ (s ++ rest).dropWhile isNameByte = rest := by
  rw [List.takeWhile_append_of_pos hs, List.dropWhile_append_of_pos hs]
  cases h : rest with
  | nil => simp
  | cons c t =>
    have hc := isNameByte_of_isBlank (hr c (by rw [h]; rfl))
    simp [hc]

theorem lexeme_word {b : UInt8} {s : Bytes} (hb : isLetter b = true)
    (hs : ∀ c ∈ b :: s, isNameByte c = true) :
    Scan.lexeme (b :: s ++ rest) line = .ok (.word (b :: s), ⟨rest, line⟩) := by
  have hne : ∀ {c : UInt8}, isLetter c = false → b ≠ c := by
    rintro c hc rfl
    rw [hb] at hc
    cases hc
  have hd := isDigit_of_isLetter hb
  obtain ⟨ht, hr⟩ := takeWhile_name hr hs
  rw [List.cons_append] at ht hr ⊢
  unfold Scan.lexeme
  dsimp only
  rw [if_neg (hne (by decide)), if_neg (hne (by decide)), if_neg (hne (by decide)),
    if_neg (hne (by decide)),
    if_neg (hne (by decide)), if_neg (hne (by decide)), if_neg (hne (by decide)), if_neg (by
      simp [hne (c := byte '"') (by decide), hne (c := 39) (by decide)]), if_neg (hne (by decide)),
        if_neg (by simp [hd]),
    if_pos hb, ht, hr]

theorem numeralText_digits {ds : Bytes} (hd : ∀ b ∈ ds, Numeral.isDigit b = true) (acc : Bytes) :
    Scan.numeralText false acc (ds ++ rest) = (acc.reverse ++ ds, rest) := by
  induction ds generalizing acc with
  | nil =>
    cases h : rest with
    | nil => simp [Scan.numeralText]
    | cons c t =>
      have hc := hr c (by rw [h]; rfl)
      have he : c ≠ byte 'e' := clear_ne hr h (by decide)
      have hE : c ≠ byte 'E' := clear_ne hr h (by decide)
      have hp : c ≠ byte '.' := clear_ne hr h (by decide)
      rw [Scan.numeralText.eq_def]
      simp [he, hE, hp, isHexDigit_of_isBlank hc]
  | cons d ds ih =>
    have hdd := hd d (List.mem_cons_self ..)
    have he : d ≠ byte 'e' := ne_of_isDigit hdd (by decide)
    have hE : d ≠ byte 'E' := ne_of_isDigit hdd (by decide)
    rw [List.cons_append, Scan.numeralText.eq_def]
    simp [he, hE, isHexDigit_of_isDigit hdd, ih fun b hb => hd b (List.mem_cons_of_mem _ hb)]

theorem numeralExtent_digits {d : UInt8} {ds : Bytes} (hd : ∀ b ∈ ds, Numeral.isDigit b = true) :
    Scan.numeralExtent [] d (ds ++ rest) = (d :: ds, rest) := by
  have hplain := numeralText_digits hr hd [d]
  have hend : ∀ b more, rest = b :: more → isLetter b = false :=
    fun b more h => isLetter_of_isBlank (hr b (by rw [h]; rfl))
  have hbase : ∀ x body, ds ++ rest = x :: body → (x = byte 'x' || x = byte 'X') = false := by
    intro x body h
    cases ds with
    | nil =>
      simp [clear_ne hr h (c := byte 'x') (by decide), clear_ne hr h (c := byte 'X') (by decide)]
    | cons c ds =>
      cases h
      have hc := hd x (List.mem_cons_self ..)
      simp [ne_of_isDigit hc (c := byte 'x') (by decide),
        ne_of_isDigit hc (c := byte 'X') (by decide)]
  unfold Scan.numeralExtent
  rw [List.reverse_nil, hplain]
  cases hs : ds ++ rest with
  | nil =>
    have hnil := (List.append_eq_nil_iff.1 hs).2
    simp [hnil]
  | cons x body =>
    simp only [hbase x body hs, Bool.and_false]
    cases hr' : rest with
    | nil => rfl
    | cons b more => simp [hend b more hr']

omit hr in
theorem lexeme_digit {b : UInt8} (hb : Numeral.isDigit b = true) (s : Bytes) :
    Scan.lexeme (b :: s) line = Scan.numeral [] b s line := by
  have hne : ∀ {c : UInt8}, Numeral.isDigit c = false → b ≠ c := ne_of_isDigit hb
  unfold Scan.lexeme
  dsimp only
  rw [if_neg (hne (by decide)), if_neg (hne (by decide)), if_neg (hne (by decide)),
    if_neg (hne (by decide)),
    if_neg (hne (by decide)), if_neg (hne (by decide)), if_neg (hne (by decide)), if_neg (by
      simp [hne (c := byte '"') (by decide), hne (c := 39) (by decide)]), if_neg (hne (by decide)),
        if_pos hb]

theorem lexeme_integer {n : Nat} (hn : n < 2 ^ 63) :
    Scan.lexeme (Bytes.ofNat n ++ rest) line
      = .ok (.number (.int (Int64.ofNat n)) (Bytes.ofNat n), ⟨rest, line⟩) := by
  obtain ⟨d, ds, hds⟩ := ofNat_eq_cons n
  have hall := isDigit_ofNat n
  have hread := read_ofNat hn
  rw [hds] at hall hread ⊢
  have hd := hall d (List.mem_cons_self ..)
  have hextent : Scan.numeralExtent [] d (ds ++ rest) = (d :: ds, rest) :=
    numeralExtent_digits hr fun b hb => hall b (List.mem_cons_of_mem _ hb)
  rw [List.cons_append, lexeme_digit line hd]
  unfold Scan.numeral
  rw [hextent]
  dsimp only
  rw [hread]

omit hr in
theorem escape_escaped (b : UInt8) (s : Bytes) :
    Scan.escape (Bytes.digit (b.toNat / 100))
      (Bytes.digit (b.toNat / 10) :: Bytes.digit b.toNat :: s) line
      = .ok ([b], ⟨s, line⟩) := by
  have hlt := b.toNat_lt
  have hd := isDigit_digit (b.toNat / 100)
  have hne : ∀ {c : UInt8}, Numeral.isDigit c = false → Bytes.digit (b.toNat / 100) ≠ c :=
    ne_of_isDigit hd
  have hvalue : Numeral.ofDigits
      [Bytes.digit (b.toNat / 100), Bytes.digit (b.toNat / 10), Bytes.digit b.toNat]
      = b.toNat := by
    simp only [Numeral.ofDigits, List.foldl_cons, List.foldl_nil, digitValue_digit]
    omega
  unfold Scan.escape
  have hsimple : Scan.simpleEscape? (Bytes.digit (b.toNat / 100)) = none := by
    unfold Scan.simpleEscape?
    rw [if_neg (hne (by decide)), if_neg (hne (by decide)), if_neg (hne (by decide)),
      if_neg (hne (by decide)),
      if_neg (hne (by decide)), if_neg (hne (by decide)), if_neg (hne (by decide)), if_neg]
    simp [hne (c := byte '"') (by decide), hne (c := 39) (by decide),
      hne (c := byte '\\') (by decide)]
  rw [hsimple]
  dsimp only
  rw [if_neg (hne (by decide)), if_neg (hne (by decide)), if_neg, if_neg (hne (by decide)),
    if_pos hd]
  · have hdigits := isDigit_digit (b.toNat / 10)
    have hlast := isDigit_digit b.toNat
    unfold Scan.decimalEscape
    simp only [List.take_succ_cons, List.take_zero, List.takeWhile_cons, hd, hdigits, hlast,
      if_true, List.takeWhile_nil]
    rw [hvalue, if_pos (by omega)]
    simp
  · simp [isNewline, hne (c := 10) (by decide), hne (c := 13) (by decide)]

omit hr in
theorem lexeme_quote (q : Quote) (s : Bytes) :
    Scan.lexeme (q.byte :: s) line = (match Scan.quotedText q.byte s line [q.byte] with
      | .ok (text, c) => .ok (.string (text.drop 1) (text ++ [q.byte]), c)
      | .error f => .error f) := by
  cases q <;> rfl

end

namespace Reader

variable {small : Prop} {b : UInt8} {s rest t : Bytes} {line : Nat}

theorem lexeme_fits {x : Scan.Lexeme} (hb : b ≠ byte '"' ∧ b ≠ 39) (hline : small → line < maxLines)
    (hneed : small → need b s ≤ maxTokenSize)
    (h : Scan.lexeme (b :: s) line = .ok (x, ⟨rest, line⟩)) :
    Agrees small (placed ((on (b :: s) line []).lexeme b)) (.ok (x, ⟨rest, line⟩)) := by
  have hread : Agrees small (placed ((on (b :: s) line []).lexeme b)) _ := lexeme_agrees fun hs =>
    ⟨hb, hneed hs, by rw [h]; exact hline hs⟩
  rwa [h] at hread

theorem lexeme_letter (hb : isLetter b = true) (r : Reader) :
    r.lexeme b = saveWhile isNameByte 0 r >>= fun p => .ok (.word p.2.text, p.2) := by
  have hne {c : UInt8} (hc : isLetter c = false) : b ≠ c := by
    rintro rfl
    exact Bool.false_ne_true (hc.symm.trans hb)
  have hquote : ¬(b = byte '"' || b = 39) = true := by
    simp [hne (c := byte '"') (by decide), hne (c := 39) (by decide)]
  unfold lexeme
  rw [if_neg (hne (by decide)), if_neg (hne (by decide)), if_neg (hne (by decide)),
    if_neg (hne (by decide)),
    if_neg (hne (by decide)), if_neg (hne (by decide)), if_neg (hne (by decide)), if_neg hquote,
      if_neg (hne (by decide)),
    if_neg (by simp [isDigit_of_isLetter hb]), if_pos hb]
  rfl

theorem need_letter (hb : isLetter b = true) :
    need b s = ((b :: s).takeWhile isNameByte).length := by
  have hne {c : UInt8} (hc : isLetter c = false) : b ≠ c := by
    rintro rfl
    exact Bool.false_ne_true (hc.symm.trans hb)
  unfold need
  rw [if_neg (hne (by decide)), if_neg (hne (by decide)), if_neg (by simp [isDigit_of_isLetter hb]),
    if_pos hb]

theorem need_digit (hb : Numeral.isDigit b = true) :
    need b s = (Scan.numeralExtent [] b s).1.length := by
  unfold need
  rw [if_neg (ne_of_isDigit hb (by decide)), if_neg (ne_of_isDigit hb (by decide)), if_pos hb]

theorem need_clear (hr : Clear rest) (hd : Numeral.isDigit b = false) (hl : isLetter b = false) :
    need b rest ≤ 3 := by
  unfold need
  rw [if_neg (c := Numeral.isDigit b = true) (by simp [hd]),
    if_neg (c := isLetter b = true) (by simp [hl])]
  cases rest with
  | nil =>
    split
    · decide
    · split <;> decide
  | cons c t =>
    have hc := hr c rfl
    have hsign : (c == byte '=') = false := beq_eq_false_iff_ne.2 (clear_ne hr rfl (by decide))
    have hbracket : c ≠ byte '[' := clear_ne hr rfl (by decide)
    split
    · simp [Scan.bracketNeed, Scan.openBracket?, hsign, hbracket]
    · simp only [isDigit_of_isBlank hc]
      split
      · exact Nat.le_of_eq (if_neg Bool.false_ne_true)
      · decide

theorem quotedBody_escaped (q : Quote)
    (h : small → t.length + s.length + 3 ≤ maxTokenSize ∧ line < maxLines) :
    Agrees small (quotedBody q.byte (on (s.flatMap escaped ++ [q.byte] ++ rest) line t))
      (.ok (on (q.byte :: rest) line (t ++ s))) := by
  induction s generalizing t with
  | nil =>
    rw [List.append_nil, quotedBody_eq]
    exact .of_eq (if_pos rfl)
  | cons b s ih =>
    have hstart : (b :: s).flatMap escaped ++ [q.byte] ++ rest
        = byte '\\' :: Bytes.digit (b.toNat / 100) ::
          (Bytes.digit (b.toNat / 10) :: Bytes.digit b.toNat ::
          (s.flatMap escaped ++ [q.byte] ++ rest)) := by simp [escaped]
    have hquote : byte '\\' ≠ q.byte := by cases q <;> decide
    have hheld : held (Bytes.digit (b.toNat / 100))
        (Bytes.digit (b.toNat / 10) :: Bytes.digit b.toNat ::
        (s.flatMap escaped ++ [q.byte] ++ rest)) (s.flatMap escaped ++ [q.byte] ++ rest) ≤ 4 := by
      unfold held
      split
      · decide
      · split
        · simp only [List.length_cons]
          omega
        · simp only [List.length_cons]
          omega
    have hescape := escape_agrees t fun (hs : small) =>
      ⟨_, escape_escaped line b (s.flatMap escaped ++ [q.byte] ++ rest), by
        have hfits := h hs
        rw [List.length_cons] at hfits
        exact ⟨Nat.le_trans (Nat.add_le_add_left hheld _) (by omega), hfits.2⟩⟩
    rw [escape_escaped] at hescape
    rw [hstart]
    refine quotedBody_escape hquote hescape ?_
    have hrest := ih (t := t ++ [b]) fun hs => by
      have hfits := h hs
      simp only [List.length_append, List.length_cons, List.length_nil] at hfits ⊢
      exact ⟨by omega, hfits.2⟩
    simpa [List.append_assoc] using hrest

theorem lexeme_quote (q : Quote) (r : Reader) : r.lexeme q.byte = r.quoted q.byte := by
  cases q <;> rfl

theorem quoted_escaped (q : Quote) (h : small → s.length + 4 ≤ maxTokenSize ∧ line < maxLines) :
    Agrees small (placed ((on ([q.byte]
      ++ s.flatMap escaped ++ [q.byte] ++ rest) line []).lexeme q.byte))
      (.ok (.string s ([q.byte] ++ s ++ [q.byte]), ⟨rest, line⟩)) := by
  have hbody : Agrees small
      (quotedBody q.byte (on (s.flatMap escaped ++ [q.byte] ++ rest) line [q.byte])) _ :=
    quotedBody_escaped q fun hs => by
    have hfits := h hs
    rw [List.length_singleton]
    exact ⟨by omega, hfits.2⟩
  rw [lexeme_quote]
  exact quoted_body (c := ⟨rest, line⟩) hbody fun hs => by
    have hfits := h hs
    omega

end Reader

namespace Word

theorem tokenOf_lexeme (w : Word) : Lexer.tokenOf Keyword.number w.lexeme = w.token := by
  cases w with
  | name s h =>
    have hmem : s ∉ Keyword.words := fun hm => by simpa [Keyword.isReserved, hm] using h.2.2
    have hs : Keyword.number s = 0 := by rw [Keyword.number, List.idxOf?_eq_none_iff.2 hmem]
    simp [lexeme, token, Lexer.tokenOf, hs]
  | keyword k =>
    have hn : Keyword.number k.text = k.ctorIdx + 1 := by cases k <;> decide
    have hk : TokenKind.named[k.ctorIdx]? = some (.word k) :=
      (show ∀ k ∈ Keyword.all.toList,
        TokenKind.named[k.ctorIdx]? = some (.word k) by decide +kernel) k
        (by cases k <;> decide)
    simp [lexeme, token, Lexer.tokenOf, hn, hk, Token.ofKind]
  | _ => rfl

theorem isBlank_of_mem_text (w : Word) : ∀ b ∈ w.text, Text.isBlank b = false := by
  have hname : ∀ {b : UInt8}, isNameByte b = true → Text.isBlank b = false := by
    intro b hb
    cases h : Text.isBlank b with
    | false => rfl
    | true => rw [isNameByte_of_isBlank h] at hb; cases hb
  have hdigit : ∀ {b : UInt8}, Numeral.isDigit b = true → Text.isBlank b = false :=
    fun hb => hname (by simp [isNameByte, hb])
  cases w with
  | name s h => exact fun b hb => hname (h.2.1 b hb)
  | keyword k =>
    have hk : k.text.all (fun b => !Text.isBlank b) = true := by cases k <;> decide
    exact fun b hb => by simpa using List.all_eq_true.1 hk b hb
  | symbol s =>
    have hs : s.text.all (fun b => !Text.isBlank b) = true := by cases s <;> decide
    exact fun b hb => by simpa using List.all_eq_true.1 hs b hb
  | mark b h =>
    intro c hc
    cases List.mem_singleton.1 hc
    simpa using List.all_eq_true.1 (show marks.all (fun b => !Text.isBlank b) = true by decide) b h
  | integer n h => exact fun b hb => hdigit (isDigit_ofNat n b hb)
  | string q s =>
    have hq : Text.isBlank q.byte = false := by cases q <;> rfl
    intro b hb
    simp only [text, List.mem_append, List.mem_flatMap, escaped, List.mem_cons, List.not_mem_nil,
      or_false] at hb
    rcases hb with (rfl | ⟨c, -, rfl | rfl | rfl | rfl⟩) | rfl
    · exact hq
    · rfl
    · exact hdigit (isDigit_digit _)
    · exact hdigit (isDigit_digit _)
    · exact hdigit (isDigit_digit _)
    · exact hq

theorem plain_text (w : Word) : Plain w.text := by
  intro b hb
  cases h : isNewline b with
  | false => rfl
  | true =>
    have hblank := isBlank_of_isNewline h
    rw [w.isBlank_of_mem_text b hb] at hblank
    cases hblank

theorem text_eq_cons (w : Word) : ∃ b s, w.text = b :: s ∧ (b = byte '-' → s = []) := by
  cases w with
  | name s h =>
    obtain ⟨⟨b, hb, hl⟩, -, -⟩ := h
    cases s with
    | nil => cases hb
    | cons c s =>
      cases hb
      refine ⟨b, s, rfl, ?_⟩
      rintro rfl
      cases hl
  | keyword k => cases k <;> exact ⟨_, _, rfl, by decide⟩
  | symbol s => cases s <;> exact ⟨_, _, rfl, by decide⟩
  | mark b h => exact ⟨b, [], rfl, fun _ => rfl⟩
  | integer n h =>
    obtain ⟨d, ds, hds⟩ := ofNat_eq_cons n
    have hd := isDigit_ofNat n d (by simp [hds])
    refine ⟨d, ds, hds, ?_⟩
    rintro rfl
    cases hd
  | string q s => exact ⟨q.byte, _, rfl, fun h => by cases q <;> cases h⟩

theorem startsToken (w : Word) {rest : Bytes} (hr : Clear rest) : StartsToken (w.text ++ rest) := by
  obtain ⟨b, s, ht, hdash⟩ := w.text_eq_cons
  have hblank := w.isBlank_of_mem_text b (by simp [ht])
  rw [ht]
  refine ⟨?_, ?_⟩
  · rintro c ⟨⟩
    exact hblank
  · show Bytes.dropPrefix? [byte '-', byte '-'] (b :: s ++ rest) = none
    by_cases hb : b = byte '-'
    · cases hdash hb
      cases h : rest with
      | nil => simp [Bytes.dropPrefix?, hb]
      | cons c t => simp [Bytes.dropPrefix?, hb, (clear_ne hr h (c := byte '-') (by decide)).symm]
    · simp [Bytes.dropPrefix?, Ne.symm hb]

open Reader in
theorem next_text (w : Word) {small : Prop} {rest : Bytes} (hr : Clear rest) (line : Nat)
    (h : small → w.room ≤ maxTokenSize ∧ line < maxLines) :
    Agrees small (placed (on (w.text ++ rest) line []).next) (.ok (w.lexeme, ⟨rest, line⟩)) := by
  obtain ⟨b, t, ht, -⟩ := w.text_eq_cons
  have hstarts := w.startsToken hr
  have hline : small → line < maxLines := fun hs => (h hs).2
  rw [ht, List.cons_append] at hstarts
  rw [ht, List.cons_append, next_token hstarts]
  have hletters (hl : isLetter b = true) (hs : ∀ c ∈ b :: t, isNameByte c = true)
      (hroom : small → (b :: t).length ≤ maxTokenSize) :
      Agrees small (placed ((on (b :: (t ++ rest)) line []).lexeme b))
        (.ok (.word (b :: t), ⟨rest, line⟩)) := by
    have hquote : b ≠ byte '"' ∧ b ≠ 39 := by
      refine ⟨?_, ?_⟩
      · rintro rfl
        cases hl
      · rintro rfl
        cases hl
    refine lexeme_fits hquote hline (fun hsmall => ?_) (lexeme_word hr line hl hs)
    rw [need_letter hl, ← List.cons_append, (takeWhile_name hr hs).1]
    exact hroom hsmall
  cases w with
  | name s hname =>
    obtain ⟨c, hc, hl⟩ := hname.1
    cases ht
    cases hc
    exact hletters hl hname.2.1 fun hsmall => (h hsmall).1
  | keyword k =>
    have hk : ∀ k : Keyword, k.text.head?.any isLetter = true ∧ k.text.all isNameByte = true ∧
        k.text.length ≤ 8 := by
      intro k
      cases k <;> decide
    obtain ⟨hl, hs, hlen⟩ := hk k
    rw [show k.text = b :: t from ht] at hl hs hlen
    rw [lexeme, show k.text = b :: t from ht]
    exact hletters hl (List.all_eq_true.1 hs) fun _ => Nat.le_trans hlen (by decide)
  | symbol s =>
    have hb : b ≠ byte '"' ∧ b ≠ 39 := by cases s <;> cases ht <;> decide
    have hneed : need b (t ++ rest) ≤ maxTokenSize := by
      cases s <;> cases ht
      case concat | dots => exact (by decide : 3 ≤ maxTokenSize)
      all_goals exact Nat.zero_le maxTokenSize
    refine lexeme_fits hb hline (fun _ => hneed) ?_
    rw [← List.cons_append, ← show s.text = b :: t from ht]
    exact lexeme_symbol hr line s
  | mark c hc =>
    cases ht
    have hmark : marks.all (fun b => b ≠ byte '"' ∧ b ≠ 39 ∧ Numeral.isDigit b = false ∧
        isLetter b = false) = true := by decide
    obtain ⟨hdouble, hsingle, hd, hl⟩ := of_decide_eq_true (List.all_eq_true.1 hmark b hc)
    exact lexeme_fits ⟨hdouble, hsingle⟩ hline
      (fun _ => Nat.le_trans (need_clear hr hd hl) (by decide)) (lexeme_mark hr line hc)
  | integer n hn =>
    have hall := isDigit_ofNat n
    have hlen : (Bytes.ofNat n).length ≤ 19 := length_ofNat_le (Nat.lt_trans hn (by decide))
    have hlexeme := lexeme_integer hr line hn
    rw [show Bytes.ofNat n = b :: t from ht] at hall hlen hlexeme
    rw [lexeme, show Bytes.ofNat n = b :: t from ht]
    have hd := hall b List.mem_cons_self
    have hquote : b ≠ byte '"' ∧ b ≠ 39 :=
      ⟨ne_of_isDigit hd (by decide), ne_of_isDigit hd (by decide)⟩
    refine lexeme_fits hquote hline (fun _ => ?_) hlexeme
    rw [need_digit hd, numeralExtent_digits hr fun c hc => hall c (List.mem_cons_of_mem _ hc)]
    exact Nat.le_trans hlen (by decide)
  | string q s =>
    cases ht
    rw [← List.cons_append]
    exact quoted_escaped q h

end Word

end LuaChunk
