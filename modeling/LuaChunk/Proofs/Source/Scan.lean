import LuaChunk.Source.Reader

set_option autoImplicit false

namespace LuaChunk.Scan

open LuaChunk

/-- What follows a newline that starts with `b`: the other newline byte belongs to it. -/
def afterNewline (b : UInt8) : Bytes → Bytes
  | [] => []
  | c :: rest => if isNewline c && c != b then rest else c :: rest

theorem length_afterNewline_le (b : UInt8) (s : Bytes) : (afterNewline b s).length ≤ s.length := by
  cases s with
  | nil => simp [afterNewline]
  | cons c rest => simp only [afterNewline]; split <;> simp

def skipBlanks (s : Bytes) (line : Nat) : Cursor :=
  match s with
  | [] => ⟨[], line⟩
  | b :: rest =>
    if isNewline b then skipBlanks (afterNewline b rest) (line + 1)
    else if Text.isBlank b then skipBlanks rest line
    else ⟨b :: rest, line⟩
termination_by s.length
decreasing_by
  · have := length_afterNewline_le b rest
    simp only [List.length_cons]
    omega
  · simp

theorem length_skipBlanks_le (s : Bytes) (line : Nat) :
    (skipBlanks s line).rest.length ≤ s.length := by
  fun_induction skipBlanks s line with
  | case1 => simp
  | case2 line b rest _ ih =>
    have := length_afterNewline_le b rest
    simp only [List.length_cons]
    omega
  | case3 line b rest _ _ ih => simp only [List.length_cons]; omega
  | case4 => simp

/-- The level of a long bracket and what follows it: the input stands after the first `[`. -/
def openBracket? (s : Bytes) : Option (Nat × Bytes) :=
  match s.dropWhile (· == byte '=') with
  | b :: rest => if b = byte '[' then some ((s.takeWhile (· == byte '=')).length, rest) else none
  | [] => none

/-- What follows the closing bracket of a level, if the input stands after its first `]`. -/
def closeBracket? (level : Nat) (s : Bytes) : Option Bytes :=
  Bytes.dropPrefix? (List.replicate level (byte '=') ++ [byte ']']) s

/-- A text up to its closing bracket: each newline becomes `\n`. Without a closing bracket the
result is the line on which the input ends. -/
def longText (level : Nat) (s : Bytes) (line : Nat) (acc : Bytes) : Except Nat (Bytes × Cursor) :=
  match s with
  | [] => .error line
  | b :: rest =>
    if isNewline b then longText level (afterNewline b rest) (line + 1) (10 :: acc)
    else if b = byte ']' then
      match closeBracket? level rest with
      | some after => .ok (acc.reverse, ⟨after, line⟩)
      | none => longText level rest line (b :: acc)
    else longText level rest line (b :: acc)
termination_by s.length
decreasing_by
  · have := length_afterNewline_le b rest
    simp only [List.length_cons]
    omega
  · simp
  · simp

/-- The text of a long bracket after its opening bracket: a newline right there is dropped. -/
def longBracket (level : Nat) (s : Bytes) (line : Nat) : Except Nat (Bytes × Cursor) :=
  match s with
  | b :: rest =>
    if isNewline b then longText level (afterNewline b rest) (line + 1) []
    else longText level s line []
  | [] => .error line

def unfinishedLong (keep : Bool) (start line : Nat) : Fault :=
  ⟨Reader.unfinishedLong keep start, TokenKind.eos.text, ⟨[], line⟩⟩

theorem length_closeBracket?_le {level : Nat} {s r : Bytes} (h : closeBracket? level s = some r) :
    r.length ≤ s.length := by
  have := congrArg List.length (eq_append_of_dropPrefix? h)
  simp only [List.length_append] at this
  omega

theorem length_longText_lt {level : Nat} {s : Bytes} {line : Nat} {acc t : Bytes} {c : Cursor}
    (h : longText level s line acc = .ok (t, c)) : c.rest.length < s.length := by
  fun_induction longText level s line acc with
  | case1 => cases h
  | case2 line acc b rest _ ih =>
    have := length_afterNewline_le b rest
    have := ih h
    simp only [List.length_cons]
    omega
  | case3 line acc rest after hc =>
    cases h
    have := length_closeBracket?_le hc
    simp only [List.length_cons]
    omega
  | case4 line acc rest _ _ ih => have := ih h; simp only [List.length_cons]; omega
  | case5 line acc b rest _ _ ih => have := ih h; simp only [List.length_cons]; omega

theorem length_longBracket_lt {level : Nat} {s : Bytes} {line : Nat} {t : Bytes} {c : Cursor}
    (h : longBracket level s line = .ok (t, c)) : c.rest.length < s.length := by
  cases s with
  | nil => cases h
  | cons b rest =>
    simp only [longBracket] at h
    split at h
    · have := length_afterNewline_le b rest
      have := length_longText_lt h
      simp only [List.length_cons]
      omega
    · exact length_longText_lt h

theorem length_openBracket?_lt {s r : Bytes} {level : Nat} (h : openBracket? s = some (level, r)) :
    r.length < s.length := by
  unfold openBracket? at h
  split at h
  · rename_i b rest hd
    split at h
    · cases h
      have := (List.dropWhile_sublist (l := s) (· == byte '=')).length_le
      rw [hd] at this
      simp only [List.length_cons] at this
      omega
    · cases h
  · cases h

/-- A comment after its two dashes: a long bracket, or the rest of the line. -/
def comment (s : Bytes) (line : Nat) : Except Fault Cursor :=
  let short := Cursor.mk (s.dropWhile fun b => !isNewline b) line
  match s with
  | b :: rest =>
    if b = byte '[' then
      match openBracket? rest with
      | some (level, body) =>
        match longBracket level body line with
        | .ok (_, c) => .ok c
        | .error last => .error (unfinishedLong false line last)
      | none => .ok short
    else .ok short
  | [] => .ok short

theorem length_comment_le {s : Bytes} {line : Nat} {c : Cursor} (h : comment s line = .ok c) :
    c.rest.length ≤ s.length := by
  have short : (s.dropWhile fun b => !isNewline b).length ≤ s.length :=
    (List.dropWhile_sublist _).length_le
  unfold comment at h
  simp only at h
  split at h
  · rename_i b rest
    split at h
    · split at h
      · rename_i level body ho
        split at h
        · rename_i t c' hl
          cases h
          have := length_longBracket_lt hl
          have := length_openBracket?_lt ho
          simp only [List.length_cons]
          omega
        · cases h
      · cases h; exact short
    · cases h; exact short
  · cases h; exact short

def skip (s : Bytes) (line : Nat) : Except Fault Cursor :=
  match s with
  | [] => .ok ⟨[], line⟩
  | b :: rest =>
    if isNewline b then skip (afterNewline b rest) (line + 1)
    else if Text.isBlank b then skip rest line
    else match _ : Bytes.dropPrefix? (utf8 "--") (b :: rest) with
      | none => .ok ⟨b :: rest, line⟩
      | some body =>
        match _ : comment body line with
        | .ok c => skip c.rest c.line
        | .error f => .error f
termination_by s.length
decreasing_by
  · have := length_afterNewline_le b rest
    simp only [List.length_cons]
    omega
  · simp
  · rename_i hp hc
    have h1 := length_comment_le hc
    have h2 := congrArg List.length (eq_append_of_dropPrefix? hp)
    have h3 : (utf8 "--").length = 2 := by decide
    rw [List.length_append, h3] at h2
    omega

/-- A malformed escape: what is wrong, the text of the escape that messages show, and the place. -/
structure EscapeFault where
  message : Bytes
  shown : Bytes
  place : Cursor

/-- An escape that goes wrong at the next byte, which is shown and passed over. -/
def badEscape {α : Type} (message : String) (shown rest : Bytes) (line : Nat) :
    Except EscapeFault α :=
  match rest with
  | [] => .error ⟨utf8 message, shown, ⟨[], line⟩⟩
  | b :: rest => .error ⟨utf8 message, shown ++ [b], ⟨rest, line⟩⟩

def hexEscape (s : Bytes) (line : Nat) : Except EscapeFault (Bytes × Cursor) :=
  let message := "hexadecimal digit expected"
  match s with
  | a :: b :: rest =>
    if !Numeral.isHexDigit a then badEscape message (utf8 "\\x") s line
    else if !Numeral.isHexDigit b then badEscape message (utf8 "\\x" ++ [a]) (b :: rest) line
    else .ok ([(16 * Numeral.hexValue a + Numeral.hexValue b).toUInt8], ⟨rest, line⟩)
  | [a] =>
    if !Numeral.isHexDigit a then badEscape message (utf8 "\\x") s line
    else badEscape message (utf8 "\\x" ++ [a]) [] line
  | [] => badEscape message (utf8 "\\x") [] line

def decimalEscape (s : Bytes) (line : Nat) : Except EscapeFault (Bytes × Cursor) :=
  let digits := (s.take 3).takeWhile Numeral.isDigit
  let rest := s.drop digits.length
  if Numeral.ofDigits digits ≤ 255 then .ok ([(Numeral.ofDigits digits).toUInt8], ⟨rest, line⟩)
  else badEscape "decimal escape too large" (byte '\\' :: digits) rest line

/-- The further digits of a code in braces; it stays below 2^31. -/
def codeDigits (value : Nat) (shown : Bytes) (line : Nat) :
    Bytes → Except EscapeFault (Bytes × Cursor)
  | [] => badEscape "missing '\x7d' in \\u\x7bxxxx\x7d" shown [] line
  | b :: rest =>
    if Numeral.isHexDigit b then
      if value ≤ 0x7FFFFFF then
        codeDigits (16 * value + Numeral.hexValue b) (shown ++ [b]) line rest
      else badEscape "UTF-8 value too large" shown (b :: rest) line
    else if b = 125 then .ok (Utf8.encode value, ⟨rest, line⟩)
    else badEscape "missing '\x7d' in \\u\x7bxxxx\x7d" shown (b :: rest) line

def codeEscape (s : Bytes) (line : Nat) : Except EscapeFault (Bytes × Cursor) :=
  match s with
  | 123 :: b :: rest =>
    if Numeral.isHexDigit b then
      codeDigits (Numeral.hexValue b) (utf8 "\\u\x7b" ++ [b]) line rest
    else badEscape "hexadecimal digit expected" (utf8 "\\u\x7b") (b :: rest) line
  | [123] => badEscape "hexadecimal digit expected" (utf8 "\\u\x7b") [] line
  | _ => badEscape "missing '\x7b' in \\u\x7bxxxx\x7d" (utf8 "\\u") s line

/-- An escape whose backslash stands before `b`: the bytes it denotes and the place after it. -/
def escape (b : UInt8) (rest : Bytes) (line : Nat) : Except EscapeFault (Bytes × Cursor) :=
  match simpleEscape? b with
  | some c => .ok ([c], ⟨rest, line⟩)
  | none =>
    if b = byte 'x' then hexEscape rest line
    else if b = byte 'u' then codeEscape rest line
    else if isNewline b then .ok ([10], ⟨afterNewline b rest, line + 1⟩)
    else if b = byte 'z' then .ok ([], skipBlanks rest line)
    else if Numeral.isDigit b then decimalEscape (b :: rest) line
    else badEscape "invalid escape sequence" (utf8 "\\") (b :: rest) line

theorem badEscape_ne_ok {α : Type} {message : String} {shown rest : Bytes} {line : Nat} {a : α} :
    badEscape message shown rest line ≠ .ok a := by
  cases rest <;> simp [badEscape]

theorem length_codeDigits_lt {value : Nat} {shown : Bytes} {line : Nat} {s t : Bytes} {c : Cursor}
    (h : codeDigits value shown line s = .ok (t, c)) : c.rest.length < s.length := by
  fun_induction codeDigits value shown line s with
  | case1 => exact absurd h badEscape_ne_ok
  | case2 _ _ b rest _ _ ih => exact Nat.lt_succ_of_lt (ih h)
  | case3 => exact absurd h badEscape_ne_ok
  | case4 => cases h; exact Nat.lt_succ_self _
  | case5 => exact absurd h badEscape_ne_ok

theorem length_hexEscape {s t : Bytes} {line : Nat} {c : Cursor}
    (h : hexEscape s line = .ok (t, c)) : c.rest.length + 2 = s.length := by
  unfold hexEscape at h
  simp only at h
  split at h
  · split at h
    · exact absurd h badEscape_ne_ok
    · split at h
      · exact absurd h badEscape_ne_ok
      · cases h; simp only [List.length_cons]
  · split at h <;> exact absurd h badEscape_ne_ok
  · exact absurd h badEscape_ne_ok

theorem length_codeEscape_le {s t : Bytes} {line : Nat} {c : Cursor}
    (h : codeEscape s line = .ok (t, c)) : c.rest.length + 3 ≤ s.length := by
  unfold codeEscape at h
  split at h
  · split at h
    · have := length_codeDigits_lt h
      simp only [List.length_cons]
      omega
    · exact absurd h badEscape_ne_ok
  · exact absurd h badEscape_ne_ok
  · exact absurd h badEscape_ne_ok

theorem length_decimalEscape {s t : Bytes} {line : Nat} {c : Cursor}
    (h : decimalEscape s line = .ok (t, c)) :
    c.rest.length + ((s.take 3).takeWhile Numeral.isDigit).length = s.length := by
  have hle : ((s.take 3).takeWhile Numeral.isDigit).length ≤ s.length :=
    Nat.le_trans (List.takeWhile_sublist _).length_le (List.take_sublist ..).length_le
  unfold decimalEscape at h
  simp only at h
  split at h
  · cases h
    rw [List.length_drop]
    omega
  · exact absurd h badEscape_ne_ok

theorem length_escape_le {b : UInt8} {rest t : Bytes} {line : Nat} {c : Cursor}
    (h : escape b rest line = .ok (t, c)) : c.rest.length ≤ rest.length + 1 := by
  unfold escape at h
  split at h
  · cases h; simp
  · split at h
    · have := length_hexEscape h; omega
    · split at h
      · have := length_codeEscape_le h; omega
      · split at h
        · cases h
          have := length_afterNewline_le b rest
          simp only
          omega
        · split at h
          · cases h
            have := length_skipBlanks_le rest line
            omega
          · split at h
            · have := length_decimalEscape h
              simp only [List.length_cons] at this
              omega
            · exact absurd h badEscape_ne_ok

/-- A string up to its delimiter. `acc` holds the bytes so far in reverse, the opening delimiter
first of all, and so does the text that a fault shows. -/
def quotedText (delim : UInt8) (s : Bytes) (line : Nat) (acc : Bytes) :
    Except Fault (Bytes × Cursor) :=
  let fault := fun (message near : Bytes) (place : Cursor) =>
    Except.error (α := Bytes × Cursor) (Fault.mk message near place)
  match s with
  | [] => fault (utf8 "unfinished string") TokenKind.eos.text ⟨[], line⟩
  | b :: rest =>
    if b = delim then .ok (acc.reverse, ⟨rest, line⟩)
    else if isNewline b then
      fault (utf8 "unfinished string") (Token.quote acc.reverse) ⟨b :: rest, line⟩
    else if b = byte '\\' then
      match rest with
      | [] => fault (utf8 "unfinished string") TokenKind.eos.text ⟨[], line⟩
      | c :: rest =>
        match _ : escape c rest line with
        | .ok (bytes, cursor) =>
          quotedText delim cursor.rest cursor.line (bytes.reverse ++ acc)
        | .error e => fault e.message (Token.quote (acc.reverse ++ e.shown)) e.place
    else quotedText delim rest line (b :: acc)
termination_by s.length
decreasing_by
  · rename_i he
    have := length_escape_le he
    simp only [List.length_cons]
    omega
  · simp

/-- The bytes that may belong to a numeral: digits and points, and after the letter of an exponent
also a sign. `hex` tells which letter that is. -/
def numeralText (hex : Bool) : Bytes → Bytes → Bytes × Bytes
  | acc, [] => (acc.reverse, [])
  | acc, b :: rest =>
    let isExponent := if hex then b = byte 'p' || b = byte 'P' else b = byte 'e' || b = byte 'E'
    if isExponent then
      match rest with
      | c :: after =>
        if c = byte '-' || c = byte '+' then numeralText hex (c :: b :: acc) after
        else numeralText hex (b :: acc) (c :: after)
      | [] => ((b :: acc).reverse, [])
    else if Numeral.isHexDigit b || b = byte '.' then numeralText hex (b :: acc) rest
    else (acc.reverse, b :: rest)

/-- The bytes of a numeral whose first digit is `first`. A letter right after it belongs to it, so
that it is malformed. `start` is what stands before the first digit. -/
def numeralExtent (start : Bytes) (first : UInt8) (rest : Bytes) : Bytes × Bytes :=
  let plain := numeralText false (first :: start.reverse) rest
  let (text, after) := match rest with
    | x :: body =>
      if first = byte '0' && (x = byte 'x' || x = byte 'X') then
        numeralText true (x :: first :: start.reverse) body
      else plain
    | [] => plain
  match after with
  | b :: more => if isLetter b then (text ++ [b], more) else (text, after)
  | [] => (text, [])

def numeral (start : Bytes) (first : UInt8) (rest : Bytes) (line : Nat) :
    Except Fault (Lexeme × Cursor) :=
  let (text, after) := numeralExtent start first rest
  match Numeral.read text with
  | some n => .ok (.number n text, ⟨after, line⟩)
  | none => .error ⟨utf8 "malformed number", Token.quote text, ⟨after, line⟩⟩

def bracket (rest : Bytes) (line : Nat) : Except Fault (Lexeme × Cursor) :=
  match openBracket? rest with
  | some (level, body) =>
    match longBracket level body line with
    | .ok (text, c) =>
      let run := List.replicate level (byte '=')
      let raw := byte '[' :: run ++ byte '[' :: text ++ byte ']' :: run ++ [byte ']']
      .ok (.string text raw, c)
    | .error last => .error (unfinishedLong true line last)
  | none =>
    let run := rest.takeWhile (· == byte '=')
    if run.isEmpty then .ok (.byte (byte '['), ⟨rest, line⟩)
    else
      .error ⟨utf8 "invalid long string delimiter", Token.quote (byte '[' :: run),
        ⟨rest.dropWhile (· == byte '='), line⟩⟩

/-- A symbol of two characters if `second` follows, else the single byte. -/
def twoBytes (b second : UInt8) (double : Symbol) (rest : Bytes) (line : Nat) : Lexeme × Cursor :=
  match rest with
  | c :: after => if c = second then (.symbol double, ⟨after, line⟩) else (.byte b, ⟨rest, line⟩)
  | [] => (.byte b, ⟨rest, line⟩)

/-- Of two symbols of two characters the one that follows, else the single byte. -/
def twoBytesOf (b : UInt8) (table : List (UInt8 × Symbol)) (rest : Bytes) (line : Nat) :
    Lexeme × Cursor :=
  match rest with
  | c :: after =>
    match table.lookup c with
    | some s => (.symbol s, ⟨after, line⟩)
    | none => (.byte b, ⟨rest, line⟩)
  | [] => (.byte b, ⟨rest, line⟩)

/-- What starts with a point: one, two or three points, or a numeral. -/
def points (rest : Bytes) (line : Nat) : Except Fault (Lexeme × Cursor) :=
  match rest with
  | a :: after =>
    if a = byte '.' then
      match after with
      | b :: more =>
        if b = byte '.' then .ok (.symbol .dots, ⟨more, line⟩)
        else .ok (.symbol .concat, ⟨after, line⟩)
      | [] => .ok (.symbol .concat, ⟨after, line⟩)
    else if Numeral.isDigit a then numeral [byte '.'] a after line
    else .ok (.byte (byte '.'), ⟨rest, line⟩)
  | [] => .ok (.byte (byte '.'), ⟨rest, line⟩)

def lexeme (s : Bytes) (line : Nat) : Except Fault (Lexeme × Cursor) :=
  match s with
  | [] => .ok (.eos, ⟨[], line⟩)
  | b :: rest =>
    if b = byte '[' then bracket rest line
    else if b = byte '=' then .ok (twoBytes b (byte '=') .eq rest line)
    else if b = byte '<' then
      .ok (twoBytesOf b [(byte '=', .le), (byte '<', .shl)] rest line)
    else if b = byte '>' then
      .ok (twoBytesOf b [(byte '=', .ge), (byte '>', .shr)] rest line)
    else if b = byte '/' then .ok (twoBytes b (byte '/') .idiv rest line)
    else if b = byte '~' then .ok (twoBytes b (byte '=') .ne rest line)
    else if b = byte ':' then .ok (twoBytes b (byte ':') .colons rest line)
    else if b = byte '"' || b = 39 then
      match quotedText b rest line [b] with
      | .ok (text, c) => .ok (.string (text.drop 1) (text ++ [b]), c)
      | .error f => .error f
    else if b = byte '.' then points rest line
    else if Numeral.isDigit b then numeral [] b rest line
    else if isLetter b then
      .ok (.word (s.takeWhile isNameByte), ⟨s.dropWhile isNameByte, line⟩)
    else .ok (.byte b, ⟨rest, line⟩)

/-- The next lexeme. -/
def scan (s : Bytes) (line : Nat) : Except Fault (Lexeme × Cursor) :=
  match skip s line with
  | .ok c => lexeme c.rest c.line
  | .error f => .error f

end LuaChunk.Scan
