import LuaChunk.Source.Lexer
import LuaChunk.Proofs.Logic
import LuaChunk.Proofs.Source.Reading

set_option autoImplicit false

namespace LuaChunk

namespace Scan

theorem length_skip_le {s : Bytes} {line : Nat} {c : Cursor} (h : skip s line = .ok c) :
    c.rest.length ≤ s.length := by
  fun_induction skip s line with
  | case1 =>
    cases h
    simp
  | case2 line b rest _ ih =>
    have := length_afterNewline_le b rest
    have := ih h
    simp only [List.length_cons]
    omega
  | case3 line b rest _ _ ih =>
    have := ih h
    simp only [List.length_cons]
    omega
  | case4 =>
    cases h
    simp
  | case5 line b rest _ _ body hp c' hc ih =>
    have h₁ := length_comment_le hc
    have h₂ := congrArg List.length (eq_append_of_dropPrefix? hp)
    have h₃ := ih h
    rw [List.length_append] at h₂
    omega
  | case6 => cases h

theorem length_quotedText_lt {delim : UInt8} {s : Bytes} {line : Nat} {acc t : Bytes} {c : Cursor}
    (h : quotedText delim s line acc = .ok (t, c)) : c.rest.length < s.length := by
  fun_induction quotedText delim s line acc with
  | case1 => cases h
  | case2 =>
    cases h
    simp
  | case3 => cases h
  | case4 => cases h
  | case5 line acc d rest bytes cursor he _ _ ih =>
    have := length_escape_le he
    have := ih h
    simp only [List.length_cons]
    omega
  | case6 => cases h
  | case7 line acc b rest _ _ _ ih =>
    have := ih h
    simp only [List.length_cons]
    omega

theorem length_numeralText_le (hex : Bool) (acc s : Bytes) :
    (numeralText hex acc s).2.length ≤ s.length := by
  fun_induction numeralText hex acc s <;> simp only [List.length_cons, List.length_nil] at * <;>
    omega

theorem length_letterExtent_le (p : Bytes × Bytes) :
    (match p.2 with
      | b :: more => if isLetter b then (p.1 ++ [b], more) else (p.1, p.2)
      | [] => (p.1, [])).2.length ≤ p.2.length := by
  obtain ⟨text, after⟩ := p
  cases after with
  | nil => exact Nat.le_refl _
  | cons b more =>
    simp only [List.length_cons]
    split
    · simp only
      omega
    · exact Nat.le_refl _

theorem length_numeralExtent_le (start : Bytes) (first : UInt8) (rest : Bytes) :
    (numeralExtent start first rest).2.length ≤ rest.length := by
  unfold numeralExtent
  simp only
  refine Nat.le_trans (length_letterExtent_le _) ?_
  cases rest with
  | nil => exact length_numeralText_le _ _ _
  | cons x body =>
    simp only
    split
    · have := length_numeralText_le true (x :: first :: start.reverse) body
      simp only [List.length_cons]
      omega
    · exact length_numeralText_le _ _ _

theorem numeral_progress {start rest : Bytes} {first : UInt8} {line : Nat} {x : Lexeme} {c : Cursor}
    (h : numeral start first rest line = .ok (x, c)) : c.rest.length ≤ rest.length := by
  unfold numeral at h
  have := length_numeralExtent_le start first rest
  simp only at h
  split at h
  · cases h
    exact this
  · cases h

theorem bracket_progress {rest : Bytes} {line : Nat} {x : Lexeme} {c : Cursor}
    (h : bracket rest line = .ok (x, c)) : c.rest.length ≤ rest.length := by
  unfold bracket at h
  split at h
  · rename_i level body ho
    split at h
    · rename_i text c' hl
      cases h
      have := length_openBracket?_lt ho
      have := length_longBracket_lt hl
      omega
    · cases h
  · simp only at h
    split at h
    · cases h
      simp
    · cases h

theorem twoBytes_progress (b second : UInt8) (double : Symbol) (rest : Bytes) (line : Nat) :
    (twoBytes b second double rest line).2.rest.length ≤ rest.length := by
  unfold twoBytes
  cases rest with
  | nil => simp
  | cons c after => simp only; split <;> simp

theorem twoBytesOf_progress (b : UInt8) (table : List (UInt8 × Symbol)) (rest : Bytes)
    (line : Nat) :
    (twoBytesOf b table rest line).2.rest.length ≤ rest.length := by
  unfold twoBytesOf
  cases rest with
  | nil => simp
  | cons c after => simp only; split <;> simp

theorem points_progress {rest : Bytes} {line : Nat} {x : Lexeme} {c : Cursor}
    (h : points rest line = .ok (x, c)) : c.rest.length ≤ rest.length := by
  unfold points at h
  split at h
  · split at h
    · split at h
      · split at h <;> (cases h; simp only [List.length_cons]; omega)
      · cases h
        simp
    · split at h
      · have := numeral_progress h
        simp only [List.length_cons]
        omega
      · cases h
        simp
  · cases h
    simp

def Leaves (n : Nat) (r : Except Fault (Lexeme × Cursor)) : Prop :=
  ∀ x c, r = .ok (x, c) → c.rest.length ≤ n

theorem Leaves.ite {n : Nat} {p : Prop} [Decidable p] {r r' : Except Fault (Lexeme × Cursor)}
    (h : p → Leaves n r) (h' : ¬ p → Leaves n r') : Leaves n (if p then r else r') := by
  split
  · exact h ‹_›
  · exact h' ‹_›

theorem Leaves.ok {n : Nat} {p : Lexeme × Cursor} (h : p.2.rest.length ≤ n) : Leaves n (.ok p) := by
  rintro x c ⟨⟩
  exact h

theorem lexeme_leaves (b : UInt8) (rest : Bytes) (line : Nat) :
    Leaves rest.length (lexeme (b :: rest) line) := by
  have htwo : ∀ second double, Leaves rest.length (.ok (twoBytes b second double rest line)) :=
    fun second double => .ok (twoBytes_progress b second double rest line)
  have htable : ∀ table, Leaves rest.length (.ok (twoBytesOf b table rest line)) :=
    fun table => .ok (twoBytesOf_progress b table rest line)
  refine .ite (fun _ => fun x c => bracket_progress) fun _ => ?_
  refine .ite (fun _ => htwo _ _) fun _ => .ite (fun _ => htable _) fun _ => ?_
  refine .ite (fun _ => htable _) fun _ => .ite (fun _ => htwo _ _) fun _ => ?_
  refine .ite (fun _ => htwo _ _) fun _ => .ite (fun _ => htwo _ _) fun _ => ?_
  refine .ite (fun _ => ?_) fun _ => .ite (fun _ => fun x c => points_progress) fun _ => ?_
  · cases hq : quotedText b rest line [b] with
    | ok r => exact .ok (Nat.le_of_lt (length_quotedText_lt hq))
    | error f => exact fun x c h => nomatch h
  · refine .ite (fun _ => fun x c => numeral_progress) fun _ => .ite (fun hl => .ok ?_) fun _ => ?_
    · have hn : isNameByte b = true := by simp [isNameByte, hl]
      simp only [List.dropWhile_cons, hn, if_true]
      exact (List.dropWhile_sublist _).length_le
    · exact .ok (Nat.le_refl _)

theorem lexeme_progress {s : Bytes} {line : Nat} {x : Lexeme} {c : Cursor}
    (h : lexeme s line = .ok (x, c)) : x = .eos ∧ c.rest = [] ∨ c.rest.length < s.length := by
  cases s with
  | nil =>
    cases h
    exact .inl ⟨rfl, rfl⟩
  | cons b rest => exact .inr (Nat.lt_succ_of_le (lexeme_leaves b rest line x c h))

theorem scan_progress {s : Bytes} {line : Nat} {x : Lexeme} {c : Cursor}
    (h : scan s line = .ok (x, c)) : x = .eos ∧ c.rest = [] ∨ c.rest.length < s.length := by
  unfold scan at h
  split at h
  · rename_i c' hs
    exact (lexeme_progress h).imp_right fun hc => Nat.lt_of_lt_of_le hc (length_skip_le hs)
  · cases h

end Scan

namespace Lexer

def tokensOf (numberOf : Bytes → Nat) (input : Bytes) (line : Nat) : Nat :=
  match Reader.scan input line with
  | .error _ => 0
  | .ok (x, c) =>
    if c.rest.length < input.length then weight (tokenOf numberOf x) +
      tokensOf numberOf c.rest c.line else 0
termination_by input.length

def measure (l : Lexer) : Nat :=
  tokensOf l.numberOf l.input l.line + weight l.token +
    (match l.ahead with | some t => weight t | none => 0)

theorem measure_noted (l : Lexer) (names : Array Bytes) :
    measure { l with noted := names } = l.measure := rfl

theorem weight_le (t : Token) : weight t ≤ 1 := by
  unfold weight
  split <;> simp

theorem checkRead_ok {l : Lexer} {rest : Bytes} {Q : Unit → Lexer → Prop} (hf : l.failure = none)
    (h : Q () l) : Ok (checkRead rest) l Q := by
  unfold checkRead
  rw [Ok.bind_iff, Ok.get_iff]
  cases rest <;> simp only [hf] <;> exact h

theorem tokensOf_nil (numberOf : Bytes → Nat) (line : Nat) : tokensOf numberOf [] line = 0 := by
  rw [tokensOf]
  split
  · rfl
  · exact if_neg (Nat.not_lt_zero _)

theorem tokensOf_scan {numberOf : Bytes → Nat} {input : Bytes} {line : Nat} {x : Scan.Lexeme}
    {c : Scan.Cursor}
    (h : Reader.scan input line = .ok (x, c)) :
    tokensOf numberOf c.rest c.line + weight (tokenOf numberOf x) =
      tokensOf numberOf input line := by
  rw [tokensOf.eq_1 numberOf input, h]
  dsimp only
  split
  · exact Nat.add_comm _ _
  next hlt =>
    obtain ⟨rfl, hc⟩ := (Scan.scan_progress (Reader.scan_eq_of_ok h)).resolve_right hlt
    rw [hc, tokensOf_nil]
    rfl

theorem tokensOf_le (numberOf : Bytes → Nat) (input : Bytes) (line : Nat) :
    tokensOf numberOf input line ≤ input.length := by
  fun_induction tokensOf numberOf input line with
  | case1 => exact Nat.zero_le _
  | case2 input line x c h hlt ih =>
    have := weight_le (tokenOf numberOf x)
    omega
  | case3 => exact Nat.zero_le _

theorem bind_eq {α β : Type} {m : M α} {f : α → M β} {a : α} {l l' : Lexer} (h : m l = .ok a l') :
    (m >>= f) l = f a l' := by
  show EStateM.bind m f l = _
  unfold EStateM.bind
  rw [h]

/-- What reading leaves as it is. -/
structure Same (l l' : Lexer) : Prop where
  failure : l'.failure = l.failure
  taken : l'.taken = l.taken
  numberOf : l'.numberOf = l.numberOf
  token : l'.token = l.token
  ahead : l'.ahead = l.ahead

theorem scan_step (l : Lexer) : scan l = (match Reader.read l.input l.line with
    | .error f => do
      checkRead f.place.rest
      throw (.error ⟨.lexical, l.source, f.place.line, f.message, f.near⟩)
    | .ok (lexeme, c) => do
      checkRead c.rest
      modify fun l => { l with input := c.rest, line := c.line }
      match internedText? lexeme with
      | some s => note s
      | none => pure ()
      pure (tokenOf l.numberOf lexeme) : M Token) l := by
  have hread := Reader.scan_eq_read l.input l.line
  have hget : (get : M Lexer) l = .ok l l := rfl
  unfold scan
  rw [bind_eq hget]
  dsimp only
  rw [hread]
  cases Reader.read l.input l.line <;> rfl

theorem scan_ok {l : Lexer} (hf : l.failure = none) :
    Ok scan l fun t l' =>
      tokensOf l.numberOf l'.input l'.line + weight t = tokensOf l.numberOf l.input l.line ∧
        Same l l' := by
  refine Ok.of_eq (scan_step l) ?_
  cases hs : Reader.read l.input l.line with
  | error f =>
    dsimp only
    rw [Ok.bind_iff]
    exact checkRead_ok hf (Ok.throw rfl)
  | ok r =>
    obtain ⟨x, c⟩ := r
    dsimp only
    rw [Ok.bind_iff]
    refine checkRead_ok hf ?_
    rw [Ok.bind_iff, Ok.modify_iff]
    have hw := @tokensOf_scan l.numberOf l.input l.line x c (Reader.read_eq_ok.1 hs)
    cases internedText? x with
    | none => exact ⟨hw, rfl, rfl, rfl, rfl, rfl⟩
    | some text => exact ⟨hw, rfl, rfl, rfl, rfl, rfl⟩

/-- What a move to the next token leaves: what is taken is no longer left. -/
structure Moves (l l' : Lexer) : Prop where
  measure : l'.measure + weight l.token = l.measure
  taken : l'.taken = l.taken + weight l.token
  failure : l'.failure = none

theorem next_ok {l : Lexer} (hf : l.failure = none) : Ok next l fun _ l' => Moves l l' := by
  unfold next
  rw [Ok.bind_iff, Ok.modify_iff, Ok.bind_iff, Ok.get_iff]
  cases ha : l.ahead with
  | some t =>
    simp only
    rw [Ok.modify_iff]
    refine ⟨?_, rfl, hf⟩
    simp only [measure, ha]
    omega
  | none =>
    simp only
    rw [Ok.bind_iff]
    refine Ok.mono (scan_ok ?_) ?_
    · exact hf
    rintro t l' ⟨hw, hs⟩
    rw [Ok.modify_iff]
    refine ⟨?_, hs.taken, hs.failure.trans hf⟩
    have ha' : l'.ahead = none := hs.ahead
    have hn : l'.numberOf = l.numberOf := hs.numberOf
    simp only at hw
    simp only [measure, ha, ha', hn]
    omega

theorem nextName_ok {l : Lexer} {declaration : Option Nat} (hf : l.failure = none) :
    Ok (nextName declaration) l fun _ l' => Moves l l' := by
  unfold nextName
  rw [Ok.bind_iff, Ok.modify_iff]
  exact Ok.mono (next_ok (l := { l with bindings := l.bindings.push (l.number, declaration) }) hf)
    fun _ l' h => ⟨h.measure, h.taken, h.failure⟩

theorem lookahead_ok {l : Lexer} (hf : l.failure = none) : Ok lookahead l fun _ l' =>
    l'.measure = l.measure ∧ l'.taken = l.taken ∧ l'.failure = none ∧ l'.token = l.token := by
  unfold lookahead
  rw [Ok.bind_iff, Ok.get_iff]
  cases ha : l.ahead with
  | some t => exact ⟨rfl, rfl, hf, rfl⟩
  | none =>
    simp only
    rw [Ok.bind_iff]
    refine (scan_ok hf).mono ?_
    rintro t l' ⟨hw, hs⟩
    rw [Ok.bind_iff, Ok.modify_iff]
    refine ⟨?_, hs.taken, hs.failure.trans hf, hs.token⟩
    simp only [measure, ha, hs.token, hs.numberOf]
    omega

end Lexer

end LuaChunk
