import LuaChunk.Proofs.Compile.Emit
import LuaChunk.Proofs.Wire.Safety

set_option autoImplicit false

namespace LuaChunk

namespace Prototype

variable {info : Array Int8} {best a : AbsLine} {rest : List AbsLine} {pc pc' : Nat}

theorem sumLines_succ (info : Array Int8) (count : Nat) {start : Int} (hs : 0 ≤ start)
    (line : Int) :
    sumLines info (count + 1) start line = (sumLines info count start line).bind fun l =>
      (info[(start + count).toNat]?).map fun d => if d = lineMarker then l else l + d.toInt := by
  induction count generalizing start line with
  | zero =>
    simp only [sumLines, if_neg (Int.not_lt.2 hs), Int.natCast_zero, Int.add_zero, Option.bind_some]
    cases info[start.toNat]? <;> rfl
  | succ count ih =>
    rw [sumLines, sumLines, if_neg (Int.not_lt.2 hs), if_neg (Int.not_lt.2 hs)]
    cases info[start.toNat]? with
    | none => rfl
    | some d =>
      dsimp only
      rw [ih (Int.le_add_one hs), show start + 1 + count = start + (count + 1 : Nat) by omega]

theorem sumLines_push (d : Int8) {count : Nat} {start line : Int} (hs : 0 ≤ start)
    (hc : start + count ≤ info.size) :
    sumLines (info.push d) count start line = sumLines info count start line := by
  induction count generalizing start line with
  | zero => rfl
  | succ count ih =>
    rw [sumLines, sumLines, Array.getElem?_push_lt (show start.toNat < info.size by omega),
      Array.getElem?_eq_getElem (show start.toNat < info.size by omega)]
    dsimp only
    rw [ih (Int.le_add_one hs) (by omega)]

theorem last_push_lt (h : (pc : Int) < a.pc) :
    lineBase.last pc best (rest ++ [a]) = lineBase.last pc best rest := by
  induction rest generalizing best with
  | nil => exact if_neg (Int.not_le.2 h)
  | cons b rest ih =>
    rw [List.cons_append, lineBase.last, lineBase.last, ih]

theorem last_push_le (hr : ∀ b ∈ rest, b.pc ≤ pc) (h : a.pc ≤ pc) :
    lineBase.last pc best (rest ++ [a]) = a := by
  induction rest generalizing best with
  | nil => exact if_pos h
  | cons b rest ih =>
    rw [List.cons_append, lineBase.last, if_pos (hr b List.mem_cons_self), ih fun c hc =>
      hr c (List.mem_cons_of_mem _ hc)]

theorem last_later (hr : ∀ b ∈ rest, b.pc ≤ pc) (h : pc ≤ pc') :
    lineBase.last pc' best rest = lineBase.last pc best rest := by
  induction rest generalizing best with
  | nil => rfl
  | cons b rest ih =>
    have hb := hr b List.mem_cons_self
    rw [lineBase.last, lineBase.last, if_pos hb, if_pos (by omega), ih fun c hc =>
      hr c (List.mem_cons_of_mem _ hc)]

end Prototype

namespace LineTable

/-- The table as that of a function which is defined at `first`. -/
def read (first : Int) (info : Array Int8) (absolute : Array AbsLine) : Prototype :=
  { lineDefined := first, lineInfo := info, absLines := absolute }

/-- Entries that stand for lines: each is the difference from the line before or has a line of its
own. `run` counts the entries from the last one of the latter kind on. -/
inductive Encodes (first : Int) : Array Int8 → Array AbsLine → List Int → Nat → Prop
  | nil : Encodes first #[] #[] [] 0
  | relative {info : Array Int8} {absolute : Array AbsLine} {lines : List Int} {run : Nat}
    (d : Int8)
    (h : Encodes first info absolute lines run) (hd : d ≠ lineMarker) (hr : run < maxRun) :
    Encodes first (info.push d) absolute (lines ++ [lines.getLastD first + d.toInt]) (run + 1)
  | absolute {info : Array Int8} {absolute : Array AbsLine} {lines : List Int} {run : Nat}
    (line : Int)
    (h : Encodes first info absolute lines run) :
    Encodes first (info.push lineMarker) (absolute.push ⟨info.size, line⟩) (lines ++ [line]) 1

variable {first line : Int} {info : Array Int8} {absolute : Array AbsLine} {lines : List Int}
  {run pc : Nat} {t : LineTable}

namespace Encodes

theorem size (h : Encodes first info absolute lines run) : info.size = lines.length := by
  induction h <;> simp_all

theorem run_le (h : Encodes first info absolute lines run) : run ≤ maxRun ∧ run ≤ info.size := by
  induction h with
  | nil => exact ⟨Nat.zero_le _, Nat.le_refl _⟩
  | relative d h hd hr ih => simp only [Array.size_push]; omega
  | absolute line h ih => simp [maxRun]

theorem pc_lt (h : Encodes first info absolute lines run) : ∀ a ∈ absolute, 0 ≤ a.pc ∧
    a.pc < info.size := by
  induction h with
  | nil => exact fun a ha => absurd ha (Array.not_mem_empty a)
  | relative d h hd hr ih =>
    intro a ha
    have := ih a ha
    simp only [Array.size_push]
    omega
  | absolute line h ih =>
    intro a ha
    simp only [Array.size_push]
    rcases Array.mem_push.1 ha with ha | rfl
    · have := ih a ha
      omega
    · simp only
      omega

theorem lineBase_succ (h : Encodes first info absolute lines run) (hpos : info.size = pc + 1) :
    (read first info absolute).lineBase (pc + 1) = (read first info absolute).lineBase pc := by
  have hpc := h.pc_lt
  unfold Prototype.lineBase read
  dsimp only
  cases ha : absolute[0]? with
  | none => rfl
  | some a =>
    have := hpc a (Array.mem_of_getElem? ha)
    dsimp only
    rw [if_neg (by omega), if_neg (by omega)]
    refine Prototype.last_later (fun b hb => ?_) (Nat.le_succ pc)
    have := hpc b (Array.mem_toList_iff.1 (List.mem_of_mem_drop hb))
    omega

theorem lineBase_push_lt (hpc : pc < info.size) :
    (read first (info.push lineMarker) (absolute.push ⟨info.size, line⟩)).lineBase pc =
      (read first info absolute).lineBase pc := by
  unfold Prototype.lineBase read
  dsimp only
  obtain rfl | h0 : absolute = #[] ∨ 0 < absolute.size :=
    (Nat.eq_zero_or_pos _).imp_left Array.eq_empty_of_size_eq_zero
  · exact if_pos (Int.ofNat_lt.2 hpc)
  · rw [Array.getElem?_push_lt h0, Array.getElem?_eq_getElem h0]
    dsimp only
    rw [Array.toList_push, List.drop_append_of_le_length (by simpa using Nat.succ_le_of_lt h0),
      Prototype.last_push_lt (Int.ofNat_lt.2 hpc)]

theorem lineBase_push_self (h : Encodes first info absolute lines run) :
    (read first (info.push lineMarker) (absolute.push ⟨info.size, line⟩)).lineBase info.size =
      ⟨info.size, line⟩ := by
  have hpc := h.pc_lt
  unfold Prototype.lineBase read
  dsimp only
  obtain rfl | h0 : absolute = #[] ∨ 0 < absolute.size :=
    (Nat.eq_zero_or_pos _).imp_left Array.eq_empty_of_size_eq_zero
  · exact if_neg (Int.lt_irrefl _)
  · have := hpc absolute[0] (Array.getElem_mem h0)
    rw [Array.getElem?_push_lt h0]
    dsimp only
    rw [if_neg (by omega), Array.toList_push,
      List.drop_append_of_le_length (by simpa using Nat.succ_le_of_lt h0)]
    refine Prototype.last_push_le (fun b hb => ?_) (Int.le_refl _)
    have := hpc b (Array.mem_toList_iff.1 (List.mem_of_mem_drop hb))
    omega

theorem lineBase_ge (h : Encodes first info absolute lines run) (pc : Nat) :
    -1 ≤ ((read first info absolute).lineBase pc).pc := by
  rcases (Prototype.lineBase_cases (read first info absolute) pc).2 with hb | hb
  · rw [hb]
  · have := h.pc_lt _ (Array.mem_toList_iff.1 hb)
    omega

theorem sumLines_eq (h : Encodes first info absolute lines run) {l : Int}
    (hl : lines[pc]? = some l) :
    let base := (read first info absolute).lineBase pc
    Prototype.sumLines info ((pc : Int) - base.pc).toNat (base.pc + 1) base.line = some l := by
  dsimp only
  induction h generalizing l pc with
  | nil => simp at hl
  | @relative info absolute lines run d h hd hr ih =>
    have hsize := h.size
    change Prototype.sumLines _ ((pc : Int) - ((read first info absolute).lineBase pc).pc).toNat
      (((read first info absolute).lineBase pc).pc + 1)
        ((read first info absolute).lineBase pc).line = _
    have hge := h.lineBase_ge pc
    have hle := (Prototype.lineBase_cases (read first info absolute) pc).1
    rcases Nat.lt_or_ge pc lines.length with hlt | hge'
    · rw [List.getElem?_append_left hlt] at hl
      rw [Prototype.sumLines_push d (by omega) (by omega), ih hl]
    obtain rfl : pc = lines.length := by
      have := (List.getElem?_eq_some_iff.1 hl).1
      simp only [List.length_append, List.length_singleton] at this
      omega
    rw [List.getElem?_concat_length, Option.some.injEq] at hl
    subst hl
    cases hpos : lines.length with
    | zero =>
      -- nothing precedes it, so it counts from the line of the function
      obtain rfl := List.length_eq_zero_iff.1 hpos
      obtain rfl := Array.eq_empty_of_size_eq_zero hsize
      obtain rfl : absolute = #[] := Array.eq_empty_iff_forall_not_mem.2 fun a ha => by
        have := h.pc_lt a ha
        simp only [Array.size_empty] at this
        omega
      simp [read, Prototype.lineBase, Prototype.sumLines, hd]
    | succ m =>
      -- it counts from where the one before does, and adds its own difference
      rw [hpos] at hsize
      have hm : lines[m]? = some (lines.getLastD first) := by
        rw [List.getLastD_eq_getLast?, List.getLast?_eq_getElem?, hpos, Nat.add_sub_cancel,
          List.getElem?_eq_getElem (by omega), Option.getD_some]
      have hge := h.lineBase_ge m
      have hle := (Prototype.lineBase_cases (read first info absolute) m).1
      have := ih hm
      rw [h.lineBase_succ hsize,
        show ((m + 1 : Nat) - ((read first info absolute).lineBase m).pc).toNat =
        ((m : Int) - ((read first info absolute).lineBase m).pc).toNat + 1 by omega,
        Prototype.sumLines_succ _ _ (by omega), Prototype.sumLines_push d (by omega) (by omega),
          this, Option.bind_some,
        show (((read first info absolute).lineBase m).pc + 1 +
          (((m : Int) - ((read first info absolute).lineBase m).pc).toNat : Nat)).toNat =
          info.size by omega,
        Array.getElem?_push_size, Option.map_some, if_neg hd]
  | @absolute info absolute lines run line h ih =>
    have hsize := h.size
    rcases Nat.lt_or_ge pc lines.length with hlt | hge'
    · rw [List.getElem?_append_left hlt] at hl
      have hge := h.lineBase_ge pc
      have hle := (Prototype.lineBase_cases (read first info absolute) pc).1
      rw [lineBase_push_lt (by omega), Prototype.sumLines_push _ (by omega) (by omega), ih hl]
    · obtain rfl : pc = info.size := by
        have := (List.getElem?_eq_some_iff.1 hl).1
        simp only [List.length_append, List.length_singleton] at this
        omega
      rw [hsize, List.getElem?_concat_length] at hl
      rw [h.lineBase_push_self, Int.sub_self]
      exact hl

theorem line?_read (h : Encodes first info absolute lines run) {l : Int}
    (hl : lines[pc]? = some l) :
    (read first info absolute).line? pc = some l := by
  have hsum := h.sumLines_eq hl
  have hpos : 0 < info.size := h.size ▸ Nat.zero_lt_of_lt (List.getElem?_eq_some_iff.1 hl).1
  have hne : ¬info.isEmpty = true := by
    rw [Array.isEmpty_iff_size_eq_zero]
    omega
  exact (if_neg hne).trans hsum

theorem run_start (h : Encodes first info absolute lines run) :
    run = info.size ∨ info[info.size - run]? = some lineMarker := by
  induction h with
  | nil => exact .inl rfl
  | @relative info absolute lines run d h hd hr ih =>
    have hle := h.run_le.2
    rcases ih with rfl | ih
    · exact .inl (Array.size_push d).symm
    · obtain ⟨hlt, -⟩ := Array.getElem?_eq_some_iff.1 ih
      right
      rw [Array.size_push, show info.size + 1 - (run + 1) = info.size -
        run by omega, Array.getElem?_push_lt hlt]
      simpa [Array.getElem?_eq_getElem hlt] using ih
  | @absolute info absolute lines run line h ih =>
    right
    simp

theorem exists_marker (h : Encodes first info absolute lines run) {k : Nat}
    (hk : k + maxRun < info.size) :
    ∃ j, k ≤ j ∧ j ≤ k + maxRun ∧ info[j]? = some lineMarker := by
  induction h with
  | nil => simp at hk
  | @relative info absolute lines run d h hd hr ih =>
    rw [Array.size_push] at hk
    obtain ⟨j, hkj, hjk, hj⟩ : ∃ j, k ≤ j ∧ j ≤ k + maxRun ∧ info[j]? = some lineMarker := by
      rcases Nat.lt_or_ge (k + maxRun) info.size with hlt | hge
      · exact ih hlt
      -- the new entry is the last of them, and the run before it is too short to have all the
      -- others
      · rcases h.run_start with hrun | hmark
        · omega
        · exact ⟨info.size - run, by omega, by omega, hmark⟩
    obtain ⟨hlt, heq⟩ := Array.getElem?_eq_some_iff.1 hj
    exact ⟨j, hkj, hjk, by rw [Array.getElem?_push_lt hlt, heq]⟩
  | @absolute info absolute lines run line h ih =>
    rw [Array.size_push] at hk
    rcases Nat.lt_or_ge (k + maxRun) info.size with hlt | hge
    · obtain ⟨j, hkj, hjk, hj⟩ := ih hlt
      obtain ⟨hlt, heq⟩ := Array.getElem?_eq_some_iff.1 hj
      exact ⟨j, hkj, hjk, by rw [Array.getElem?_push_lt hlt, heq]⟩
    · exact ⟨info.size, by omega, by omega, Array.getElem?_push_size⟩

theorem marker_iff (h : Encodes first info absolute lines run) :
    info[pc]? = some lineMarker ↔ ∃ a ∈ absolute, a.pc = pc := by
  induction h with
  | nil => simp
  | @relative info absolute lines run d h hd hr ih =>
    rw [Array.getElem?_push]
    split
    · rename_i hpc
      simp only [Option.some.injEq, hd, false_iff]
      rintro ⟨a, ha, hpc'⟩
      have := h.pc_lt a ha
      omega
    · exact ih
  | @absolute info absolute lines run line h ih =>
    simp only [Array.getElem?_push, Array.mem_push]
    split
    · rename_i hpc
      simp only [true_iff]
      exact ⟨_, .inr rfl, by simp [hpc]⟩
    · rename_i hpc
      rw [ih]
      constructor
      · rintro ⟨a, ha, hpc'⟩
        exact ⟨a, .inl ha, hpc'⟩
      · rintro ⟨a, ha | rfl, hpc'⟩
        · exact ⟨a, ha, hpc'⟩
        · exact absurd (Int.ofNat.inj hpc').symm hpc

theorem count_marker (h : Encodes first info absolute lines run) :
    info.toList.count lineMarker = absolute.size := by
  induction h with
  | nil => rfl
  | relative d h hd hr ih => simp [List.count_append, ih, hd]
  | absolute line h ih => simp [List.count_append, ih]

theorem pairwise_pc (h : Encodes first info absolute lines run) :
    absolute.toList.Pairwise (·.pc < ·.pc) := by
  induction h with
  | nil => exact List.Pairwise.nil
  | relative d h hd hr ih => exact ih
  | absolute line h ih =>
    rw [Array.toList_push, List.pairwise_append]
    refine ⟨ih, List.pairwise_singleton _ _, fun a ha b hb => ?_⟩
    rw [List.mem_singleton.1 hb]
    exact (h.pc_lt a (Array.mem_toList_iff.1 ha)).2

theorem last_cases (h : Encodes first info absolute (lines ++ [line]) run) :
    (∃ info' d run', info = info'.push d ∧ d ≠ lineMarker ∧ run = run' + 1 ∧
      line = lines.getLastD first + d.toInt ∧
      Encodes first info' absolute lines run') ∨
    ∃ info' absolute' run', info = info'.push lineMarker ∧
      absolute = absolute'.push ⟨info'.size, line⟩ ∧
      Encodes first info' absolute' lines run' := by
  generalize hl : lines ++ [line] = all at h
  cases h with
  | nil => simp at hl
  | relative d h hd hr =>
    obtain ⟨rfl, rfl⟩ := List.append_singleton_inj.1 hl
    exact .inl ⟨_, d, _, rfl, hd, rfl, rfl, h⟩
  | absolute _ h =>
    obtain ⟨rfl, rfl⟩ := List.append_singleton_inj.1 hl
    exact .inr ⟨_, _, _, rfl, rfl, h⟩

end Encodes

structure StandsFor (t : LineTable) (first : Int) (lines : List Int) : Prop where
  encodes : Encodes first t.info t.absolute lines t.run
  previous : t.previous = lines.getLastD first

/-- The table stands for lines, but if its run is too long it does not know the last one: an
absolute line was removed. -/
def Remains (t : LineTable) (first : Int) (lines : List Int) : Prop :=
  t.StandsFor first lines ∨ maxRun < t.run ∧ ∃ run, Encodes first t.info t.absolute lines run

theorem Remains.record (h : t.Remains first lines) (line : Int) :
    (t.record line).StandsFor first (lines ++ [line]) := by
  unfold LineTable.record
  dsimp only
  split
  · obtain ⟨run, henc⟩ : ∃ run, Encodes first t.info t.absolute lines run :=
      h.elim (fun h => ⟨_, h.encodes⟩) And.right
    exact ⟨henc.absolute line, by simp⟩
  · rename_i hd
    simp only [Bool.or_eq_true, decide_eq_true_eq, not_or, Nat.not_le] at hd
    obtain ⟨henc, hprev⟩ := h.resolve_right fun h => Nat.lt_asymm h.1 hd.2
    have hline : lines.getLastD first + (Int8.ofInt (line - t.previous)).toInt = line := by
      rw [Int8.toInt_ofInt_of_le (by simp only [differenceLimit] at hd; omega)
        (by simp only [differenceLimit] at hd; omega)]
      omega
    have := henc.relative (Int8.ofInt (line - t.previous)) (difference_ne_marker hd.1) hd.2
    rw [hline] at this
    exact ⟨this, by simp⟩

namespace StandsFor

theorem removeLast (h : t.StandsFor first (lines ++ [line])) :
    t.removeLast.Remains first lines := by
  have hprev : t.previous = line := by simpa using h.previous
  unfold LineTable.removeLast
  obtain ⟨info, d, run, hinfo, hd, hrun, hline, henc⟩ | ⟨info, absolute, run, hinfo, habs, henc⟩ :=
    h.encodes.last_cases
  · rw [hinfo, Array.back?_push]
    dsimp only
    rw [if_neg hd]
    refine .inl ⟨?_, ?_⟩
    · simpa [hrun] using henc
    · simp only
      omega
  · rw [hinfo, Array.back?_push]
    dsimp only
    rw [if_pos rfl]
    exact .inr ⟨Nat.lt_succ_self _, run, by simpa [habs] using henc⟩

theorem fixLast (h : t.StandsFor first (lines ++ [line])) (other : Int) :
    (t.fixLast other).StandsFor first (lines ++ [other]) := h.removeLast.record other

theorem canRemove (h : t.StandsFor first (lines ++ [line])) : t.canRemove = true := by
  unfold LineTable.canRemove
  obtain ⟨info, d, run, hinfo, hd, -, -, -⟩ | ⟨info, absolute, run, hinfo, habs, -⟩ :=
    h.encodes.last_cases
  · rw [hinfo, Array.back?_push]
    simp [hd]
  · rw [hinfo, Array.back?_push]
    simp [habs]

end StandsFor

end LineTable

/-- The line table of a function, given the marks that lines of their own have. -/
structure Prototype.Marked (p : Prototype) : Prop where
  /-- Differences are told from marks, and each mark has its line. -/
  mark : ∀ pc : Nat, p.lineInfo[pc]? = some lineMarker ↔ ∃ a ∈ p.absLines, a.pc = pc
  count : p.lineInfo.toList.count lineMarker = p.absLines.size
  ordered : p.absLines.toList.Pairwise (·.pc < ·.pc)
  short : ∀ pc, pc + LineTable.maxRun < p.lineInfo.size →
    ∃ j, pc ≤ j ∧ j ≤ pc + LineTable.maxRun ∧ p.lineInfo[j]? = some lineMarker

namespace Compile

/-- What the compiler does about the lines of instructions. -/
inductive LineEdit where
  /-- emits an instruction, after a token on the line was passed -/
  | emit (d : Draft) (line : Nat)
  | removeLast
  | fixLine (line : Nat)

def LineEdit.act : LineEdit → M Unit
  | .emit d line => do
    modify fun s => { s with lexer := { s.lexer with lastLine := line } }
    discard (Compile.emit d)
  | .removeLast => Compile.removeLast
  | .fixLine line => Compile.fixLine line

/-- Performs one after the other. -/
def LineEdit.acts : List LineEdit → M Unit
  | [] => pure ()
  | e :: rest => do
    e.act
    LineEdit.acts rest

/-- The lines that were last recorded for the instructions that are there after a history. An
instruction that is removed is replaced at once. -/
inductive Records : List LineEdit → List Nat → Prop
  | nil : Records [] []
  | emit {edits : List LineEdit} {lines : List Nat} (d : Draft) (line : Nat)
    (h : Records edits lines) :
    Records (edits ++ [.emit d line]) (lines ++ [line])
  | fixLine {edits : List LineEdit} {lines : List Nat} {old : Nat} (line : Nat)
    (h : Records edits (lines ++ [old])) :
    Records (edits ++ [.fixLine line]) (lines ++ [line])
  | replace {edits : List LineEdit} {lines : List Nat} {old : Nat} (d : Draft) (line : Nat)
    (h : Records edits (lines ++ [old])) :
    Records (edits ++ [.removeLast, .emit d line]) (lines ++ [line])

variable {edits : List LineEdit} {lines : List Nat} {s : State} {line₀ old : Nat}

/-- The function under construction has an instruction for each line. -/
structure State.HasLines (s : State) (line₀ : Nat) (lines : List Nat) : Prop where
  start : s.fn.lineDefined = line₀
  code : s.fn.code.size = lines.length
  table : s.fn.lines.StandsFor line₀ (lines.map (↑))

structure State.KeepsLines (s : State) (line₀ : Nat) (lines : List Nat) : Prop where
  start : s.fn.lineDefined = line₀
  code : s.fn.code.size = lines.length
  table : s.fn.lines.Remains line₀ (lines.map (↑))

theorem State.HasLines.keepsLines (h : s.HasLines line₀ lines) : s.KeepsLines line₀ lines :=
  ⟨h.start, h.code, .inl h.table⟩

theorem State.KeepsLines.emit (h : s.KeepsLines line₀ lines) (d : Draft) (line : Nat) :
    ∃ s', (LineEdit.emit d line).act s = .ok () s' ∧ s'.HasLines line₀ (lines ++ [line]) := by
  refine ⟨_, rfl, h.start, ?_, ?_⟩
  · simpa using h.code
  · simpa using h.table.record line

theorem State.HasLines.fixLine (h : s.HasLines line₀ (lines ++ [old])) (line : Nat) :
    ∃ s', (LineEdit.fixLine line).act s = .ok () s' ∧ s'.HasLines line₀ (lines ++ [line]) := by
  have htable : s.fn.lines.StandsFor line₀ (lines.map (↑) ++ [(old : Int)]) := by
    simpa using h.table
  refine ⟨{ s with fn := { s.fn with lines := s.fn.lines.fixLast line } }, ?_,
    h.start, by simpa using h.code, ?_⟩
  · show (if s.fn.lines.canRemove = true then _ else _ : M Unit) s = _
    rw [if_pos htable.canRemove]
    rfl
  · simpa using htable.fixLast line

theorem State.HasLines.removeLast (h : s.HasLines line₀ (lines ++ [old])) :
    ∃ s', LineEdit.removeLast.act s = .ok () s' ∧ s'.KeepsLines line₀ lines := by
  have htable : s.fn.lines.StandsFor line₀ (lines.map (↑) ++ [(old : Int)]) := by
    simpa using h.table
  have hcode : s.fn.code.size = lines.length + 1 := by simpa using h.code
  refine ⟨{ s with fn := { s.fn with
      code := s.fn.code.pop, lines := s.fn.lines.removeLast, scopes := s.fn.scopes.pop,
      meant := s.fn.meant.pop } },
    ?_, h.start, by simp [hcode], htable.removeLast⟩
  have hne : s.fn.code.isEmpty = false := by
    rw [Array.isEmpty_eq_false_iff]
    rintro he
    simp [he] at hcode
  show (if (s.fn.lines.canRemove && !s.fn.code.isEmpty) = true then _ else _ : M Unit) s = _
  rw [htable.canRemove, hne]
  rfl

theorem LineEdit.acts_append {more : List LineEdit} {s' s'' : State} (h : acts edits s = .ok () s')
    (h' : acts more s' = .ok () s'') : acts (edits ++ more) s = .ok () s'' := by
  have hsplit : acts (edits ++ more) = (do acts edits; acts more) := by
    clear h h'
    induction edits with
    | nil => rfl
    | cons e rest ih =>
      rw [List.cons_append, acts, acts, ih, bind_assoc]
  rw [hsplit, bind_eq h]
  exact h'

theorem LineEdit.acts_cons {e : LineEdit} {s' s'' : State} (h : e.act s = .ok () s')
    (h' : acts edits s' = .ok () s'') :
    acts (e :: edits) s = .ok () s'' := (bind_eq h).trans h'

/-- A history runs from a function's start, and its instructions have the lines that were
recorded. -/
theorem Records.hasLines (h : Records edits lines) (hs : s.HasLines line₀ []) :
    ∃ s', LineEdit.acts edits s = .ok () s' ∧ s'.HasLines line₀ lines := by
  induction h with
  | nil => exact ⟨s, rfl, hs⟩
  | emit d line h ih =>
    obtain ⟨s₁, hrun, h₁⟩ := ih
    obtain ⟨s₂, hact, h₂⟩ := h₁.keepsLines.emit d line
    exact ⟨s₂, LineEdit.acts_append hrun (LineEdit.acts_cons hact rfl), h₂⟩
  | fixLine line h ih =>
    obtain ⟨s₁, hrun, h₁⟩ := ih
    obtain ⟨s₂, hact, h₂⟩ := h₁.fixLine line
    exact ⟨s₂, LineEdit.acts_append hrun (LineEdit.acts_cons hact rfl), h₂⟩
  | replace d line h ih =>
    obtain ⟨s₁, hrun, h₁⟩ := ih
    obtain ⟨s₂, hremove, h₂⟩ := h₁.removeLast
    obtain ⟨s₃, hemit, h₃⟩ := h₂.emit d line
    exact ⟨s₃, LineEdit.acts_append hrun
      (LineEdit.acts_cons hremove (LineEdit.acts_cons hemit rfl)), h₃⟩

theorem State.hasLines_start (id firstVar firstLabel : Nat)
    (hs : s.fn = .start id line₀ firstVar firstLabel) :
    s.HasLines line₀ [] := by
  refine ⟨by rw [hs]; rfl, by rw [hs]; rfl, ?_⟩
  rw [hs]
  exact ⟨.nil, rfl⟩

/-- What the line table of the finished function says of an instruction is the line that was last
recorded for it. -/
theorem Records.line?_eq (h : Records edits lines) {id firstVar firstLabel : Nat}
    (hs : s.fn = .start id line₀ firstVar firstLabel) (source : Bytes) :
    ∃ s', LineEdit.acts edits s = .ok () s' ∧ (s'.fn.prototype source).code.size = lines.length ∧
      (s'.fn.prototype source).lineInfo.size = lines.length ∧
      (∀ (pc line : Nat), lines[pc]? = some line →
      (s'.fn.prototype source).line? pc = some (line : Int)) ∧
      (s'.fn.prototype source).Marked := by
  obtain ⟨s', hrun, h'⟩ := h.hasLines (State.hasLines_start id firstVar firstLabel hs)
  have henc := h'.table.encodes
  refine ⟨s', hrun, h'.code, by simpa [Builder.prototype] using henc.size, fun pc line hline => ?_,
    fun _ => henc.marker_iff, henc.count_marker, henc.pairwise_pc, fun _ => henc.exists_marker⟩
  have hread : (LineTable.read line₀ s'.fn.lines.info s'.fn.lines.absolute).line? pc =
      some (line : Int) :=
    henc.line?_read (by simp [hline])
  rw [← h'.start] at hread
  exact hread

/-- Lines far apart, and a removal that takes an absolute line away. -/
theorem line?_eq_far_apart :
    let s : State :=
      { lexer := { input := [], numberOf := fun _ => 0, source := [] }, fn := .start 0 0 0 0,
                       maxItems := 0, bound := 0 }
    ∃ s', LineEdit.acts [.emit (.ax .extraArg 0) 1, .emit (.ax .extraArg 0) 300, .removeLast,
        .emit (.ax .extraArg 0) 2, .fixLine 200] s = .ok () s' ∧
      (s'.fn.prototype []).line? 0 = some 1 ∧ (s'.fn.prototype []).line? 1 = some 200 := by
  intro s
  have h₁ : Records [.emit (.ax .extraArg 0) 1] [1] := .emit (.ax .extraArg 0) 1 .nil
  have h₂ : Records [.emit (.ax .extraArg 0) 1, .emit (.ax .extraArg 0) 300] ([1] ++ [300]) :=
    .emit (.ax .extraArg 0) 300 h₁
  have h₃ : Records [.emit (.ax .extraArg 0) 1, .emit (.ax .extraArg 0) 300, .removeLast,
      .emit (.ax .extraArg 0) 2]
      ([1] ++ [2]) := .replace (.ax .extraArg 0) 2 h₂
  obtain ⟨s', hrun, -, -, hlines, -⟩ := (Records.fixLine 200 h₃).line?_eq (s := s) rfl []
  exact ⟨s', hrun, hlines 0 1 rfl, hlines 1 200 rfl⟩

end Compile

end LuaChunk
