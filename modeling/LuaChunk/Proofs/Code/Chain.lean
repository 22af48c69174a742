import LuaChunk.Compile.JumpList
import LuaChunk.Proofs.Code.Flow

/-!
Jump lists by their members. `Chain code ms` says that the jumps at `ms` are threaded in this order;
the operations on lists then do to the code what they should do to each member and to the test
before it, and leave all else as it is.
-/

set_option autoImplicit false

namespace LuaChunk.JumpList

open LuaChunk

theorem fits_endOfList : (Draft.sj .jmp endOfList).fits = true := by decide

/-- There is an instruction of an opcode at a position. -/
def IsOp (code : Code) (p : Nat) (op : Opcode) : Prop :=
  ∃ i, code[p]? = some i ∧ i.opcode? = some op

def Chain (code : Code) : List Nat → Prop
  | [] => True
  | m :: rest => IsOp code m .jmp ∧ next code m = .ok rest.head? ∧ Chain code rest

theorem IsOp.lt {code : Code} {p : Nat} {op : Opcode} (h : IsOp code p op) : p < code.size := by
  obtain ⟨i, hi, -⟩ := h
  exact (Array.getElem?_eq_some_iff.1 hi).1

theorem IsOp.congr {code code' : Code} {p : Nat} {op : Opcode} (h : code'[p]? = code[p]?)
    (ho : IsOp code p op) : IsOp code' p op := by
  obtain ⟨i, hi, hop⟩ := ho
  exact ⟨i, h.trans hi, hop⟩

theorem next_congr {code code' : Code} {p : Nat} (h : code'[p]? = code[p]?) :
    next code' p = next code p := by
  simp [next, h]

namespace Chain

variable {code code' : Code} {ms ms' : List Nat}

theorem congr (h : Chain code ms) (hc : ∀ m ∈ ms, code'[m]? = code[m]?) : Chain code' ms := by
  induction ms with
  | nil => trivial
  | cons m rest ih =>
    obtain ⟨hj, hn, hr⟩ := h
    have hm := hc m (List.mem_cons_self ..)
    refine ⟨hj.congr hm, (next_congr hm).trans hn, ih hr ?_⟩
    intro m' hm'
    exact hc m' (List.mem_cons_of_mem _ hm')

theorem isOp (h : Chain code ms) {m : Nat} (hm : m ∈ ms) : IsOp code m .jmp := by
  induction ms with
  | nil => cases hm
  | cons m' rest ih =>
    cases hm with
    | head => exact h.1
    | tail _ hm => exact ih h.2.2 hm

theorem length_le (h : Chain code ms) (hn : ms.Nodup) : ms.length ≤ code.size := by
  have hsub : ms ⊆ List.range code.size := by
    intro m hm
    exact List.mem_range.2 (h.isOp hm).lt
  simpa using hn.length_le_of_subset hsub

end Chain

/-- The distance from a jump to a position fits the jump. -/
def Reaches (pc dest : Nat) : Prop :=
  -Instruction.offsetSJ ≤ (dest : Int) - (pc + 1) ∧
    (dest : Int) - (pc + 1) ≤ Instruction.maxSJ - Instruction.offsetSJ

theorem fix_eq {code : Code} {pc : Nat} (dest : Nat) (h : pc < code.size) :
    fix code pc dest = .error .tooLong ∨
      (fix code pc dest = .ok (code.modify pc (·.setSJ ((dest : Int) - (pc + 1)))) ∧
        -Instruction.offsetSJ ≤ (dest : Int) - (pc + 1) ∧
        (dest : Int) - (pc + 1) ≤ Instruction.maxSJ - Instruction.offsetSJ) := by
  unfold fix
  simp only [h, if_true]
  split
  · rename_i hr
    simp only [Bool.and_eq_true, decide_eq_true_eq] at hr
    exact .inr ⟨rfl, hr⟩
  · exact .inl rfl

theorem not_reaches {code : Code} {pc dest : Nat} (h : fix code pc dest = .error .tooLong) :
    ¬ Reaches pc dest := by
  rintro ⟨hl, hu⟩
  unfold fix at h
  simp only [hl, hu, decide_true, Bool.and_true, if_true] at h
  split at h <;> cases h

theorem fix_ne_tooLong {code : Code} {pc dest : Nat} (hpc : pc < code.size)
    (hsize : (code.size : Int) ≤ Instruction.offsetSJ)
    (hdest : (dest : Int) ≤ Instruction.offsetSJ) : fix code pc dest ≠ .error .tooLong := by
  intro h
  have hrange : -Instruction.offsetSJ ≤ (dest : Int) - (pc + 1) ∧
      (dest : Int) - (pc + 1) ≤ Instruction.maxSJ - Instruction.offsetSJ := by
    simp only [Instruction.offsetSJ, Instruction.maxSJ] at hsize hdest ⊢
    omega
  exact not_reaches h hrange

theorem getElem?_modify_self {code : Code} {p : Nat} {i : Instruction} (h : code[p]? = some i)
    (f : Instruction → Instruction) : (code.modify p f)[p]? = some (f i) := by
  simp [Array.getElem?_modify, h]

theorem getElem?_modify_ne {code : Code} {p q : Nat} (h : p ≠ q) (f : Instruction → Instruction) :
    (code.modify p f)[q]? = code[q]? := by
  simp [Array.getElem?_modify, h]

theorem next_fixed {code : Code} {pc dest : Nat} (hj : IsOp code pc .jmp) (hne : dest ≠ pc)
    (hl : -Instruction.offsetSJ ≤ (dest : Int) - (pc + 1))
    (hu : (dest : Int) - (pc + 1) ≤ Instruction.maxSJ - Instruction.offsetSJ) :
    next (code.modify pc (·.setSJ ((dest : Int) - (pc + 1)))) pc = .ok (some dest) := by
  obtain ⟨i, hi, hop⟩ := hj
  unfold next
  rw [getElem?_modify_self hi]
  simp only [Instruction.sj_setSJ i hl hu, endOfList]
  rw [if_neg (by omega), if_neg (by omega)]
  congr 2
  omega

theorem last_eq {code : Code} (fuel : Nat) (m : Nat) (rest : List Nat)
    (h : Chain code (m :: rest)) (hf : rest.length < fuel) :
    last code fuel m = .ok ((m :: rest).getLast (by simp)) := by
  induction rest generalizing m fuel with
  | nil =>
    obtain ⟨fuel, rfl⟩ : ∃ k, fuel = k + 1 := ⟨fuel - 1, by simp at hf; omega⟩
    simp [last, h.2.1]
  | cons m' rest ih =>
    obtain ⟨fuel, rfl⟩ : ∃ k, fuel = k + 1 := ⟨fuel - 1, by simp at hf; omega⟩
    have := ih fuel m' h.2.2 (by simp at hf; omega)
    simp [last, h.2.1, this]

theorem Chain.join {code : Code} (ms : List Nat) (b : Nat) (ms' : List Nat)
    (h : Chain code ms) (h' : Chain code (b :: ms')) (hn : (ms ++ b :: ms').Nodup) (hne : ms ≠ [])
    (hl : -Instruction.offsetSJ ≤ (b : Int) - (ms.getLast hne + 1))
    (hu : (b : Int) - (ms.getLast hne + 1) ≤ Instruction.maxSJ - Instruction.offsetSJ) :
    Chain (code.modify (ms.getLast hne) (·.setSJ ((b : Int) - (ms.getLast hne + 1))))
      (ms ++ b :: ms') := by
  induction ms with
  | nil => exact absurd rfl hne
  | cons m rest ih =>
    cases rest with
    | nil =>
      simp only [List.cons_append, List.nil_append, List.nodup_cons] at hn
      have hmb : b ≠ m := fun e => hn.1 (by simp [e])
      obtain ⟨i, hi, hop⟩ := h.1
      refine ⟨⟨_, getElem?_modify_self hi _, by simpa using hop⟩, next_fixed h.1 hmb hl hu, ?_⟩
      apply h'.congr
      intro m' hm'
      apply getElem?_modify_ne
      rintro rfl
      exact hn.1 hm'
    | cons m₂ rest =>
      simp only [List.getLast_cons (List.cons_ne_nil m₂ rest)] at hl hu ⊢
      have hn' := List.nodup_cons.1 hn
      have hlast : (m₂ :: rest).getLast (List.cons_ne_nil _ _) ≠ m := by
        intro e
        apply hn'.1
        rw [← e]
        exact List.mem_append_left _ (List.getLast_mem _)
      have hm := @getElem?_modify_ne code _ _ hlast
        (·.setSJ ((b : Int) - ((m₂ :: rest).getLast (List.cons_ne_nil _ _) + 1)))
      exact ⟨h.1.congr hm, (next_congr hm).trans h.2.1,
        ih h.2.2 hn'.2 (List.cons_ne_nil _ _) hl hu⟩

/-- What joining two lists does: the jumps stay jumps, and nothing else changes. -/
structure Joined (code code' : Code) (ms : List Nat) : Prop where
  chain : Chain code' ms
  size : code'.size = code.size
  same : ∀ p, p ∉ ms → code'[p]? = code[p]?
  jump : ∀ p i, p ∈ ms → code[p]? = some i → ∃ v, code'[p]? = some (i.setSJ v) ∨ code'[p]? = some i

theorem append_spec {code : Code} {ms ms' : List Nat} (h : Chain code ms) (h' : Chain code ms')
    (hn : (ms ++ ms').Nodup) :
    append code ms.head? ms'.head? = .error .tooLong ∨
      ∃ code', append code ms.head? ms'.head? = .ok (code', (ms ++ ms').head?) ∧
        Joined code code' (ms ++ ms') := by
  cases ms with
  | nil =>
    refine .inr ⟨code, ?_, h', rfl, fun _ _ => rfl, fun p i _ hi => ⟨0, .inr hi⟩⟩
    cases ms' <;> rfl
  | cons a rest =>
    cases ms' with
    | nil =>
      refine .inr ⟨code, rfl, ?_, rfl, fun _ _ => rfl, fun p i _ hi => ⟨0, .inr hi⟩⟩
      simpa using h
    | cons b rest' =>
      have hlen := h.length_le (List.nodup_append.1 hn).1
      have hlast := last_eq (code.size + 1) a rest h (by simp at hlen; omega)
      have hz : (a :: rest).getLast (by simp) ∈ a :: rest := List.getLast_mem _
      rcases fix_eq b (h.isOp hz).lt with hf | ⟨hf, hl, hu⟩
      · left
        simp [append, hlast, hf]
      · right
        refine ⟨_, by simp only [append, List.head?_cons, hlast, hf, List.cons_append],
          h.join (a :: rest) b rest' h' hn (by simp) hl hu, by simp, ?_, ?_⟩
        · intro p hp
          apply getElem?_modify_ne
          rintro rfl
          exact hp (List.mem_append_left _ hz)
        · intro p i hp hi
          by_cases he : (a :: rest).getLast (by simp) = p
          · subst he
            exact ⟨_, .inl (getElem?_modify_self hi _)⟩
          · exact ⟨0, .inr ((getElem?_modify_ne he _).trans hi)⟩

theorem append_eq {code : Code} {ms : List Nat} {z : Nat} (h : Chain code ms) (hn : ms.Nodup)
    (hz : ms.getLast? = some z)
    (b : Nat) : append code ms.head? (some b) = (fix code z b).map (·, ms.head?) := by
  cases ms with
  | nil => cases hz
  | cons a rest =>
    have hlen := h.length_le hn
    have hlast := last_eq (code.size + 1) a rest h (by simp at hlen; omega)
    rw [List.getLast?_eq_some_getLast (List.cons_ne_nil a rest)] at hz
    simp only [append, List.head?_cons, hlast, Option.some.inj hz]
    cases fix code z b <;> rfl

/-- Two lists are too far apart only if the last jump of the first one does not reach the second
one. -/
theorem not_reaches_of_append {code : Code} {ms ms' : List Nat} (h : Chain code ms) (hn : ms.Nodup)
    (he : append code ms.head? ms'.head? = .error .tooLong) :
    ∃ z b, ms.getLast? = some z ∧ ms'.head? = some b ∧ ¬ Reaches z b := by
  cases hb : ms'.head? with
  | none =>
    rw [hb] at he
    cases hm : ms.head? <;> rw [hm] at he <;> cases he
  | some b =>
    cases hz : ms.getLast? with
    | none =>
      rw [List.getLast?_eq_none_iff.1 hz, hb] at he
      cases he
    | some z =>
      rw [hb, append_eq h hn hz] at he
      refine ⟨z, b, rfl, rfl, ?_⟩
      rcases fix_eq b (h.isOp (List.mem_of_getLast? hz)).lt with hf | ⟨hf, -⟩
      · exact not_reaches hf
      · rw [hf] at he
        cases he

/-- Nothing but the last jump of the first list changes, and that only if there is a second one. -/
theorem append_same {code code' : Code} {ms ms' : List Nat} {list : Option Nat} (h : Chain code ms)
    (hn : ms.Nodup)
    (he : append code ms.head? ms'.head? = .ok (code', list)) {p : Nat}
    (hp : ms.getLast? ≠ some p ∨ ms' = []) :
    code'[p]? = code[p]? := by
  cases ms' with
  | nil =>
    cases hm : ms.head? <;> rw [hm] at he <;> cases he <;> rfl
  | cons b rest =>
    cases hz : ms.getLast? with
    | none =>
      rw [List.getLast?_eq_none_iff.1 hz] at he
      cases he
      rfl
    | some z =>
      rw [List.head?_cons, append_eq h hn hz] at he
      rcases fix_eq b (h.isOp (List.mem_of_getLast? hz)).lt with hf | ⟨hf, -⟩
      · rw [hf] at he
        cases he
      · rw [hf] at he
        cases he
        refine getElem?_modify_ne ?_ _
        rintro rfl
        exact hp.elim (fun hne => hne hz) fun hnil => absurd hnil (List.cons_ne_nil _ _)

theorem IsOp.unique {code : Code} {p : Nat} {op op' : Opcode} (h : IsOp code p op)
    (h' : IsOp code p op') : op = op' := by
  obtain ⟨i, hi, hop⟩ := h
  obtain ⟨i', hi', hop'⟩ := h'
  cases hi.symm.trans hi'
  exact Option.some.inj (hop.symm.trans hop')

theorem control_of_testSet {code : Code} {q : Nat} (h : IsOp code q .testSet) :
    control code (q + 1) = q := by
  obtain ⟨i, hi, hop⟩ := h
  simp [control, hi, Instruction.isTest, hop, Opcode.isTest]

theorem control_cases (code : Code) (m : Nat) :
    control code m = m ∨ ∃ q i, m = q + 1 ∧ code[q]? = some i ∧ i.isTest = true ∧
      control code m = q := by
  cases m with
  | zero => exact .inl rfl
  | succ q =>
    cases hq : code[q]? with
    | none => left; simp [control, hq]
    | some i =>
      by_cases ht : i.isTest = true
      · exact .inr ⟨q, i, rfl, hq, ht, by simp [control, hq, ht]⟩
      · left; simp [control, hq, ht]

theorem storesValue_iff {code : Code} {m : Nat} (hj : IsOp code m .jmp) :
    storesValue code m = true ↔ ∃ q, m = q + 1 ∧ IsOp code q .testSet := by
  constructor
  · intro h
    unfold storesValue at h
    rcases control_cases code m with hc | ⟨q, i, hm, hi, -, hc⟩
    · obtain ⟨j, hj, hop⟩ := hj
      rw [hc, hj] at h
      have := Instruction.is_iff.1 h
      rw [hop] at this
      cases this
    · rw [hc, hi] at h
      exact ⟨q, hm, i, hi, Instruction.is_iff.1 h⟩
  · rintro ⟨q, rfl, h⟩
    have hc := control_of_testSet h
    obtain ⟨i, hi, hop⟩ := h
    simp only [storesValue, hc, hi]
    exact Instruction.is_iff.2 hop

/-- The tests that store a value for a jump of the list are redirected, and nothing else changes. -/
structure Retested (code code' : Code) (ms : List Nat) (reg : Option Nat) : Prop where
  size : code'.size = code.size
  test : ∀ q i, q + 1 ∈ ms → code[q]? = some i → i.opcode? = some .testSet →
    code'[q]? = some (redirected i reg)
  same : ∀ q, (q + 1 ∈ ms → ¬ IsOp code q .testSet) → code'[q]? = code[q]?

theorem redirect_spec {code : Code} {m : Nat} (hj : IsOp code m .jmp) (reg : Option Nat) :
    Retested code (redirect code m reg) [m] reg := by
  refine ⟨size_redirect .., ?_, ?_⟩
  · intro q i hq hi hop
    obtain rfl : q + 1 = m := by simpa using hq
    have hc := control_of_testSet ⟨i, hi, hop⟩
    simp only [redirect, hc, hi, Instruction.is_iff.2 hop, if_true]
    exact getElem?_modify_self hi _
  · intro q hq
    unfold redirect
    rcases control_cases code m with hc | ⟨p, i, hm, hi, -, hc⟩
    · obtain ⟨j, hj, hop⟩ := hj
      simp only [hc, hj]
      rw [if_neg]
      intro h
      rw [Instruction.is_iff, hop] at h
      cases h
    · simp only [hc, hi]
      split
      · rename_i his
        apply getElem?_modify_ne
        rintro rfl
        exact hq (by simp [hm]) ⟨i, hi, Instruction.is_iff.1 his⟩
      · rfl

namespace Retested

variable {code code' : Code} {ms : List Nat} {reg : Option Nat}

theorem jump_same (h : Retested code code' ms reg) {p : Nat} (hj : IsOp code p .jmp) :
    code'[p]? = code[p]? := by
  apply h.same
  intro _ ht
  cases hj.unique ht

theorem chain (h : Retested code code' ms reg) {ms' : List Nat} (hc : Chain code ms') :
    Chain code' ms' := by
  apply hc.congr
  intro m hm
  exact h.jump_same (hc.isOp hm)

end Retested

theorem removeValues_spec {code : Code} {ms : List Nat} (h : Chain code ms) (hn : ms.Nodup)
    (fuel : Nat) (hf : ms.length ≤ fuel) :
    ∃ code', removeValues code fuel ms.head? = .ok code' ∧ Retested code code' ms none := by
  induction ms generalizing code fuel with
  | nil =>
    refine ⟨code, ?_, rfl, ?_, fun _ _ => rfl⟩
    · cases fuel <;> rfl
    · intro q i hq
      cases hq
  | cons m rest ih =>
    obtain ⟨fuel, rfl⟩ : ∃ k, fuel = k + 1 := ⟨fuel - 1, by simp at hf; omega⟩
    have hr := redirect_spec h.1 none
    obtain ⟨hm, hn'⟩ := List.nodup_cons.1 hn
    obtain ⟨code', hok, ht⟩ := ih (hr.chain h.2.2) hn' fuel (by simp at hf; omega)
    have hnext : next (redirect code m none) m = .ok rest.head? :=
      (next_congr (hr.jump_same h.1)).trans h.2.1
    refine ⟨code', by simp only [removeValues, List.head?_cons, hnext, hok], ?_, ?_, ?_⟩
    · exact ht.size.trans hr.size
    · intro q i hq hi hop
      by_cases hqm : q + 1 = m
      · rw [ht.same q (fun hq' => absurd (hqm ▸ hq') hm)]
        exact hr.test q i (by simp [hqm]) hi hop
      · apply ht.test q i (by simpa [hqm] using hq) _ hop
        rw [hr.same q (by simp [hqm])]
        exact hi
    · intro q hq
      have hq₁ := hr.same q (fun hq' => hq (by simp only [List.mem_singleton] at hq'; simp [hq']))
      rw [ht.same q, hq₁]
      intro hq' hop
      exact hq (List.mem_cons_of_mem _ hq') (hop.congr hq₁.symm)

/-- The test right before a jump stores a value. -/
def Storing (code : Code) (m : Nat) : Prop := ∃ q, m = q + 1 ∧ IsOp code q .testSet

/-- Where a jump is to be sent: to one position if the test before it stores a value, and else to
another. -/
structure Destined (code : Code) (valueTarget : Nat) (plain : Option Nat) (m t : Nat) : Prop where
  storing : Storing code m → t = valueTarget
  other : ¬ Storing code m → plain = some t

/-- The jumps of a list have been sent to their destinations, and the tests that store a value for
one of them have been redirected. -/
structure Aimed (code code' : Code) (ms : List Nat) (valueTarget : Nat) (reg plain : Option Nat)
    (aims : List (Nat × Nat)) : Prop where
  size : code'.size = code.size
  visited : aims.map Prod.fst = ms.reverse
  test : ∀ q i, q + 1 ∈ ms → code[q]? = some i → i.opcode? = some .testSet →
    code'[q]? = some (redirected i reg)
  jump : ∀ m i, m ∈ ms → code[m]? = some i → ∃ t, (m, t) ∈ aims ∧
    code'[m]? = some (i.setSJ ((t : Int) - (m + 1))) ∧
    (i.setSJ ((t : Int) - (m + 1))).sj = (t : Int) - (m + 1) ∧
    ((∃ q, m = q + 1 ∧ IsOp code q .testSet) → t = valueTarget) ∧
    ((∀ q, m = q + 1 → ¬ IsOp code q .testSet) → plain = some t)
  same : ∀ q, q ∉ ms → (q + 1 ∈ ms → ¬ IsOp code q .testSet) → code'[q]? = code[q]?

theorem patch_spec {code : Code} {ms : List Nat} (valueTarget : Nat) (reg plain : Option Nat)
    (aims : List (Nat × Nat)) (h : Chain code ms) (hn : ms.Nodup)
    (hp : plain = none → ∀ m ∈ ms, ∃ q, m = q + 1 ∧ IsOp code q .testSet)
    (fuel : Nat) (hf : ms.length ≤ fuel) :
    (patch code valueTarget reg plain aims fuel ms.head? = .error .tooLong ∧
        ∃ m ∈ ms, ∃ t, Destined code valueTarget plain m t ∧ ¬ Reaches m t) ∨
      ∃ code' new, patch code valueTarget reg plain aims fuel ms.head? = .ok (code', new ++ aims) ∧
        Aimed code code' ms valueTarget reg plain new := by
  induction ms generalizing code fuel aims with
  | nil =>
    refine .inr ⟨code, [], ?_, rfl, rfl, ?_, ?_, fun _ _ _ => rfl⟩
    · cases fuel <;> rfl
    · intro q i hq
      cases hq
    · intro m i hm
      cases hm
  | cons m rest ih =>
    obtain ⟨fuel, rfl⟩ : ∃ k, fuel = k + 1 := ⟨fuel - 1, by simp at hf; omega⟩
    obtain ⟨hm, hn'⟩ := List.nodup_cons.1 hn
    have hr := redirect_spec h.1 reg
    have hmj : IsOp (redirect code m reg) m .jmp := h.1.congr (hr.jump_same h.1)
    -- the destination of the first jump
    obtain ⟨t, htarget, hval, hplain⟩ : ∃ t, (if storesValue code m then some valueTarget
        else plain) = some t ∧ ((∃ q, m = q + 1 ∧ IsOp code q .testSet) → t = valueTarget) ∧
        ((∀ q, m = q + 1 → ¬ IsOp code q .testSet) → plain = some t) := by
      by_cases hs : storesValue code m = true
      · refine ⟨valueTarget, by simp [hs], fun _ => rfl, ?_⟩
        intro hno
        obtain ⟨q, hq, hop⟩ := (storesValue_iff h.1).1 hs
        exact absurd hop (hno q hq)
      · have hno : ¬ ∃ q, m = q + 1 ∧ IsOp code q .testSet :=
          fun e => hs ((storesValue_iff h.1).2 e)
        cases hpl : plain with
        | none => exact absurd (hp hpl m (List.mem_cons_self ..)) hno
        | some t => exact ⟨t, by simp [hs], fun e => absurd e hno, fun _ => rfl⟩
    rcases fix_eq t hmj.lt with hfix | ⟨hfix, hl, hu⟩
    · refine .inl
        ⟨by simp only [patch, List.head?_cons, h.2.1, htarget, hfix],
          m, List.mem_cons_self .., t, ⟨hval, ?_⟩,
        not_reaches hfix⟩
      exact fun hno => hplain fun q hq hop => hno ⟨q, hq, hop⟩
    · -- the code after the first jump
      have hsame : ∀ q, q ≠ m → ((redirect code m reg).modify m
          (·.setSJ ((t : Int) - (m + 1))))[q]? = (redirect code m reg)[q]? :=
        fun q hq => getElem?_modify_ne (Ne.symm hq) _
      generalize hc : (redirect code m reg).modify m (·.setSJ ((t : Int) - (m + 1))) = code₁ at *
      have hj₁ : ∀ q, q ≠ m → IsOp code q .jmp → code₁[q]? = code[q]? :=
        fun q hq hj => (hsame q hq).trans (hr.jump_same hj)
      have hrest : ∀ m' ∈ rest, m' ≠ m := fun m' hm' e => hm (e ▸ hm')
      have hback : ∀ q, q + 1 ∈ rest → q ≠ m → code₁[q]? = code[q]? := by
        intro q hq hqm
        rw [hsame q hqm]
        apply hr.same
        intro hq'
        simp only [List.mem_singleton] at hq'
        exact absurd (hq' ▸ hq) hm
      have hset : ∀ q, q + 1 ∈ rest → (IsOp code₁ q .testSet ↔ IsOp code q .testSet) := by
        intro q hq
        by_cases hqm : q = m
        · subst hqm
          have h₁ : IsOp code₁ q .jmp := by
            obtain ⟨i, hi, hop⟩ := hmj
            exact ⟨_, hc ▸ getElem?_modify_self hi _, by simpa using hop⟩
          constructor
          · intro e; cases h₁.unique e
          · intro e; cases h.1.unique e
        · exact ⟨fun e => e.congr (hback q hq hqm).symm, fun e => e.congr (hback q hq hqm)⟩
      have hch : Chain code₁ rest :=
        h.2.2.congr fun m' hm' => hj₁ m' (hrest m' hm') (h.2.2.isOp hm')
      have hp₁ : plain = none → ∀ m' ∈ rest, ∃ q, m' = q + 1 ∧ IsOp code₁ q .testSet := by
        intro hpl m' hm'
        obtain ⟨q, rfl, hop⟩ := hp hpl m' (List.mem_cons_of_mem _ hm')
        exact ⟨q, rfl, (hset q hm').2 hop⟩
      have hpatch : patch code valueTarget reg plain aims (fuel + 1) (m :: rest).head?
          = patch code₁ valueTarget reg plain ((m, t) :: aims) fuel rest.head? := by
        simp only [patch, List.head?_cons, h.2.1, htarget, hfix]
      rcases ih ((m, t) :: aims) hch hn' hp₁ fuel (by simp at hf; omega)
        with ⟨he, m', hm', t', hd, hfar⟩ | ⟨code', new, hok, ha⟩
      · have hstoring : Storing code₁ m' ↔ Storing code m' := by
          constructor <;> rintro ⟨q, rfl, hop⟩
          · exact ⟨q, rfl, (hset q hm').1 hop⟩
          · exact ⟨q, rfl, (hset q hm').2 hop⟩
        exact .inl ⟨hpatch.trans he, m', List.mem_cons_of_mem _ hm', t',
          ⟨fun hs => hd.storing (hstoring.2 hs), fun hs => hd.other fun hs' => hs (hstoring.1 hs')⟩,
            hfar⟩
      · refine .inr ⟨code', new ++ [(m, t)], by rw [hpatch, hok]; simp, ?_, ?_, ?_, ?_, ?_⟩
        · rw [ha.size, ← hc, Array.size_modify, hr.size]
        · rw [List.map_append, ha.visited, List.reverse_cons]
          rfl
        · intro q i hq hi hop
          have hqm : q ≠ m := by
            rintro rfl
            cases h.1.unique ⟨i, hi, hop⟩
          by_cases hq' : q + 1 ∈ rest
          · exact ha.test q i hq' ((hback q hq' hqm).trans hi) hop
          · have hqm₁ : q + 1 = m := by simpa [hq'] using hq
            have hqr : q ∉ rest := fun e => by cases (h.2.2.isOp e).unique ⟨i, hi, hop⟩
            rw [ha.same q hqr (fun e => absurd e hq'), hsame q hqm]
            exact hr.test q i (by simp [hqm₁]) hi hop
        · intro m' i hm' hi
          by_cases hmm : m' = m
          · subst hmm
            have hi₁ : (redirect code m' reg)[m']? = some i := (hr.jump_same h.1).trans hi
            refine ⟨t, by simp, ?_, Instruction.sj_setSJ i hl hu, hval, hplain⟩
            rw [ha.same m' hm]
            · rw [← hc]
              exact getElem?_modify_self hi₁ _
            · intro hq e
              have := (hset m' hq).1 e
              cases h.1.unique this
          · have hm'' : m' ∈ rest := by simpa [hmm] using hm'
            have hj' := h.2.2.isOp hm''
            obtain ⟨t', hmem, hcode, hsj, hv, hpl⟩ := ha.jump m' i hm'' ((hj₁ m' hmm hj').trans hi)
            refine ⟨t', List.mem_append_left _ hmem, hcode, hsj, ?_, ?_⟩
            · rintro ⟨q, rfl, hop⟩
              exact hv ⟨q, rfl, (hset q hm'').2 hop⟩
            · intro hno
              apply hpl
              rintro q rfl hop
              exact hno q rfl ((hset q hm'').1 hop)
        · intro q hq hqt
          have hqm : q ≠ m := fun e => hq (e ▸ List.mem_cons_self ..)
          have hqr : q ∉ rest := fun e => hq (List.mem_cons_of_mem _ e)
          have h₁ : code₁[q]? = code[q]? := by
            rw [hsame q hqm]
            apply hr.same
            intro e
            exact hqt (by simp only [List.mem_singleton] at e; simp [e])
          rw [ha.same q hqr, h₁]
          intro hq' e
          exact hqt (List.mem_cons_of_mem _ hq') (e.congr h₁.symm)

theorem needsValue_spec {code : Code} {ms : List Nat} (h : Chain code ms) (fuel : Nat)
    (hf : ms.length ≤ fuel) :
    ∃ b, needsValue code fuel ms.head? = .ok b ∧
      (b = true ↔ ∃ m ∈ ms, ¬ Storing code m) := by
  induction ms generalizing fuel with
  | nil =>
    refine ⟨false, ?_, ?_⟩
    · cases fuel <;> rfl
    · simp
  | cons m rest ih =>
    obtain ⟨fuel, rfl⟩ : ∃ k, fuel = k + 1 := ⟨fuel - 1, by simp at hf; omega⟩
    have hlt := h.1.lt
    by_cases hs : storesValue code m = true
    · obtain ⟨b, hok, hb⟩ := ih h.2.2 fuel (by simp at hf; omega)
      refine ⟨b, ?_, ?_⟩
      · simp only [needsValue, List.head?_cons, hs, if_true, h.2.1, hok]
        rw [if_neg (by omega)]
      · rw [hb]
        constructor
        · rintro ⟨m', hm', hno⟩
          exact ⟨m', List.mem_cons_of_mem _ hm', hno⟩
        · rintro ⟨m', hm', hno⟩
          rcases List.mem_cons.1 hm' with rfl | hm'
          · exact absurd ((storesValue_iff h.1).1 hs) hno
          · exact ⟨m', hm', hno⟩
    · refine ⟨true, ?_, fun _ =>
        ⟨m, List.mem_cons_self .., fun hs' => hs ((storesValue_iff h.1).2 hs')⟩, fun _ => rfl⟩
      simp only [needsValue, List.head?_cons, hs]
      rw [if_neg (by omega)]
      simp

end LuaChunk.JumpList
