import LuaChunk.Proofs.Code.Edit

set_option autoImplicit false

namespace LuaChunk

open JumpList (Code IsOp Chain)

def Pending.Listed (P : List Pending) (m : Nat) : Prop := ∃ ms l, .list ms l ∈ P ∧ m ∈ ms

/-- How many registers a loop with its state from `base` on needs. -/
def loopSpan (isGeneric : Bool) : Nat := if isGeneric then 7 else 4

namespace Instruction

/-- The short returns also have the operand that says how many values there are. -/
def ReturnForm (i : Instruction) : Prop :=
  (i.opcode? = some .ret0 → i.b = 1) ∧ (i.opcode? = some .ret1 → i.b = 2)

theorem returnForm_of {i : Instruction} {op : Opcode} (h : i.opcode? = some op)
    (hn : op.isReturn = false) : i.ReturnForm := by
  constructor <;> intro h' <;> cases h.symm.trans h' <;> cases hn

end Instruction

structure Bounds (code : Code) (maxStack : Nat) (P : List Pending) : Prop where
  registers : ∀ (p : Nat) (i : Instruction), code[p]? = some i → ∀ r ∈ i.registers,
    r < maxStack ∨ i.opcode? = some .testSet ∧ i.b < maxStack ∧ Pending.Listed P (p + 1)
  loops : ∀ pc base l g, .loop pc base l g ∈ P → base + loopSpan g ≤ maxStack
  returns : ∀ (p : Nat) (i : Instruction), code[p]? = some i → i.ReturnForm

namespace Bounds

variable {code code' : Code} {n n' : Nat} {P P' Q X : List Pending}

theorem mono (h : Bounds code n P) (hn : n ≤ n') : Bounds code n' P where
  registers p i hi r hr := (h.registers p i hi r hr).imp (Nat.lt_of_lt_of_le · hn)
    fun ⟨ho, hb, hm⟩ => ⟨ho, Nat.lt_of_lt_of_le hb hn, hm⟩
  loops pc base l g hx := Nat.le_trans (h.loops pc base l g hx) hn
  returns := h.returns

theorem reframe (h : Bounds code n P) (hl : ∀ m, Pending.Listed P m → Pending.Listed P' m)
    (hloop : ∀ pc base l g, .loop pc base l g ∈ P' → .loop pc base l g ∈ P) : Bounds code n P' where
  registers p i hi r hr := (h.registers p i hi r hr).imp_right fun ⟨ho, hr, hm⟩ => ⟨ho, hr, hl _ hm⟩
  loops pc base l g hx := h.loops pc base l g (hloop pc base l g hx)
  returns := h.returns

theorem grow (h : Bounds code n P) (hg : Grows code code')
    (hret : ∀ (p : Nat) (i : Instruction), code.size ≤ p → code'[p]? = some i → i.ReturnForm)
    (hnew : ∀ (p : Nat) (i : Instruction), code.size ≤ p → code'[p]? = some i → ∀ r ∈ i.registers,
      r < n ∨ i.opcode? = some .testSet ∧ i.b < n ∧ Pending.Listed X (p + 1))
    (hloops : ∀ pc base l g, .loop pc base l g ∈ X → base + loopSpan g ≤ n) :
    Bounds code' n (X ++ P) := by
  refine ⟨?_, ?_, ?_⟩
  · intro p i hi r hr
    by_cases hp : code.size ≤ p
    · refine (hnew p i hp hi r hr).imp_right ?_
      rintro ⟨ho, hr, ms, l, hx, hm⟩
      exact ⟨ho, hr, ms, l, List.mem_append_left _ hx, hm⟩
    · refine (h.registers p i (hg.back (by omega) hi) r hr).imp_right ?_
      rintro ⟨ho, hr, ms, l, hx, hm⟩
      exact ⟨ho, hr, ms, l, List.mem_append_right _ hx, hm⟩
  · intro pc base l g hx
    rcases List.mem_append.1 hx with hx | hx
    · exact hloops pc base l g hx
    · exact h.loops pc base l g hx
  · intro p i hi
    by_cases hp : code.size ≤ p
    · exact hret p i hp hi
    · exact h.returns p i (hg.back (by omega) hi)

theorem update (h : Bounds code n P) (hs : code'.size = code.size)
    (hc : ∀ (p : Nat) (i i' : Instruction), code[p]? = some i → code'[p]? = some i' →
      i' = i ∧ (Pending.Listed P (p + 1) → i.opcode? = some .testSet → Pending.Listed P' (p + 1)) ∨
        (∀ r ∈ i'.registers, r < n) ∧ ∃ op, i'.opcode? = some op ∧ op.isReturn = false)
    (hloop : ∀ pc base l g, .loop pc base l g ∈ P' → .loop pc base l g ∈ P) : Bounds code' n
    P' := by
  have hold : ∀ (p : Nat) (i' : Instruction), code'[p]? = some i' → ∃ i, code[p]? = some i := by
    intro p i' hi'
    have hp := (Array.getElem?_eq_some_iff.1 hi').1
    rw [hs] at hp
    exact ⟨_, Array.getElem?_eq_getElem hp⟩
  refine ⟨?_, fun pc base l g hx => h.loops pc base l g (hloop pc base l g hx), ?_⟩
  · intro p i' hi' r hr
    obtain ⟨i, hi⟩ := hold p i' hi'
    rcases hc p i i' hi hi' with ⟨rfl, hm⟩ | ⟨hlt, -⟩
    · exact (h.registers p i' hi r hr).imp_right fun ⟨ho, hr, hl⟩ => ⟨ho, hr, hm hl ho⟩
    · exact .inl (hlt r hr)
  · intro p i' hi'
    obtain ⟨i, hi⟩ := hold p i' hi'
    rcases hc p i i' hi hi' with ⟨rfl, -⟩ | ⟨-, op, hop, hn⟩
    · exact h.returns p i' hi
    · exact Instruction.returnForm_of hop hn

theorem editAt (h : Bounds code n P) {p : Nat} {i : Instruction} (hi : code[p]? = some i)
    {f : Instruction → Instruction} (hr : ∀ r ∈ (f i).registers, r < n) {op : Opcode}
    (hop : (f i).opcode? = some op) (hn : op.isReturn = false) :
    Bounds (code.modify p f) n P := by
  refine h.update (by simp) ?_ (fun _ _ _ _ h => h)
  intro q j j' hj hj'
  by_cases hq : p = q
  · subst hq
    rw [JumpList.getElem?_modify_self hi f] at hj'
    cases hj'
    exact .inr ⟨hr, op, hop, hn⟩
  · rw [JumpList.getElem?_modify_ne hq, hj] at hj'
    cases hj'
    exact .inl ⟨rfl, fun h _ => h⟩

theorem lt (h : Bounds code n P) {p : Nat} {i : Instruction} (hi : code[p]? = some i)
    (hop : i.opcode? ≠ some .testSet) : ∀ r ∈ i.registers, r < n := by
  intro r hr
  exact (h.registers p i hi r hr).resolve_right fun ⟨ho, _⟩ => hop ho

theorem registers_testSet {i : Instruction} (h : i.opcode? = some .testSet) :
    i.registers = [i.a, i.b] := Instruction.registers_eq h

theorem testSet_lt (h : Bounds code n P) {p : Nat} {i : Instruction} (hi : code[p]? = some i)
    (hop : i.opcode? = some .testSet) : i.b < n := by
  rcases h.registers p i hi i.b (by simp [registers_testSet hop]) with h | ⟨-, h, -⟩
  · exact h
  · exact h

end Bounds

end LuaChunk
