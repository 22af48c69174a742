import LuaChunk.Proofs.Code.Chain

/-!
The shape of code under construction: which instructions stand next to each other, where jumps
lead, and what is still open. Whatever the compiler still has to fill in is listed as pending; each
edit of the code changes that list, and code with nothing pending is well formed.
-/

set_option autoImplicit false

namespace LuaChunk

open JumpList (Code IsOp Chain)

inductive Demand where
  | free
  | jump
  | loadTrue
  | extra
  | fallback (op : Opcode) (left : Nat)
  deriving DecidableEq

namespace Instruction

def demandOf (i : Instruction) : Opcode → Demand
  | .eq | .lt | .le | .eqK | .eqI | .ltI | .leI | .gtI | .geI | .test | .testSet => .jump
  | .lFalseSkip => .loadTrue
  | .newTable | .loadKX => .extra
  | .setList => if i.k = 1 then .extra else .free
  | .add | .sub | .mul | .mod | .pow | .div | .idiv | .band | .bor | .bxor | .shl | .shr =>
    .fallback .mmBin i.b
  | .addK | .subK | .mulK | .modK | .powK | .divK | .idivK | .bandK | .borK | .bxorK =>
    .fallback .mmBinK i.b
  | .addI | .shrI | .shlI => .fallback .mmBinI i.b
  | _ => .free

def demand (i : Instruction) : Demand := (i.opcode?.map i.demandOf).getD .free

theorem demand_eq {i : Instruction} {op : Opcode} (h : i.opcode? = some op) :
    i.demand = i.demandOf op := by
  simp [demand, h]

theorem demand_plain {i : Instruction} {op : Opcode} (h : i.opcode? = some op)
    (hp : op.isPlain = true) : i.demand = .free := by
  rw [demand_eq h]
  cases op <;> first | rfl | exact absurd hp (by decide)

theorem isTest_iff {i : Instruction} : i.isTest = true ↔ i.demand = .jump := by
  unfold isTest demand
  cases h : i.opcode? with
  | none => simp
  | some op =>
    cases op <;> simp [Opcode.isTest, demandOf]
    split <;> simp

end Instruction

namespace Demand

def Met : Demand → Instruction → Prop
  | .free, j => j.opcode? ≠ some .extraArg
  | .jump, j => j.opcode? = some .jmp
  | .loadTrue, j => j.opcode? = some .loadTrue
  | .extra, j => j.opcode? = some .extraArg
  | .fallback op left, j => j.opcode? = some op ∧ j.a = left

/-- Whether the next instruction, if there is one, is what was asked for. -/
def MetBy (d : Demand) (next : Option Instruction) : Prop :=
  match next with
  | none => d = .free
  | some j => d.Met j

end Demand

/-- What is still to be done to the code of a function. -/
inductive Pending where
  /-- jumps that wait for a destination; the registers below `level` are assigned there -/
  | list (members : List Nat) (level : Nat)
  /-- a goto: its jump, with room for one more instruction after it -/
  | goto (pc level : Nat)
  /-- a position that jumps may be sent to if the registers below `level` are assigned -/
  | target (pc level : Nat)
  /-- a table, whose instruction is filled in when its items are counted -/
  | table (pc reg : Nat)
  /-- a loop with its state from register `base` on, in whose body the registers below `level` are
  assigned -/
  | loop (pc base level : Nat) (isGeneric : Bool)

namespace Pending

def owned : Pending → List Nat
  | .list ms _ => ms
  | .goto pc _ => [pc]
  | .target _ _ => []
  | .table pc _ => [pc]
  | .loop pc _ _ _ => [pc]

def ownedBy (P : List Pending) : List Nat := P.flatMap owned

end Pending

def Enterable (code : Code) (lastTarget t : Nat) : Prop :=
  t ≤ lastTarget ∧ ∀ q i, q + 1 = t → code[q]? = some i → i.demand = .free ∨ i.demand = .loadTrue

def NumericLoop (code : Code) (p : Nat) : Prop :=
  ∃ i j, code[p]? = some i ∧ code[p + 1 + i.bx]? = some j ∧ j.opcode? = some .forLoop ∧ j.a = i.a ∧
    j.bx = i.bx + 1

def GenericLoop (code : Code) (p : Nat) : Prop :=
  ∃ i c j, code[p]? = some i ∧ code[p + 1 + i.bx]? = some c ∧ c.opcode? = some .tforCall ∧
    c.a = i.a ∧ code[p + 2 + i.bx]? = some j ∧ j.opcode? = some .tforLoop ∧ j.a = i.a ∧
    j.bx = i.bx + 2

namespace Opcode

/-- Whether the result register of an instruction may be filled in later. -/
def isRelocatable : Opcode → Bool
  | .getUpval | .getTabUp | .getTable | .getI | .getField | .unm | .bnot | .not | .len | .vararg
  | .closure => true
  | op => op.fallback?.isSome

end Opcode

/-- An instruction whose result register is still open: control goes straight on from it. -/
structure Relocatable (code : Code) (lastTarget pc : Nat) : Prop where
  op : ∃ i op, code[pc]? = some i ∧ i.opcode? = some op ∧ op.isRelocatable = true ∧
    (op = .vararg → i.c = 2)
  last : lastTarget ≤ pc
  after : ∀ q, pc < q → q < code.size → ∃ op, IsOp code q op ∧ op.isPlain = true ∧ op ≠ .concat

def Pending.Holds (code : Code) (lastTarget : Nat) : Pending → Prop
  | .list ms _ => Chain code ms
  | .goto pc _ => Chain code [pc] ∧ IsOp code (pc + 1) .close ∧
      ∀ q i, q + 1 = pc → code[q]? = some i → i.demand = .free
  | .target t _ => Enterable code lastTarget t
  | .table pc _ => IsOp code pc .newTable ∧ IsOp code (pc + 1) .move
  | .loop pc base _ isGeneric =>
      ∃ i, code[pc]? = some i ∧ i.a = base ∧
        i.opcode? = some (if isGeneric then .tforPrep else .forPrep)

/-- The shape of code with some things pending; `open_` is an instruction whose result register is
open. -/
structure Shape (code : Code) (aims : List (Nat × Nat)) (lastTarget : Nat) (P : List Pending)
    (open_ : Option Nat) : Prop where
  first : ¬ IsOp code 0 .extraArg
  next : ∀ p i, code[p]? = some i → (∀ r, .table p r ∉ P) → i.demand.MetBy code[p + 1]?
  jumps : ∀ p i, code[p]? = some i → i.opcode? = some .jmp → p ∈ Pending.ownedBy P ∨
    ∃ t : Nat, (p, t) ∈ aims ∧ i.sj = (t : Int) - (p + 1) ∧ Enterable code lastTarget t
  numeric : ∀ p, IsOp code p .forPrep → p ∈ Pending.ownedBy P ∨ NumericLoop code p
  generic : ∀ p, IsOp code p .tforPrep → p ∈ Pending.ownedBy P ∨ GenericLoop code p
  holds : ∀ x ∈ P, x.Holds code lastTarget
  nodup : (Pending.ownedBy P).Nodup
  last : lastTarget ≤ code.size
  reloc : ∀ pc, open_ = some pc → Relocatable code lastTarget pc

/-- Jumps and the first instructions of loops get their destinations late. -/
def Opcode.IsAimed (op : Opcode) : Prop := op = .jmp ∨ op = .forPrep ∨ op = .tforPrep

def Grows (code code' : Code) : Prop := ∀ (p : Nat) (i : Instruction), code[p]? = some i →
  code'[p]? = some i

theorem grows_push (code : Code) (i : Instruction) : Grows code (code.push i) := by
  intro p j h
  obtain ⟨hp, -⟩ := Array.getElem?_eq_some_iff.1 h
  rw [Array.getElem?_push, if_neg (by omega)]
  exact h

theorem Grows.trans {c₁ c₂ c₃ : Code} (h : Grows c₁ c₂) (h' : Grows c₂ c₃) : Grows c₁ c₃ :=
  fun p i hi => h' p i (h p i hi)

namespace Grows

variable {code code' : Code}

theorem isOp (h : Grows code code') {p : Nat} {op : Opcode} (ho : IsOp code p op) :
    IsOp code' p op := by
  obtain ⟨i, hi, hop⟩ := ho
  exact ⟨i, h p i hi, hop⟩

theorem chain (h : Grows code code') {ms : List Nat} (hc : Chain code ms) : Chain code' ms := by
  apply hc.congr
  intro m hm
  obtain ⟨i, hi, -⟩ := hc.isOp hm
  rw [hi, h m i hi]

theorem numericLoop (h : Grows code code') {p : Nat} : NumericLoop code p →
    NumericLoop code' p := by
  rintro ⟨i, j, hi, hj, hrest⟩
  exact ⟨i, j, h _ _ hi, h _ _ hj, hrest⟩

theorem genericLoop (h : Grows code code') {p : Nat} : GenericLoop code p →
    GenericLoop code' p := by
  rintro ⟨i, c, j, hi, hc, hop, ha, hj, hrest⟩
  exact ⟨i, c, j, h _ _ hi, h _ _ hc, hop, ha, h _ _ hj, hrest⟩

theorem back (h : Grows code code') {q : Nat} {i : Instruction} (hq : q < code.size)
    (hi : code'[q]? = some i) : code[q]? = some i := by
  have h' := h q code[q] (Array.getElem?_eq_getElem hq)
  rw [hi] at h'
  rw [Array.getElem?_eq_getElem hq, Option.some.inj h']

theorem enterable (h : Grows code code') {L t : Nat} (hL : L ≤ code.size)
    (ht : Enterable code L t) : Enterable code' L t := by
  refine ⟨ht.1, ?_⟩
  intro q i hq hi
  have hlt : q < code.size := by have := ht.1; omega
  exact ht.2 q i hq (h.back hlt hi)

theorem holds (h : Grows code code') {L : Nat} (hL : L ≤ code.size) {x : Pending}
    (hx : x.Holds code L) : x.Holds code' L := by
  cases x with
  | list ms level => exact h.chain hx
  | goto pc level =>
    obtain ⟨hc, hop, hd⟩ := hx
    refine ⟨h.chain hc, h.isOp hop, ?_⟩
    intro q i hq hi
    have hlt := hop.lt
    exact hd q i hq (h.back (by omega) hi)
  | target t level => exact h.enterable hL hx
  | table pc reg => exact ⟨h.isOp hx.1, h.isOp hx.2⟩
  | loop pc base level g =>
    obtain ⟨i, hi, hrest⟩ := hx
    exact ⟨i, h _ _ hi, hrest⟩

end Grows

theorem Pending.owned_lt {code : Code} {L : Nat} {x : Pending} (hx : x.Holds code L) {p : Nat}
    (hp : p ∈ x.owned) : p < code.size := by
  cases x with
  | list ms level => exact (Chain.isOp hx hp).lt
  | goto pc level =>
    cases List.mem_singleton.1 hp
    exact hx.1.1.lt
  | target t level => cases hp
  | table pc reg =>
    cases List.mem_singleton.1 hp
    exact hx.1.lt
  | loop pc base level g =>
    obtain ⟨i, hi, -⟩ := hx
    cases List.mem_singleton.1 hp
    exact (Array.getElem?_eq_some_iff.1 hi).1

theorem Pending.ownedBy_append (P Q : List Pending) :
    ownedBy (P ++ Q) = ownedBy P ++ ownedBy Q := by
  simp [ownedBy]

theorem Pending.ownedBy_cons (x : Pending) (P : List Pending) :
    ownedBy (x :: P) = x.owned ++ ownedBy P := by
  simp [ownedBy]

namespace Shape

variable {code : Code} {aims : List (Nat × Nat)} {L : Nat} {P : List Pending} {o : Option Nat}

theorem ownedBy_lt (h : Shape code aims L P o) {p : Nat} (hp : p ∈ Pending.ownedBy P) :
    p < code.size := by
  obtain ⟨x, hx, hp⟩ := List.mem_flatMap.1 hp
  exact Pending.owned_lt (h.holds x hx) hp

theorem reframe {P' : List Pending} (h : Shape code aims L P o)
    (hsub : ∀ x ∈ P', x ∈ P ∨ ∃ level, x = .list [] level)
    (hown : (Pending.ownedBy P').Perm (Pending.ownedBy P))
    (htab : ∀ p r, .table p r ∈ P → .table p r ∈ P') : Shape code aims L P' o where
  first := h.first
  next p i hi ht := h.next p i hi fun r hr => ht r (htab p r hr)
  jumps p i hi hop := (h.jumps p i hi hop).imp_left hown.mem_iff.2
  numeric p hp := (h.numeric p hp).imp_left hown.mem_iff.2
  generic p hp := (h.generic p hp).imp_left hown.mem_iff.2
  holds x hx := by
    rcases hsub x hx with hx | ⟨level, rfl⟩
    · exact h.holds x hx
    · trivial
  nodup := hown.nodup_iff.2 h.nodup
  last := h.last
  reloc := h.reloc

theorem grow {code' : Code} {X : List Pending} {o' : Option Nat} (h : Shape code aims L P o)
    (hg : Grows code code') (hfirst : ¬ IsOp code' code.size .extraArg)
    (hfresh : ∀ p i, code.size ≤ p → code'[p]? = some i → (∀ r, .table p r ∉ X) →
      i.demand.MetBy code'[p + 1]?)
    (hnew : ∀ p op, code.size ≤ p → IsOp code' p op → op.IsAimed →
      p ∈ Pending.ownedBy X)
    (hge : ∀ p ∈ Pending.ownedBy X, code.size ≤ p) (hnodup : (Pending.ownedBy X).Nodup)
    (hX : ∀ x ∈ X, x.Holds code' L) (hsize : code.size ≤ code'.size)
    (ho : ∀ pc, o' = some pc → Relocatable code' L pc) :
    Shape code' aims L (X ++ P) o' := by
  have hold : ∀ p ∈ Pending.ownedBy P, p ∈ Pending.ownedBy (X ++ P) := by
    intro p hp
    rw [Pending.ownedBy_append]
    exact List.mem_append_right _ hp
  have hspecial : ∀ p op, code.size ≤ p → IsOp code' p op →
      op.IsAimed → p ∈ Pending.ownedBy (X ++ P) := by
    intro p op hp hop hcase
    rw [Pending.ownedBy_append]
    exact List.mem_append_left _ (hnew p op hp hop hcase)
  refine ⟨?_, ?_, ?_, ?_, ?_, ?_, ?_, Nat.le_trans h.last hsize, ho⟩
  · intro hop
    by_cases h0 : 0 < code.size
    · obtain ⟨i, hi, hop⟩ := hop
      exact h.first ⟨i, hg.back h0 hi, hop⟩
    · rw [show 0 = code.size by omega] at hop
      exact hfirst hop
  · intro p i hi ht
    by_cases hp : code.size ≤ p
    · exact hfresh p i hp hi fun r hr => ht r (List.mem_append_left _ hr)
    · have hi' := hg.back (by omega) hi
      have hn := h.next p i hi' fun r hr => ht r (List.mem_append_right _ hr)
      by_cases hp' : p + 1 < code.size
      · rw [Array.getElem?_eq_getElem hp'] at hn
        rw [hg (p + 1) code[p + 1] (Array.getElem?_eq_getElem hp')]
        exact hn
      · rw [Array.getElem?_eq_none (by omega)] at hn
        cases hj : code'[p + 1]? with
        | none => exact hn
        | some j =>
          have hd : i.demand = .free := hn
          rw [hd]
          intro hx
          rw [show p + 1 = code.size by omega] at hj
          exact hfirst ⟨j, hj, hx⟩
  · intro p i hi hop
    by_cases hp : code.size ≤ p
    · exact .inl (hspecial p _ hp ⟨i, hi, hop⟩ (.inl rfl))
    · rcases h.jumps p i (hg.back (by omega) hi) hop with hp | ⟨t, ht, hsj, he⟩
      · exact .inl (hold p hp)
      · exact .inr ⟨t, ht, hsj, hg.enterable h.last he⟩
  · intro p hop
    by_cases hp : code.size ≤ p
    · exact .inl (hspecial p _ hp hop (.inr (.inl rfl)))
    · obtain ⟨i, hi, hop⟩ := hop
      exact (h.numeric p ⟨i, hg.back (by omega) hi, hop⟩).imp (hold p) hg.numericLoop
  · intro p hop
    by_cases hp : code.size ≤ p
    · exact .inl (hspecial p _ hp hop (.inr (.inr rfl)))
    · obtain ⟨i, hi, hop⟩ := hop
      exact (h.generic p ⟨i, hg.back (by omega) hi, hop⟩).imp (hold p) hg.genericLoop
  · intro x hx
    rcases List.mem_append.1 hx with hx | hx
    · exact hX x hx
    · exact hg.holds h.last (h.holds x hx)
  · rw [Pending.ownedBy_append]
    refine List.nodup_append.2 ⟨hnodup, h.nodup, ?_⟩
    intro p hp q hq hpq
    have h₁ := hge p hp
    have h₂ := h.ownedBy_lt hq
    omega

theorem getElem?_push_cases {i j : Instruction} {p : Nat} (hp : code.size ≤ p)
    (hj : (code.push i)[p]? = some j) : p = code.size ∧ j = i := by
  rw [Array.getElem?_push] at hj
  split at hj
  · exact ⟨‹_›, (Option.some.inj hj).symm⟩
  · rw [Array.getElem?_eq_none hp] at hj
    cases hj

theorem push {i : Instruction} {X : List Pending} {o' : Option Nat} (h : Shape code aims L P o)
    (hd : i.demand = .free) (hx : i.opcode? ≠ some .extraArg)
    (hnew : ∀ op, i.opcode? = some op → op.IsAimed →
      code.size ∈ Pending.ownedBy X)
    (hge : ∀ p ∈ Pending.ownedBy X, code.size ≤ p) (hnodup : (Pending.ownedBy X).Nodup)
    (hX : ∀ x ∈ X, x.Holds (code.push i) L)
    (ho : ∀ pc, o' = some pc → Relocatable (code.push i) L pc) :
    Shape (code.push i) aims L (X ++ P) o' := by
  refine h.grow (grows_push code i) ?_ ?_ ?_ hge hnodup hX (by simp) ho
  · rintro ⟨j, hj, hop⟩
    obtain ⟨-, rfl⟩ := getElem?_push_cases (Nat.le_refl _) hj
    exact hx hop
  · intro p j hp hj _
    obtain ⟨rfl, rfl⟩ := getElem?_push_cases hp hj
    rw [Array.getElem?_eq_none (by simp)]
    exact hd
  · rintro p op hp ⟨j, hj, hop⟩ hcase
    obtain ⟨rfl, rfl⟩ := getElem?_push_cases hp hj
    exact hnew op hop hcase

theorem pushTwo {i j : Instruction} {X : List Pending} {o' : Option Nat} (h : Shape code aims L P o)
    (hmet : (∃ r, .table code.size r ∈ X) ∨ i.demand.Met j) (hd : j.demand = .free)
    (hx : i.opcode? ≠ some .extraArg)
    (hnew : ∀ op, op.IsAimed →
      (i.opcode? = some op → code.size ∈ Pending.ownedBy X) ∧
      (j.opcode? = some op → code.size + 1 ∈ Pending.ownedBy X))
    (hge : ∀ p ∈ Pending.ownedBy X, code.size ≤ p) (hnodup : (Pending.ownedBy X).Nodup)
    (hX : ∀ x ∈ X, x.Holds ((code.push i).push j) L)
    (ho : ∀ pc, o' = some pc → Relocatable ((code.push i).push j) L pc) :
    Shape ((code.push i).push j) aims L (X ++ P) o' := by
  have hcases : ∀ p k, code.size ≤ p → ((code.push i).push j)[p]? = some k →
      p = code.size ∧ k = i ∨ p = code.size + 1 ∧ k = j := by
    intro p k hp hk
    by_cases hp' : p = code.size
    · subst hp'
      rw [Array.getElem?_push, if_neg (by simp)] at hk
      exact .inl (getElem?_push_cases (Nat.le_refl _) hk)
    · have := getElem?_push_cases (by simp; omega) hk
      simp only [Array.size_push] at this
      exact .inr this
  refine h.grow ((grows_push code i).trans (grows_push _ j)) ?_ ?_ ?_ hge hnodup hX (by simp; omega)
    ho
  · rintro ⟨k, hk, hop⟩
    rcases hcases _ k (Nat.le_refl _) hk with ⟨-, rfl⟩ | ⟨h', -⟩
    · exact hx hop
    · omega
  · intro p k hp hk ht
    rcases hcases p k hp hk with ⟨rfl, rfl⟩ | ⟨rfl, rfl⟩
    · have : ((code.push k).push j)[code.size + 1]? = some j := by
        rw [Array.getElem?_push, if_pos (by simp)]
      rw [this]
      rcases hmet with ⟨r, hr⟩ | hmet
      · exact absurd hr (ht r)
      · exact hmet
    · rw [Array.getElem?_eq_none (by simp)]
      exact hd
  · rintro p op hp ⟨k, hk, hop⟩ hcase
    rcases hcases p k hp hk with ⟨rfl, rfl⟩ | ⟨rfl, rfl⟩
    · exact (hnew op hcase).1 hop
    · exact (hnew op hcase).2 hop

theorem addTarget {L' t level : Nat} (h : Shape code aims L P none) (hL : L ≤ L')
    (hs : L' ≤ code.size) (ht : Enterable code L' t) :
    Shape code aims L' (.target t level :: P) none := by
  have hmono : ∀ t, Enterable code L t → Enterable code L' t :=
    fun t ht => ⟨Nat.le_trans ht.1 hL, ht.2⟩
  refine ⟨h.first, ?_, ?_, h.numeric, h.generic, ?_, h.nodup, hs, by simp⟩
  · intro p i hi ht
    exact h.next p i hi fun r hr => ht r (List.mem_cons_of_mem _ hr)
  · intro p i hi hop
    rcases h.jumps p i hi hop with hp | ⟨t, ht, hsj, he⟩
    · exact .inl hp
    · exact .inr ⟨t, ht, hsj, hmono t he⟩
  · intro x hx
    rcases List.mem_cons.1 hx with rfl | hx
    · exact ht
    · have hx' := h.holds x hx
      cases x with
      | list ms _ => exact hx'
      | goto pc _ => exact hx'
      | target t _ => exact hmono t hx'
      | table pc reg => exact hx'
      | loop pc base _ g => exact hx'

theorem demand_last (h : Shape code aims L P o) {q : Nat} {i : Instruction} (hq : q + 1 = code.size)
    (hi : code[q]? = some i) : i.demand = .free := by
  have hn := h.next q i hi (by
    intro r hr
    have := (h.holds _ hr).2.lt
    omega)
  rw [Array.getElem?_eq_none (by omega)] at hn
  exact hn

theorem mark {level : Nat} (h : Shape code aims L P none) :
    Shape code aims code.size (.target code.size level :: P) none :=
  h.addTarget h.last (Nat.le_refl _)
    ⟨Nat.le_refl _, fun _ _ hq hi => .inl (h.demand_last hq hi)⟩

end Shape

namespace Opcode

/-- Whether an instruction that is complete in itself may still get other operands. -/
def isEditable : Opcode → Bool
  | .call | .tailCall | .loadNil | .concat | .mmBinI => true
  | op => op.isTest || op.isRelocatable

end Opcode

/-- Two instructions that can stand for each other as neighbours and as targets of jumps. -/
structure Alike (i i' : Instruction) : Prop where
  ops : ∃ op op', i.opcode? = some op ∧ i'.opcode? = some op' ∧ op.isEditable = true ∧
    op'.isEditable = true ∧ (op = .mmBinI → op' = .mmBinI ∧ i'.a = i.a)
  demand : i'.demand = i.demand

/-- A change of the instruction at `p`: of operands, or of where a pending jump leads. -/
def Changed (P : List Pending) (p : Nat) (i i' : Instruction) : Prop :=
  Alike i i' ∨
    ∃ op : Opcode, op.IsAimed ∧ i.opcode? = some op ∧ i'.opcode? = some op ∧ p ∈ Pending.ownedBy P

structure Updated (P : List Pending) (code code' : Code) : Prop where
  size : code'.size = code.size
  changed : ∀ (p : Nat) (i i' : Instruction), code[p]? = some i → code'[p]? = some i' →
    i' = i ∨ Changed P p i i'

theorem Instruction.demand_fallback {i : Instruction} {op : Opcode} {a : Nat}
    (h : i.demand = .fallback op a) : op = .mmBin ∨ op = .mmBinK ∨ op = .mmBinI := by
  unfold demand at h
  cases hop : i.opcode? with
  | none => simp [hop] at h
  | some o =>
    rw [hop] at h
    cases o <;> simp [demandOf] at h <;> first | simp [← h.1] | (split at h <;> cases h)

namespace Changed

variable {P : List Pending} {p : Nat} {i i' : Instruction}

theorem demand (h : Changed P p i i') : i'.demand = i.demand := by
  rcases h with h | ⟨op, hop, h, h', -⟩
  · exact h.demand
  · rw [Instruction.demand_eq h, Instruction.demand_eq h']
    rcases hop with rfl | rfl | rfl <;> rfl

theorem met (h : Changed P p i i') (j : Instruction) (hm : j.demand.Met i) : j.demand.Met i' := by
  rcases h with ⟨⟨op, op', hop, hop', he, he', hmm⟩, -⟩ | ⟨op, haimed, hop, hop', -⟩
  · cases hd : j.demand with
    | free =>
      rw [Demand.Met, hop']
      rintro ⟨⟩
      cases he'
    | jump =>
      rw [hd, Demand.Met, hop] at hm
      cases hm
      cases he
    | loadTrue =>
      rw [hd, Demand.Met, hop] at hm
      cases hm
      cases he
    | extra =>
      rw [hd, Demand.Met, hop] at hm
      cases hm
      cases he
    | fallback f a =>
      rw [hd, Demand.Met, hop] at hm
      obtain ⟨hf, ha⟩ := hm
      cases hf
      rcases Instruction.demand_fallback hd with rfl | rfl | rfl
      · cases he
      · cases he
      · obtain ⟨rfl, ha'⟩ := hmm rfl
        exact ⟨hop', ha'.trans ha⟩
  · cases hd : j.demand with
    | free =>
      rw [Demand.Met, hop']
      rcases haimed with rfl | rfl | rfl <;> simp
    | jump => rw [hd, Demand.Met, hop] at hm; exact hop'.trans hm
    | loadTrue => rw [hd, Demand.Met, hop] at hm; exact hop'.trans hm
    | extra => rw [hd, Demand.Met, hop] at hm; exact hop'.trans hm
    | fallback f a =>
      rw [hd, Demand.Met, hop] at hm
      cases hm.1
      rcases Instruction.demand_fallback hd with rfl | rfl | rfl <;>
        rcases haimed with h | h | h <;> cases h

end Changed

namespace Updated

variable {P : List Pending} {code code' : Code}

theorem exists_old (h : Updated P code code') {p : Nat} {i' : Instruction}
    (hi : code'[p]? = some i') : ∃ i, code[p]? = some i ∧ (i' = i ∨ Changed P p i i') := by
  have hp : p < code.size := by
    have := (Array.getElem?_eq_some_iff.1 hi).1
    rwa [h.size] at this
  have h' := Array.getElem?_eq_getElem hp
  exact ⟨_, h', h.changed p _ _ h' hi⟩

theorem exists_new (h : Updated P code code') {p : Nat} {i : Instruction}
    (hi : code[p]? = some i) : ∃ i', code'[p]? = some i' ∧ (i' = i ∨ Changed P p i i') := by
  have hp : p < code'.size := by
    have := (Array.getElem?_eq_some_iff.1 hi).1
    rwa [h.size]
  have h' := Array.getElem?_eq_getElem hp
  exact ⟨_, h', h.changed p _ _ hi h'⟩

theorem demand (h : Updated P code code') {p : Nat} {i' : Instruction} (hi : code'[p]? = some i') :
    ∃ i, code[p]? = some i ∧ i'.demand = i.demand := by
  obtain ⟨i, hi₀, hc⟩ := h.exists_old hi
  refine ⟨i, hi₀, ?_⟩
  rcases hc with rfl | hc
  · rfl
  · exact hc.demand

theorem enterable (h : Updated P code code') {L t : Nat} (ht : Enterable code L t) :
    Enterable code' L t := by
  refine ⟨ht.1, ?_⟩
  intro q i' hq hi'
  obtain ⟨i, hi, hd⟩ := h.demand hi'
  rw [hd]
  exact ht.2 q i hq hi

theorem same (h : Updated P code code') {p : Nat} {op : Opcode} {i : Instruction}
    (hi : code[p]? = some i) (hop : i.opcode? = some op) (he : op.isEditable = false)
    (hj : ¬ op.IsAimed ∨ p ∉ Pending.ownedBy P) : code'[p]? = some i := by
  obtain ⟨i', hi', hc⟩ := h.exists_new hi
  rcases hc with rfl | ⟨⟨o, o', ho, -, hed, -⟩, -⟩ | ⟨o, ha, ho, -, hp⟩
  · exact hi'
  · rw [hop] at ho
    cases ho
    rw [he] at hed
    cases hed
  · rw [hop] at ho
    cases ho
    rcases hj with hj | hj
    · exact absurd ha hj
    · exact absurd hp hj

theorem isOp (h : Updated P code code') {p : Nat} {op : Opcode} (ho : IsOp code p op)
    (he : op.isEditable = false) (hj : ¬ op.IsAimed) : IsOp code' p op := by
  obtain ⟨i, hi, hop⟩ := ho
  exact ⟨i, h.same hi hop he (.inl hj), hop⟩

theorem isOp_back (h : Updated P code code') {p : Nat} {op : Opcode} (ho : IsOp code' p op)
    (he : op.isEditable = false) : IsOp code p op := by
  obtain ⟨i', hi', hop⟩ := ho
  obtain ⟨i, hi, hc⟩ := h.exists_old hi'
  rcases hc with rfl | ⟨⟨o, o', -, ho', -, hed, -⟩, -⟩ | ⟨o, -, ho, ho', -⟩
  · exact ⟨i', hi, hop⟩
  · rw [hop] at ho'
    cases ho'
    rw [he] at hed
    cases hed
  · rw [hop] at ho'
    cases ho'
    exact ⟨i, hi, ho⟩

theorem numericLoop (h : Updated P code code') {p : Nat} (hop : IsOp code p .forPrep)
    (hp : p ∉ Pending.ownedBy P) (hl : NumericLoop code p) : NumericLoop code' p := by
  obtain ⟨k, hk, hop⟩ := hop
  obtain ⟨i, j, hi, hj, hopj, hrest⟩ := hl
  cases hk.symm.trans hi
  exact ⟨k, j, h.same hi hop rfl (.inr hp), h.same hj hopj rfl (.inl (by simp [Opcode.IsAimed])),
    hopj,
    hrest⟩

theorem genericLoop (h : Updated P code code') {p : Nat} (hop : IsOp code p .tforPrep)
    (hp : p ∉ Pending.ownedBy P) (hl : GenericLoop code p) : GenericLoop code' p := by
  obtain ⟨k, hk, hop⟩ := hop
  obtain ⟨i, c, j, hi, hc, hopc, ha, hj, hopj, hrest⟩ := hl
  cases hk.symm.trans hi
  exact ⟨k, c, j, h.same hi hop rfl (.inr hp), h.same hc hopc rfl (.inl (by simp [Opcode.IsAimed])),
    hopc, ha, h.same hj hopj rfl (.inl (by simp [Opcode.IsAimed])), hopj, hrest⟩

theorem holds (h : Updated P code code') {L : Nat} {x : Pending} (hx : x.Holds code L)
    (hsame : ∀ p ∈ x.owned, code'[p]? = code[p]?) : x.Holds code' L := by
  cases x with
  | list ms level => exact Chain.congr hx hsame
  | goto pc level =>
    obtain ⟨hc, hop, hd⟩ := hx
    refine ⟨hc.congr hsame, h.isOp hop rfl (by simp [Opcode.IsAimed]), ?_⟩
    intro q i' hq hi'
    obtain ⟨i, hi, he⟩ := h.demand hi'
    rw [he]
    exact hd q i hq hi
  | target t level => exact h.enterable hx
  | table pc reg =>
    exact ⟨h.isOp hx.1 rfl (by simp [Opcode.IsAimed]), h.isOp hx.2 rfl (by simp [Opcode.IsAimed])⟩
  | loop pc base level g =>
    obtain ⟨i, hi, hrest⟩ := hx
    exact ⟨i, (hsame pc (by simp [Pending.owned])).trans hi, hrest⟩

end Updated

namespace Shape

variable {code code' : Code} {aims aims' : List (Nat × Nat)} {L : Nat} {P P' : List Pending}
  {o o' : Option Nat}

theorem update (h : Shape code aims L P o) (hu : Updated P code code')
    (haims : ∀ x ∈ aims, x ∈ aims') (htab : ∀ p r, .table p r ∈ P → .table p r ∈ P')
    (hjumps : ∀ p i, p ∈ Pending.ownedBy P → code'[p]? = some i → i.opcode? = some .jmp →
      p ∈ Pending.ownedBy P' ∨
        ∃ t : Nat, (p, t) ∈ aims' ∧ i.sj = (t : Int) - (p + 1) ∧ Enterable code L t)
    (hloops : ∀ p, p ∈ Pending.ownedBy P → IsOp code' p .forPrep ∨ IsOp code' p .tforPrep →
      p ∈ Pending.ownedBy P')
    (hholds : ∀ x ∈ P', x.Holds code' L) (hnodup : (Pending.ownedBy P').Nodup)
    (ho : ∀ pc, o' = some pc → Relocatable code' L pc) : Shape code' aims' L P' o' := by
  refine ⟨?_, ?_, ?_, ?_, ?_, hholds, hnodup, ?_, ho⟩
  · intro hop
    exact h.first (hu.isOp_back hop rfl)
  · intro p i' hi' ht
    obtain ⟨i, hi, hd⟩ := hu.demand hi'
    have hn := h.next p i hi fun r hr => ht r (htab p r hr)
    rw [hd]
    cases hj : code[p + 1]? with
    | none =>
      have : code'[p + 1]? = none := by
        rw [Array.getElem?_eq_none_iff] at hj ⊢
        rwa [hu.size]
      rw [hj] at hn
      rw [this]
      exact hn
    | some j =>
      rw [hj] at hn
      obtain ⟨j', hj', hc⟩ := hu.exists_new hj
      rw [hj']
      rcases hc with rfl | hc
      · exact hn
      · exact hc.met i hn
  · intro p i' hi' hop
    by_cases hp : p ∈ Pending.ownedBy P
    · rcases hjumps p i' hp hi' hop with hp | ⟨t, ht, hsj, he⟩
      · exact .inl hp
      · exact .inr ⟨t, ht, hsj, hu.enterable he⟩
    · obtain ⟨i, hi, hc⟩ := hu.exists_old hi'
      rcases hc with rfl | ⟨⟨o, o', -, ho', -, hed, -⟩, -⟩ | ⟨-, -, -, -, hp'⟩
      · rcases h.jumps p i' hi hop with hp' | ⟨t, ht, hsj, he⟩
        · exact absurd hp' hp
        · exact .inr ⟨t, haims _ ht, hsj, hu.enterable he⟩
      · rw [hop] at ho'
        cases ho'
        cases hed
      · exact absurd hp' hp
  · intro p hop
    have hop' := hu.isOp_back hop rfl
    by_cases hp : p ∈ Pending.ownedBy P
    · exact .inl (hloops p hp (.inl hop))
    · exact .inr (hu.numericLoop hop' hp ((h.numeric p hop').resolve_left hp))
  · intro p hop
    have hop' := hu.isOp_back hop rfl
    by_cases hp : p ∈ Pending.ownedBy P
    · exact .inl (hloops p hp (.inr hop))
    · exact .inr (hu.genericLoop hop' hp ((h.generic p hop').resolve_left hp))
  · rw [hu.size]
    exact h.last

end Shape

end LuaChunk
