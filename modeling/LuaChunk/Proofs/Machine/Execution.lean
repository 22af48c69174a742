import LuaChunk.Proofs.Number.Exact
import LuaChunk.Value
import LuaChunk.Proofs.Code.Fields

/-!
The machine that runs the code, as far as loads, moves and accesses to tables go. What values and
tables are is left open: a world says what the constants are and how tables are read and written,
which may fail. Nothing here jumps, so that code is run from its first instruction to its last.
-/

set_option autoImplicit false

namespace Option.Rel

variable {α β γ δ : Type} {R : α → β → Prop} {S : γ → δ → Prop} {x : Option α} {y : Option β}

theorem mono {R' : α → β → Prop} (h : Option.Rel R x y) (hi : ∀ a b, R a b → R' a b) :
    Option.Rel R' x y := by
  cases h with
  | some h => exact .some (hi _ _ h)
  | none => exact .none

theorem bind {f : α → Option γ} {g : β → Option δ} (h : Option.Rel R x y)
    (hf : ∀ a b, R a b → Option.Rel S (f a) (g b)) :
    Option.Rel S (x.bind f) (y.bind g) := by
  cases h with
  | some h => exact hf _ _ h
  | none => exact .none

theorem map {f : α → γ} {g : β → δ} (h : Option.Rel R x y) (hf : ∀ a b, R a b → S (f a) (g b)) :
    Option.Rel S (x.map f) (y.map g) := by
  cases h with
  | some h => exact .some (hf _ _ h)
  | none => exact .none

theorem diag {R : α → α → Prop} (h : ∀ a, R a a) : Option.Rel R x x := by
  cases x with
  | some a => exact .some (h a)
  | none => exact .none

theorem self_map {f : α → β} (h : ∀ a, R a (f a)) : Option.Rel R x (x.map f) := by
  cases x with
  | some a => exact .some (h a)
  | none => exact .none

theorem of_map {f : γ → β} {z : Option γ} (h : Option.Rel R x (z.map f)) :
    Option.Rel (fun a c => R a (f c)) x z := by
  cases z with
  | none =>
    cases h
    exact .none
  | some c =>
    cases h with
    | some h => exact .some h

theorem trans {T : α → γ → Prop} {R' : β → γ → Prop} {z : Option γ} (h : Option.Rel R x y)
    (h' : Option.Rel R' y z)
    (ht : ∀ a b c, R a b → R' b c → T a c) : Option.Rel T x z := by
  cases h with
  | some h =>
    cases h' with
    | some h' => exact .some (ht _ _ _ h h')
  | none =>
    cases h' with
    | none => exact .none

end Option.Rel

namespace LuaChunk

/-- Values and tables, the latter all in one heap. -/
structure World (V H : Type) where
  const : Value → V
  /-- Both zeros have one entry in the pool. No source has a constant that is the negative one. -/
  zeros : const (.num (.float (Binary64.zero true))) = const (.num (.float 0))
  get : (heap : H) → (table key : V) → Option V
  set : (heap : H) → (table key value : V) → Option H

/-- The registers and the upvalues of a function that runs, and all tables. -/
@[ext]
structure Machine (V H : Type) where
  reg : Nat → V
  up : Nat → V
  heap : H

namespace Machine

variable {V H : Type}

def setReg (m : Machine V H) (r : Nat) (v : V) : Machine V H :=
  { m with reg := fun q => if q = r then v else m.reg q }

def setUp (m : Machine V H) (i : Nat) (v : V) : Machine V H :=
  { m with up := fun j => if j = i then v else m.up j }

def fill (m : Machine V H) (first last : Nat) (v : V) : Machine V H :=
  { m with reg := fun q => if first ≤ q ∧ q ≤ last then v else m.reg q }

/-- Machines that differ in nothing but registers from `n` on. -/
structure Same (n : Nat) (m m' : Machine V H) : Prop where
  reg : ∀ r < n, m'.reg r = m.reg r
  up : m'.up = m.up
  heap : m'.heap = m.heap

section

variable {m m' m'' : Machine V H} {n k r q i : Nat} {v w : V}

@[simp] theorem setReg_same : (m.setReg r v).reg r = v := if_pos rfl

theorem setReg_ne (h : q ≠ r) : (m.setReg r v).reg q = m.reg q := if_neg h

@[simp] theorem setReg_self : m.setReg r (m.reg r) = m := by
  ext q
  · by_cases hq : q = r
    · subst hq
      exact setReg_same
    · exact setReg_ne hq
  · rfl
  · rfl

theorem setReg_comm (h : q ≠ r) : (m.setReg r v).setReg q w = (m.setReg q w).setReg r v := by
  ext x
  · simp only [setReg]
    split <;> split <;> simp_all
  · rfl
  · rfl

theorem fill_one : m.fill r r v = m.setReg r v := by
  ext x
  · have hiff : (r ≤ x ∧ x ≤ r) ↔ x = r := by omega
    simp only [fill, setReg, hiff]
  · rfl
  · rfl

namespace Same

@[refl] theorem refl (n : Nat) (m : Machine V H) : m.Same n m := ⟨fun _ _ => rfl, rfl, rfl⟩

theorem trans (h : m.Same n m') (h' : m'.Same n m'') : m.Same n m'' :=
  ⟨fun r hr => (h'.reg r hr).trans (h.reg r hr), h'.up.trans h.up, h'.heap.trans h.heap⟩

theorem mono (h : m.Same n m') (hk : k ≤ n) : m.Same k m' :=
  ⟨fun r hr => h.reg r (Nat.lt_of_lt_of_le hr hk), h.up, h.heap⟩

theorem setReg (h : n ≤ r) : m.Same n (m.setReg r v) := ⟨fun q hq => setReg_ne (by omega), rfl, rfl⟩

theorem setReg_both (h : m.Same n m') : (m.setReg r v).Same n (m'.setReg r v) := by
  refine ⟨fun q hq => ?_, h.up, h.heap⟩
  by_cases hr : q = r
  · subst hr
    rw [setReg_same, setReg_same]
  · rw [setReg_ne hr, setReg_ne hr, h.reg q hq]

theorem fill {first last : Nat} (h : n ≤ first) : m.Same n (m.fill first last v) :=
  ⟨fun q hq => if_neg (by omega), rfl, rfl⟩

end Same

end

end Machine

section

variable {V H : Type} (W : World V H) (K : Array Value)

namespace Machine

def constant (k : Nat) : Option V := (K[k]?).map W.const

/-- The last operand of an instruction: an entry of the pool or a register. -/
def operand (m : Machine V H) (i : Instruction) : Option V :=
  if i.k = 1 then constant W K i.c else some (m.reg i.c)

/-- One instruction, given the one after it. Instructions that are neither a load, a move nor an
access to a table have no result. -/
def step (m : Machine V H) (i : Instruction) (next? : Option Instruction) : Option (Machine V H) :=
  match i.opcode? with
  | some .move => some (m.setReg i.a (m.reg i.b))
  | some .loadI => some (m.setReg i.a (W.const (.num (.int (Int64.ofInt i.sbx)))))
  | some .loadF => some (m.setReg i.a (W.const (.num (.float (Binary64.ofInt i.sbx)))))
  | some .loadK => (constant W K i.bx).map (m.setReg i.a)
  | some .loadKX => next?.bind fun x => (constant W K x.ax).map (m.setReg i.a)
  | some .extraArg => some m
  | some .loadFalse => some (m.setReg i.a (W.const (.bool false)))
  | some .loadTrue => some (m.setReg i.a (W.const (.bool true)))
  | some .loadNil => some (m.fill i.a (i.a + i.b) (W.const .nil))
  | some .getUpval => some (m.setReg i.a (m.up i.b))
  | some .setUpval => some (m.setUp i.b (m.reg i.a))
  | some .getTabUp => do
    let v ← W.get m.heap (m.up i.b) (← constant W K i.c)
    some (m.setReg i.a v)
  | some .getTable => (W.get m.heap (m.reg i.b) (m.reg i.c)).map (m.setReg i.a)
  | some .getI =>
    (W.get m.heap (m.reg i.b) (W.const (.num (.int (Int64.ofNat i.c))))).map (m.setReg i.a)
  | some .getField => do
    let v ← W.get m.heap (m.reg i.b) (← constant W K i.c)
    some (m.setReg i.a v)
  | some .setTabUp => do
    let heap ← W.set m.heap (m.up i.a) (← constant W K i.b) (← operand W K m i)
    some { m with heap }
  | some .setTable => do
    let heap ← W.set m.heap (m.reg i.a) (m.reg i.b) (← operand W K m i)
    some { m with heap }
  | some .setI => do
    let heap ← W.set m.heap (m.reg i.a) (W.const (.num (.int (Int64.ofNat i.b))))
        (← operand W K m i)
    some { m with heap }
  | some .setField => do
    let heap ← W.set m.heap (m.reg i.a) (← constant W K i.b) (← operand W K m i)
    some { m with heap }
  | _ => none

/-- Code that is run from its first instruction to its last. -/
def exec : List Instruction → Machine V H → Option (Machine V H)
  | [], m => some m
  | i :: rest, m => (step W K m i rest.head?).bind (exec rest)

end Machine

end

/-- Every instruction with an extra argument has it in the same piece of code. -/
def Whole : List Instruction → Prop
  | [] => True
  | i :: rest =>
    (i.opcode? = some .loadKX → ∃ x, rest.head? = some x ∧ x.opcode? = some .extraArg) ∧ Whole rest

section

variable {V H : Type} {W : World V H} {K : Array Value} {m : Machine V H} {l l' : List Instruction}
  {i : Instruction}

namespace Whole

theorem append (h : Whole l) (h' : Whole l') : Whole (l ++ l') := by
  induction l with
  | nil => exact h'
  | cons i rest ih =>
    refine ⟨fun hi => ?_, ih h.2⟩
    obtain ⟨x, hx, hop⟩ := h.1 hi
    refine ⟨x, ?_, hop⟩
    show (rest ++ l').head? = some x
    rw [List.head?_append, hx]
    rfl

theorem single (h : i.opcode? ≠ some .loadKX) : Whole [i] := ⟨fun hi => absurd hi h, trivial⟩

theorem init (h : Whole (l ++ [i])) (hi : i.opcode? ≠ some .extraArg) : Whole l := by
  induction l with
  | nil => trivial
  | cons j rest ih =>
    refine ⟨fun hj => ?_, ih h.2⟩
    obtain ⟨x, hx, hop⟩ := h.1 hj
    cases rest with
    | nil =>
      cases hx
      exact absurd hop hi
    | cons y rest => exact ⟨x, hx, hop⟩

end Whole

namespace Machine

theorem step_next (h : i.opcode? ≠ some .loadKX) (x y : Option Instruction) :
    step W K m i x = step W K m i y := by
  unfold step
  split <;> first | rfl | exact absurd ‹_› h

theorem exec_append (h : Whole l) : exec W K (l ++ l') m = (exec W K l m).bind (exec W K l') := by
  induction l generalizing m with
  | nil => rfl
  | cons i rest ih =>
    have hnext : step W K m i (rest ++ l').head? = step W K m i rest.head? := by
      cases rest with
      | nil =>
        refine step_next (fun hi => ?_) _ _
        obtain ⟨x, hx, -⟩ := h.1 hi
        cases hx
      | cons => rfl
    show (step W K m i (rest ++ l').head?).bind (exec W K (rest ++ l')) =
        ((step W K m i rest.head?).bind (exec W K rest)).bind _
    rw [hnext, Option.bind_assoc]
    exact Option.bind_congr fun m' _ => ih h.2

theorem exec_single : exec W K [i] m = step W K m i none := Option.bind_fun_some _

theorem exec_concat (h : Whole l) : exec W K (l ++ [i]) m = (exec W K l m).bind fun m' =>
    step W K m' i none := by
  rw [exec_append h]
  exact Option.bind_congr fun m' _ => exec_single

end Machine

end

namespace World

variable {V H : Type} (W : World V H) {x y : Double} {n : Int64}

theorem const_of_beq (h : (x.value == y.value) = true) :
    W.const (.num (.float x)) = W.const (.num (.float y)) := by
  obtain ⟨hx, hy⟩ := Binary64.ne_nan_of_beq h
  rw [← Double.of_value hx, ← Double.of_value hy]
  obtain heq | ⟨hx, hy⟩ | ⟨hx, hy⟩ := Binary64.eq_of_beq h
  · rw [heq]
  · rw [hx, hy]
    exact W.zeros.symm
  · rw [hx, hy]
    exact W.zeros

theorem const_ofInt (h : Binary64.toInt64? x = some n) :
    W.const (.num (.float (Binary64.ofInt n.toInt))) = W.const (.num (.float x)) := by
  have hbits : Double.of x.value = x := by
    refine Double.of_value fun hnan => ?_
    rw [hnan] at h
    cases h
  rw [← hbits]
  obtain hx | ⟨hz, hx⟩ := Binary64.ofInt_toInt64? h
  · rw [hx]
  · rw [hz, hx]
    exact W.zeros.symm

end World

end LuaChunk
