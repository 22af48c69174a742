import LuaChunk.Proofs.Code.Shape
import LuaChunk.Code.Prototype
import Mathlib.Data.List.Forall2

set_option autoImplicit false

namespace LuaChunk

open JumpList (Code)

namespace Value

def isText : Value → Bool
  | .str _ => true
  | _ => false

def isInteger : Value → Bool
  | .num (.int _) => true
  | _ => false

/-- Two constants of the same kind and value. Floats are the same if they compare as equal. -/
def SameAs (w v : Value) : Prop :=
  w = v ∨ ∃ x y : Double, w = .num (.float x) ∧ v = .num (.float y) ∧ (x.value == y.value) = true

theorem SameAs.holds {sort : Value → Bool} {w v : Value} (h : w.SameAs v) (hv : sort v = true)
    (hs : ∀ x y : Double, sort (.num (.float x)) = sort (.num (.float y))) : sort w = true := by
  obtain rfl | ⟨x, y, rfl, rfl, -⟩ := h
  · exact hv
  · rw [hs x y, hv]

theorem SameAs.text {w : Value} {t : Bytes} (h : w.SameAs (.str t)) : w = .str t := by
  obtain h | ⟨x, y, -, h, -⟩ := h
  · exact h
  · cases h

theorem SameAs.of_text {v : Value} {t : Bytes} (h : SameAs (.str t) v) : v = .str t := by
  obtain h | ⟨x, y, h, -⟩ := h
  · exact h.symm
  · cases h

end Value

/-- The tables that the instructions of a function refer to. -/
structure References where
  constants : Array Value
  upvalues : Nat
  nested : Nat

namespace References

def Holds (r : References) (sort : Value → Bool) (k : Nat) : Prop :=
  ∃ v, r.constants[k]? = some v ∧ sort v = true

structure Grows (r r' : References) : Prop where
  constants : ∀ (k : Nat) (v : Value), r.constants[k]? = some v → r'.constants[k]? = some v
  upvalues : r.upvalues ≤ r'.upvalues
  nested : r.nested ≤ r'.nested

variable {r r' : References} {sort : Value → Bool} {k : Nat}

theorem Grows.refl (r : References) : Grows r r := ⟨fun _ _ h => h, Nat.le_refl _, Nat.le_refl _⟩

theorem Grows.trans {r'' : References} (h : Grows r r') (h' : Grows r' r'') : Grows r r'' :=
  ⟨fun k v hv => h'.constants k v (h.constants k v hv), Nat.le_trans h.upvalues h'.upvalues,
    Nat.le_trans h.nested h'.nested⟩

theorem Holds.mono (h : r.Holds sort k) (hg : Grows r r') : r'.Holds sort k := by
  obtain ⟨v, hv, hp⟩ := h
  exact ⟨v, hg.constants k v hv, hp⟩

theorem Grows.size_le (hg : Grows r r') : r.constants.size ≤ r'.constants.size := by
  refine Nat.le_of_not_lt fun hlt => ?_
  have := hg.constants _ _ (Array.getElem?_eq_getElem hlt)
  have := (Array.getElem?_eq_some_iff.1 this).1
  omega

end References

namespace Opcode

/-- Whether an operand is an index of a constant, an upvalue or a nested function. -/
def refers : Opcode → Bool
  | .loadK | .loadKX | .getUpval | .setUpval | .getTabUp | .getField | .setTabUp | .setTable | .setI
  | .setField | .self | .addK | .subK | .mulK | .modK | .powK | .divK | .idivK | .bandK | .borK
  | .bxorK | .mmBinK | .eqK | .closure | .errNNil | .extraArg => true
  | _ => false

end Opcode

namespace Instruction

def FlaggedConstant (i : Instruction) (r : References) : Prop := i.k = 1 → i.c < r.constants.size

def flaggedConstant (i : Instruction) : List Nat := if i.k = 1 then [i.c] else []

/-- The indices of constants among the operands, in their order. -/
def constantsOf (i : Instruction) : Opcode → List Nat
  | .loadK => [i.bx]
  | .getTabUp
    | .getField
    | .addK | .subK | .mulK | .modK | .powK | .divK | .idivK | .bandK | .borK | .bxorK => [i.c]
  | .setTabUp | .setField => i.b :: i.flaggedConstant
  | .setTable | .setI | .self => i.flaggedConstant
  | .mmBinK | .eqK => [i.b]
  | .errNNil => if i.bx = 0 then [] else [i.bx - 1]
  | _ => []

/-- The indices of the constants that an instruction refers to by itself. -/
def constants (i : Instruction) : List Nat := (i.opcode?.map i.constantsOf).getD []

def RefersOf (i : Instruction) (r : References) : Opcode → Prop
  | .loadK => i.bx < r.constants.size
  | .getUpval | .setUpval => i.b < r.upvalues
  | .getTabUp => i.b < r.upvalues ∧ r.Holds Value.isShortString i.c
  | .getField => r.Holds Value.isShortString i.c
  | .setTabUp => i.a < r.upvalues ∧ r.Holds Value.isShortString i.b ∧ i.FlaggedConstant r
  | .setField => r.Holds Value.isShortString i.b ∧ i.FlaggedConstant r
  | .setTable | .setI => i.FlaggedConstant r
  | .self => i.k = 1 → r.Holds Value.isText i.c
  | .addK | .subK | .mulK | .modK | .powK | .divK | .idivK => r.Holds Value.isNumber i.c
  | .bandK | .borK | .bxorK => r.Holds Value.isInteger i.c
  | .mmBinK => r.Holds Value.isNumber i.b
  | .eqK => i.b < r.constants.size
  | .closure => i.bx < r.nested
  | .errNNil => i.bx = 0 ∨ r.Holds Value.isText (i.bx - 1)
  | _ => True

def Refers (i : Instruction) (r : References) : Prop := ∀ op, i.opcode? = some op → i.RefersOf r op

variable {i i' : Instruction} {r r' : References} {op : Opcode}

theorem refersOf_of_free (h : op.refers = false) : i.RefersOf r op := by
  cases op <;> first | cases h; done | trivial

theorem refers_iff (h : i.opcode? = some op) : i.Refers r ↔ i.RefersOf r op := by
  refine ⟨fun hr => hr op h, fun hr op' h' => ?_⟩
  cases h.symm.trans h'
  exact hr

theorem RefersOf.mono (h : i.RefersOf r op) (hg : r.Grows r') : i.RefersOf r' op := by
  have hc : i.FlaggedConstant r → i.FlaggedConstant r' :=
    fun h hk => Nat.lt_of_lt_of_le (h hk) hg.size_le
  cases op with
  | loadK | eqK => exact Nat.lt_of_lt_of_le h hg.size_le
  | getUpval | setUpval => exact Nat.lt_of_lt_of_le h hg.upvalues
  | closure => exact Nat.lt_of_lt_of_le h hg.nested
  | getTabUp => exact ⟨Nat.lt_of_lt_of_le h.1 hg.upvalues, h.2.mono hg⟩
  | setTabUp => exact ⟨Nat.lt_of_lt_of_le h.1 hg.upvalues, h.2.1.mono hg, hc h.2.2⟩
  | setField => exact ⟨h.1.mono hg, hc h.2⟩
  | setTable | setI => exact hc h
  | self => exact fun hk => (h hk).mono hg
  | errNNil => exact h.imp_right (·.mono hg)
  | getField | addK | subK | mulK | modK | powK | divK | idivK | bandK | borK | bxorK | mmBinK =>
    exact References.Holds.mono h hg
  | _ => trivial

theorem Refers.mono (h : i.Refers r) (hg : r.Grows r') : i.Refers r' :=
  fun op hop => (h op hop).mono hg

theorem constants_eq (h : i.opcode? = some op) : i.constants = i.constantsOf op := by
  unfold constants
  rw [h]
  rfl

theorem constantsOf_of_free (h : op.refers = false) : i.constantsOf op = [] := by
  cases op <;> first | cases h; done | rfl

theorem constants_of_free (h : i.opcode? = some op) (hf : op.refers = false) : i.constants = [] :=
  (constants_eq h).trans (constantsOf_of_free hf)

theorem constantsOf_congr (hb : i'.b = i.b) (hc : i'.c = i.c) (hk : i'.k = i.k ∨ op = .eqK)
    (hbx : i'.bx = i.bx ∨ op.layout = .abc) :
    i'.constantsOf op = i.constantsOf op := by
  have hflag : op ≠ .eqK → i'.flaggedConstant = i.flaggedConstant := fun hne => by
    unfold flaggedConstant
    rw [hc, hk.resolve_right hne]
  cases op with
  | setTabUp | setField | setTable | setI | self =>
    simp only [constantsOf]
    rw [hflag (by simp)]
    try rw [hb]
  | getTabUp | getField | addK | subK | mulK | modK | powK | divK | idivK | bandK | borK | bxorK =>
    exact congrArg (fun n => [n]) hc
  | mmBinK | eqK => exact congrArg (fun n => [n]) hb
  | loadK | errNNil =>
    simp only [constantsOf]
    rw [hbx.resolve_right (by simp [Opcode.layout])]
  | _ => rfl

theorem RefersOf.congr (ha : i'.a = i.a ∨ op ≠ .setTabUp) (hb : i'.b = i.b) (hc : i'.c = i.c)
    (hk : i'.k = i.k ∨ op = .eqK) (hbx : i'.bx = i.bx ∨ op.layout = .abc)
    (h : i.RefersOf r op) : i'.RefersOf r op := by
  have hflag : op ≠ .eqK → i.FlaggedConstant r → i'.FlaggedConstant r := by
    intro hne h hk'
    rw [hc]
    exact h ((hk.resolve_right hne).symm.trans hk')
  cases op with
  | setTabUp =>
    refine ⟨?_, ?_, hflag (by simp) h.2.2⟩
    · rw [ha.resolve_right (by simp)]
      exact h.1
    · rw [hb]
      exact h.2.1
  | setField =>
    refine ⟨?_, hflag (by simp) h.2⟩
    rw [hb]
    exact h.1
  | setTable | setI => exact hflag (by simp) h
  | self =>
    intro hk'
    rw [hc]
    exact h ((hk.resolve_right (by simp)).symm.trans hk')
  | getTabUp =>
    unfold RefersOf
    rw [hb, hc]
    exact h
  | getUpval | setUpval | mmBinK | eqK =>
    unfold RefersOf
    rw [hb]
    exact h
  | getField | addK | subK | mulK | modK | powK | divK | idivK | bandK | borK | bxorK =>
    unfold RefersOf
    rw [hc]
    exact h
  | loadK | closure | errNNil =>
    unfold RefersOf
    rw [hbx.resolve_right (by simp [Opcode.layout])]
    exact h
  | _ => trivial

end Instruction

theorem getElem?_push_of {α : Type} {xs : Array α} {k : Nat} {a : α} (h : xs[k]? = some a) (b : α) :
    (xs.push b)[k]? = some a := by
  rw [Array.getElem?_push, if_neg (Nat.ne_of_lt (Array.getElem?_eq_some_iff.1 h).1), h]

def Stand (constants : Array Value) (ks : List Nat) (vs : List Value) : Prop :=
  List.Forall₂ (fun k v => ∃ w, constants[k]? = some w ∧ w.SameAs v) ks vs

theorem Stand.nil {constants : Array Value} : Stand constants [] [] := List.Forall₂.nil

theorem Stand.cons {constants : Array Value} {k : Nat} {v : Value} {ks : List Nat} {vs : List Value}
    (hk : ∃ w, constants[k]? = some w ∧ w.SameAs v) (h : Stand constants ks vs) : Stand constants
    (k :: ks) (v :: vs) :=
  List.Forall₂.cons hk h

theorem Stand.append {constants : Array Value} {ks ks' : List Nat} {vs vs' : List Value}
    (h : Stand constants ks vs)
    (h' : Stand constants ks' vs') : Stand constants (ks ++ ks') (vs ++ vs') := List.rel_append h h'

theorem Stand.mono {constants constants' : Array Value} {ks : List Nat} {vs : List Value}
    (h : Stand constants ks vs)
    (hg : ∀ (k : Nat) (v : Value), constants[k]? = some v → constants'[k]? = some v) : Stand
    constants' ks vs :=
  h.imp fun _ _ ⟨w, hw, hs⟩ => ⟨w, hg _ _ hw, hs⟩

/-- All references of a function's code. A large index is in an instruction of its own. -/
structure Referring (r : References) (code : Code) : Prop where
  refers : ∀ (p : Nat) (i : Instruction), code[p]? = some i → i.Refers r
  large : ∀ (p : Nat) (i : Instruction), code[p]? = some i → i.opcode? = some .loadKX →
    ∃ x, code[p + 1]? = some x ∧ x.opcode? = some .extraArg ∧ x.ax < r.constants.size

/-- What the constants of a function's instructions stand for: `meant` has the constants that each
one was emitted for. A large index is in an instruction of its own. -/
structure Faithful (constants : Array Value) (code : Code) (meant : Array (List Value)) : Prop where
  size : meant.size = code.size
  stands : ∀ (p : Nat) (i : Instruction), code[p]? = some i → i.opcode? ≠ some .loadKX →
    ∃ vs, meant[p]? = some vs ∧ Stand constants i.constants vs
  large : ∀ (p : Nat) (i : Instruction), code[p]? = some i → i.opcode? = some .loadKX →
    ∃ x vs, code[p + 1]? = some x ∧ x.opcode? = some .extraArg ∧ meant[p]? = some vs ∧
      Stand constants [x.ax] vs

/-- An instruction becomes one that still refers to what is there, and to the same constants. Large
indices are left alone. -/
structure Instruction.Turns (r : References) (i i' : Instruction) : Prop where
  refers : i.Refers r → i'.Refers r
  constants : i'.constants = i.constants
  extra : i.opcode? ≠ some .extraArg
  before : i.opcode? ≠ some .loadKX
  after : i'.opcode? ≠ some .loadKX

def Instruction.Becomes (r : References) (i i' : Instruction) : Prop := i' = i ∨ i.Turns r i'

theorem Instruction.becomes_of {r : References} {i i' : Instruction} {op op' : Opcode}
    (h : i.opcode? = some op)
    (h' : i'.opcode? = some op') (hf : op.refers = false) (hr : i'.RefersOf r op')
    (hx : op' ≠ .loadKX)
    (hc : i'.constantsOf op' = []) : i.Becomes r i' := by
  have hfree : ∀ op'', op''.refers = true → i.opcode? ≠ some op'' := by
    intro op'' ht he
    cases h.symm.trans he
    rw [hf] at ht
    cases ht
  refine .inr ⟨fun _ => (refers_iff h').2 hr, ?_, hfree _ rfl, hfree _ rfl, ?_⟩
  · rw [constants_eq h', hc, constants_of_free h hf]
  · rw [h']
    exact fun he => hx (Option.some.inj he)

theorem Instruction.becomes_of_free {r : References} {i i' : Instruction} {op op' : Opcode}
    (h : i.opcode? = some op)
    (h' : i'.opcode? = some op') (hf : op.refers = false) (hf' : op'.refers = false) : i.Becomes r
    i' := by
  refine becomes_of h h' hf (refersOf_of_free hf') ?_ (constantsOf_of_free hf')
  rintro rfl
  cases hf'

theorem Instruction.becomes_setA {r : References} {i : Instruction} {op : Opcode}
    (h : i.opcode? = some op)
    (hr : op.isRelocatable = true) (reg : Nat) : i.Becomes r (i.setAll [(.a, reg)]) := by
  have h' : (i.setAll [(.a, reg)]).opcode? = some op := (opcode?_setAll _ _ rfl).trans h
  have hb : (i.setAll [(.a, reg)]).b = i.b := get_setAll_apart .b _ i rfl
  have hc : (i.setAll [(.a, reg)]).c = i.c := get_setAll_apart .c _ i rfl
  have hk : (i.setAll [(.a, reg)]).k = i.k := get_setAll_apart .k _ i rfl
  have hbx : (i.setAll [(.a, reg)]).bx = i.bx := get_setAll_apart .bx _ i rfl
  have hclosed : ∀ op', op'.isRelocatable = false → op ≠ op' := by
    rintro _ hf rfl
    rw [hr] at hf
    cases hf
  refine .inr ⟨fun hi => (refers_iff h').2
    (((refers_iff h).1 hi).congr (.inr (hclosed _ rfl)) hb hc (.inl hk) (.inl hbx)), ?_, ?_, ?_, ?_⟩
  · rw [constants_eq h', constants_eq h, constantsOf_congr hb hc (.inl hk) (.inl hbx)]
  · exact fun he => hclosed _ rfl (Option.some.inj (h.symm.trans he))
  · exact fun he => hclosed _ rfl (Option.some.inj (h.symm.trans he))
  · exact fun he => hclosed _ rfl (Option.some.inj (h'.symm.trans he))

def Rewritten (r : References) (code code' : Code) : Prop :=
  ∀ (p : Nat) (i' : Instruction), code'[p]? = some i' → ∃ i, code[p]? = some i ∧ i.Becomes r i'

theorem Rewritten.extra {r : References} {code code' : Code} {p : Nat} {x : Instruction}
    (h : Rewritten r code code')
    (hs : code'.size = code.size) (hx : code[p]? = some x)
    (hop : x.opcode? = some .extraArg) : code'[p]? = some x := by
  have hp := (Array.getElem?_eq_some_iff.1 hx).1
  have hx' := Array.getElem?_eq_getElem (hs ▸ hp)
  obtain ⟨y, hy, he | ht⟩ := h p _ hx'
  · rw [hx', he, ← hy, hx]
  · cases hx.symm.trans hy
    exact absurd hop ht.extra

namespace Referring

variable {r r' : References} {code code' : Code} {i : Instruction}

theorem nil (r : References) : Referring r #[] where
  refers p i hi := by cases hi
  large p i hi := by cases hi

theorem mono (h : Referring r code) (hg : r.Grows r') : Referring r' code where
  refers p i hi := (h.refers p i hi).mono hg
  large p i hi hop := by
    obtain ⟨x, hx, hox, hlt⟩ := h.large p i hi hop
    exact ⟨x, hx, hox, Nat.lt_of_lt_of_le hlt hg.size_le⟩

theorem large_push {w : Instruction} (h : Referring r code) {p : Nat} {i : Instruction}
    (hi : code[p]? = some i)
    (hop : i.opcode? = some .loadKX) :
    ∃ x, (code.push w)[p + 1]? = some x ∧ x.opcode? = some .extraArg ∧ x.ax < r.constants.size := by
  obtain ⟨x, hx, hrest⟩ := h.large p i hi hop
  exact ⟨x, getElem?_push_of hx w, hrest⟩

theorem push {w : Instruction} (h : Referring r code) (hw : w.Refers r)
    (hne : w.opcode? ≠ some .loadKX) :
    Referring r (code.push w) where
  refers p i hi := by
    rw [Array.getElem?_push] at hi
    split at hi
    · cases hi
      exact hw
    · exact h.refers p i hi
  large p i hi hop := by
    rw [Array.getElem?_push] at hi
    split at hi
    · cases hi
      exact absurd hop hne
    · exact h.large_push hi hop

theorem pushLarge {w x : Instruction} (h : Referring r code) (hw : w.opcode? = some .loadKX)
    (hx : x.opcode? = some .extraArg) (hlt : x.ax < r.constants.size) : Referring r
    ((code.push w).push x) where
  refers p i hi := by
    rw [Array.getElem?_push, Array.getElem?_push] at hi
    split at hi
    · cases hi
      exact (Instruction.refers_iff hx).2 trivial
    · split at hi
      · cases hi
        exact (Instruction.refers_iff hw).2 trivial
      · exact h.refers p i hi
  large p i hi hop := by
    by_cases hp : p = code.size
    · subst hp
      exact ⟨x, by rw [← Array.size_push w, Array.getElem?_push_size], hx, hlt⟩
    · have hi' : code[p]? = some i := by
        rw [Array.getElem?_push] at hi
        split at hi
        · cases hi
          cases hx.symm.trans hop
        · rwa [Array.getElem?_push, if_neg hp] at hi
      obtain ⟨y, hy, hrest⟩ := h.large p i hi' hop
      exact ⟨y, getElem?_push_of (getElem?_push_of hy w) x, hrest⟩

theorem pop (h : Referring r code) (hb : ∀ i, code.back? = some i → i.opcode? ≠ some .extraArg) :
    Referring r code.pop where
  refers p i hi := by
    rw [Array.getElem?_pop] at hi
    split at hi
    · exact h.refers p i hi
    · cases hi
  large p i hi hop := by
    rw [Array.getElem?_pop] at hi
    split at hi
    · obtain ⟨x, hx, hox, hlt⟩ := h.large p i hi hop
      have hp := (Array.getElem?_eq_some_iff.1 hx).1
      refine ⟨x, ?_, hox, hlt⟩
      rw [Array.getElem?_pop, if_pos, hx]
      refine Nat.lt_of_le_of_ne (by omega) fun he => ?_
      refine hb x ?_ hox
      rw [Array.back?_eq_getElem?, ← he, hx]
    · cases hi

theorem rewrite (h : Referring r code) (hw : Rewritten r code code') (hs : code'.size = code.size) :
    Referring r code' where
  refers p i' hi' := by
    obtain ⟨i, hi, rfl | ht⟩ := hw p i' hi'
    · exact h.refers p i' hi
    · exact ht.refers (h.refers p i hi)
  large p i' hi' hop := by
    obtain ⟨i, hi, rfl | ht⟩ := hw p i' hi'
    · obtain ⟨x, hx, hrest⟩ := h.large p i' hi hop
      exact ⟨x, hw.extra hs hx hrest.1, hrest⟩
    · exact absurd hop ht.after

end Referring

namespace Faithful

variable {r : References} {constants constants' : Array Value} {code code' : Code}
  {meant : Array (List Value)}

theorem nil (constants : Array Value) : Faithful constants #[] #[] where
  size := rfl
  stands p i hi := by cases hi
  large p i hi := by cases hi

theorem mono (h : Faithful constants code meant)
    (hg : ∀ (k : Nat) (v : Value), constants[k]? = some v → constants'[k]? = some v) : Faithful
    constants' code meant where
  size := h.size
  stands p i hi hop := by
    obtain ⟨vs, hm, hs⟩ := h.stands p i hi hop
    exact ⟨vs, hm, hs.mono hg⟩
  large p i hi hop := by
    obtain ⟨x, vs, hx, hox, hm, hs⟩ := h.large p i hi hop
    exact ⟨x, vs, hx, hox, hm, hs.mono hg⟩

theorem push_cases {α : Type} {xs : Array α} {x y : α} {p : Nat} (h : (xs.push x)[p]? = some y) :
    p = xs.size ∧ y = x ∨ xs[p]? = some y := by
  rw [Array.getElem?_push] at h
  split at h
  · exact .inl ⟨‹_›, (Option.some.inj h).symm⟩
  · exact .inr h

theorem push {w : Instruction} {vs : List Value} (h : Faithful constants code meant)
    (hw : Stand constants w.constants vs)
    (hne : w.opcode? ≠ some .loadKX) : Faithful constants (code.push w) (meant.push vs) where
  size := by rw [Array.size_push, Array.size_push, h.size]
  stands p i hi hop := by
    obtain ⟨rfl, rfl⟩ | hi := push_cases hi
    · exact ⟨vs, by rw [← h.size, Array.getElem?_push_size], hw⟩
    · obtain ⟨us, hm, hs⟩ := h.stands p i hi hop
      exact ⟨us, getElem?_push_of hm vs, hs⟩
  large p i hi hop := by
    obtain ⟨rfl, rfl⟩ | hi := push_cases hi
    · exact absurd hop hne
    · obtain ⟨x, us, hx, hox, hm, hs⟩ := h.large p i hi hop
      exact ⟨x, us, getElem?_push_of hx w, hox, getElem?_push_of hm vs, hs⟩

theorem pushLarge {w x : Instruction} {vs : List Value} (h : Faithful constants code meant)
    (hw : w.opcode? = some .loadKX)
    (hx : x.opcode? = some .extraArg) (hs : Stand constants [x.ax] vs) :
    Faithful constants ((code.push w).push x) ((meant.push vs).push []) where
  size := by simp only [Array.size_push, h.size]
  stands p i hi hop := by
    obtain ⟨rfl, rfl⟩ | hi := push_cases hi
    · refine ⟨[], ?_, by rw [Instruction.constants_eq hx]; exact .nil⟩
      rw [Array.size_push, ← h.size, ← Array.size_push vs, Array.getElem?_push_size]
    · obtain ⟨rfl, rfl⟩ | hi := push_cases hi
      · exact absurd hw hop
      · obtain ⟨us, hm, hs⟩ := h.stands p i hi hop
        exact ⟨us, getElem?_push_of (getElem?_push_of hm vs) [], hs⟩
  large p i hi hop := by
    obtain ⟨rfl, rfl⟩ | hi := push_cases hi
    · cases hx.symm.trans hop
    · obtain ⟨rfl, rfl⟩ | hi := push_cases hi
      · refine ⟨x, vs, ?_, hx, getElem?_push_of ?_ [], hs⟩
        · rw [← Array.size_push i, Array.getElem?_push_size]
        · rw [← h.size, Array.getElem?_push_size]
      · obtain ⟨y, us, hy, hoy, hm, hs⟩ := h.large p i hi hop
        exact ⟨y, us, getElem?_push_of (getElem?_push_of hy w) x, hoy,
          getElem?_push_of (getElem?_push_of hm vs) [], hs⟩

theorem pop (h : Faithful constants code meant)
    (hb : ∀ i, code.back? = some i → i.opcode? ≠ some .extraArg) :
    Faithful constants code.pop meant.pop where
  size := by simp only [Array.size_pop, h.size]
  stands p i hi hop := by
    rw [Array.getElem?_pop] at hi
    split at hi
    · obtain ⟨vs, hm, hs⟩ := h.stands p i hi hop
      exact ⟨vs, by rw [Array.getElem?_pop, h.size, if_pos ‹_›, hm], hs⟩
    · cases hi
  large p i hi hop := by
    rw [Array.getElem?_pop] at hi
    split at hi
    · obtain ⟨x, vs, hx, hox, hm, hs⟩ := h.large p i hi hop
      have hp := (Array.getElem?_eq_some_iff.1 hx).1
      refine ⟨x, vs, ?_, hox, by rw [Array.getElem?_pop, h.size, if_pos ‹_›, hm], hs⟩
      rw [Array.getElem?_pop, if_pos, hx]
      refine Nat.lt_of_le_of_ne (by omega) fun he => ?_
      refine hb x ?_ hox
      rw [Array.back?_eq_getElem?, ← he, hx]
    · cases hi

theorem rewrite (h : Faithful constants code meant) (hw : Rewritten r code code')
    (hs : code'.size = code.size) :
    Faithful constants code' meant where
  size := h.size.trans hs.symm
  stands p i' hi' hop := by
    obtain ⟨i, hi, rfl | ht⟩ := hw p i' hi'
    · exact h.stands p i' hi hop
    · rw [ht.constants]
      exact h.stands p i hi ht.before
  large p i' hi' hop := by
    obtain ⟨i, hi, rfl | ht⟩ := hw p i' hi'
    · obtain ⟨x, vs, hx, hox, hrest⟩ := h.large p i' hi hop
      exact ⟨x, vs, hw.extra hs hx hox, hox, hrest⟩
    · exact absurd hop ht.after

end Faithful

namespace Rewritten

variable {r : References} {code code' : Code}

theorem refl (code : Code) : Rewritten r code code := fun _ i' hi' => ⟨i', hi', .inl rfl⟩

theorem modify {pc : Nat} {f : Instruction → Instruction}
    (h : ∀ i, code[pc]? = some i → i.Becomes r (f i)) : Rewritten r code (code.modify pc f) := by
  intro p i' hi'
  rw [Array.getElem?_modify] at hi'
  split at hi'
  · rename_i hp
    subst hp
    obtain ⟨i, hi, rfl⟩ := Option.map_eq_some_iff.1 hi'
    exact ⟨i, hi, h i hi⟩
  · exact ⟨i', hi', .inl rfl⟩

theorem modify_at {pc : Nat} {i : Instruction} {f : Instruction → Instruction}
    (hi : code[pc]? = some i)
    (h : i.Becomes r (f i)) : Rewritten r code (code.modify pc f) := by
  refine .modify fun j hj => ?_
  cases hi.symm.trans hj
  exact h

theorem modify_free {pc : Nat} {i : Instruction} {op op' : Opcode} {f : Instruction → Instruction}
    (hi : code[pc]? = some i)
    (hop : i.opcode? = some op) (hop' : (f i).opcode? = some op') (hf : op.refers = false)
    (hf' : op'.refers = false) : Rewritten r code (code.modify pc f) :=
  .modify_at hi (Instruction.becomes_of_free hop hop' hf hf')

end Rewritten

theorem opcode?_redirected {i : Instruction} (h : i.opcode? = some .testSet) (reg : Option Nat) :
    ∃ op, (JumpList.redirected i reg).opcode? = some op ∧ op.refers = false := by
  have htest : (Opcode.test.abck i.b 0 0 i.k).opcode? = some .test :=
    Draft.opcode?_word (.abck .test i.b 0 0 i.k)
  unfold JumpList.redirected
  cases reg with
  | none => exact ⟨.test, htest, rfl⟩
  | some ρ =>
    simp only
    split
    · exact ⟨.test, htest, rfl⟩
    · exact ⟨.testSet, (Instruction.opcode?_set i _ (by decide)).trans h, rfl⟩

section

variable {r : References} {code code' : Code} {ms : List Nat} {reg : Option Nat}

theorem JumpList.Joined.rewritten (h : JumpList.Joined code code' ms) : Rewritten r code code' := by
  intro p i' hi'
  by_cases hp : p ∈ ms
  · obtain ⟨i, hi⟩ : ∃ i, code[p]? = some i :=
      ⟨_, Array.getElem?_eq_getElem (h.size ▸ (Array.getElem?_eq_some_iff.1 hi').1)⟩
    obtain ⟨v, he | he⟩ := h.jump p i hp hi
    · obtain ⟨j, hj, hop⟩ := h.chain.isOp hp
      cases hi'.symm.trans he
      cases he.symm.trans hj
      exact ⟨_, hi, Instruction.becomes_of_free (by rwa [Instruction.opcode?_setSJ] at hop) hop rfl
        rfl⟩
    · exact ⟨_, hi, .inl (Option.some.inj (hi'.symm.trans he))⟩
  · exact ⟨i', by rw [← h.same p hp, hi'], .inl rfl⟩

theorem Instruction.becomes_redirected {i : Instruction} (hop : i.opcode? = some .testSet)
    (reg : Option Nat) :
    i.Becomes r (JumpList.redirected i reg) := by
  obtain ⟨op, hop', hf⟩ := opcode?_redirected hop reg
  exact becomes_of_free hop hop' rfl hf

theorem JumpList.Retested.rewritten (h : JumpList.Retested code code' ms reg) :
    Rewritten r code code' := by
  intro p i' hi'
  by_cases hp : p + 1 ∈ ms ∧ JumpList.IsOp code p .testSet
  · obtain ⟨hp, i, hi, hop⟩ := hp
    cases (h.test p i hp hi hop).symm.trans hi'
    exact ⟨i, hi, Instruction.becomes_redirected hop reg⟩
  · exact ⟨i', by rw [← h.same p fun hp' ht => hp ⟨hp', ht⟩, hi'], .inl rfl⟩

theorem JumpList.Aimed.rewritten {vt : Nat} {plain : Option Nat} {aims : List (Nat × Nat)}
    (hc : JumpList.Chain code ms)
    (h : JumpList.Aimed code code' ms vt reg plain aims) : Rewritten r code code' := by
  intro p i' hi'
  by_cases hp : p ∈ ms
  · obtain ⟨i, hi, hop⟩ := hc.isOp hp
    obtain ⟨t, -, he, -⟩ := h.jump p i hp hi
    cases he.symm.trans hi'
    exact ⟨i, hi, Instruction.becomes_of_free hop (by simpa using hop) rfl rfl⟩
  · by_cases hq : p + 1 ∈ ms ∧ JumpList.IsOp code p .testSet
    · obtain ⟨hq, i, hi, hop⟩ := hq
      cases (h.test p i hq hi hop).symm.trans hi'
      exact ⟨i, hi, Instruction.becomes_redirected hop reg⟩
    · exact ⟨i', by rw [← h.same p hp fun hq' ht => hq ⟨hq', ht⟩, hi'], .inl rfl⟩

end

namespace Instruction

/-- The operands that are indices are what the opcode demands, and the constants among them are
those that are meant. -/
structure Serves (i : Instruction) (r : References) (op : Opcode) (meant : List Value) : Prop where
  refers : i.RefersOf r op
  stand : Stand r.constants (i.constantsOf op) meant

variable {i : Instruction} {r r' : References} {op : Opcode} {meant : List Value}

theorem serves_of_free (h : op.refers = false) : i.Serves r op [] :=
  ⟨refersOf_of_free h, by rw [constantsOf_of_free h]; exact .nil⟩

theorem Serves.mono (h : i.Serves r op meant) (hg : r.Grows r') : i.Serves r' op meant :=
  ⟨h.refers.mono hg, h.stand.mono hg.constants⟩

end Instruction

namespace Draft

/-- What is asked for refers to what is there, and to the constants that are meant; a large index is
asked for differently. -/
structure Refers (d : Draft) (r : References) (meant : List Value) : Prop where
  serves : d.word.Serves r d.opcode meant
  small : d.opcode ≠ .loadKX

variable {d : Draft} {r : References}

theorem refers_of_free (h : d.opcode.refers = false) : d.Refers r [] :=
  ⟨Instruction.serves_of_free h, fun he => by rw [he] at h; cases h⟩

theorem get_ax {op : Opcode} {v : Nat} (h : (Draft.ax op v).fits = true) :
    (Draft.ax op v).word.ax = v := by
  have hv := fits_ax.1 h
  have hop := op.number_lt
  have hw : (Draft.ax op v).word.word.toNat = op.number + v * 2 ^ 7 := by
    have h₁ : v <<< 7 + op.number = v <<< 7 ||| op.number :=
      Nat.shiftLeft_add_eq_or_of_lt (by omega) _
    simp only [word, Opcode.ax, Instruction.ofAx, Instruction.join, List.foldl_cons, List.foldl_nil,
      Instruction.Field.ax, UInt32.toNat_or, UInt8.toNat_toUInt32, Opcode.toNat_byteOf]
    rw [toNat_shiftLeft_ofNat (by omega) (by omega), Nat.or_comm, ← h₁, Nat.shiftLeft_eq]
    omega
  simp only [Instruction.ax, Instruction.get, hw, Instruction.Field.ax, Nat.pow_eq,
    Nat.shiftRight_eq_div_pow]
  omega

end Draft

section

variable {r : References} {code : Code} {d : Draft} {meant : List Value}

theorem Draft.Refers.opcode?_ne (h : d.Refers r meant) : d.word.opcode? ≠ some .loadKX := by
  rw [Draft.opcode?_word d]
  exact fun he => h.small (Option.some.inj he)

theorem Referring.pushDraft (h : Referring r code) (hd : d.Refers r meant) :
    Referring r (code.push d.word) :=
  h.push ((Instruction.refers_iff (Draft.opcode?_word d)).2 hd.serves.refers) hd.opcode?_ne

theorem Faithful.pushDraft {rows : Array (List Value)} (h : Faithful r.constants code rows)
    (hd : d.Refers r meant) :
    Faithful r.constants (code.push d.word) (rows.push meant) := by
  refine h.push ?_ hd.opcode?_ne
  rw [Instruction.constants_eq (Draft.opcode?_word d)]
  exact hd.serves.stand

end

/-- Where a nested function finds an upvalue: within the registers or the upvalues of the enclosing
one. -/
def Upvalue.Within (u : Upvalue) (maxStack : Int) (upvalues : Nat) : Prop :=
  0 ≤ u.index ∧ u.index < if u.inStack then maxStack else (upvalues : Int)

theorem Upvalue.Within.mono {u : Upvalue} {m m' : Int} {n n' : Nat} (h : u.Within m n) (hm : m ≤ m')
    (hn : n ≤ n') :
    u.Within m' n' := by
  refine ⟨h.1, Int.lt_of_lt_of_le h.2 ?_⟩
  split
  · exact hm
  · exact Int.ofNat_le.2 hn

namespace Opcode

/-- The second operand of a binary operation and its fallback is what they demand. -/
def Takes (op : Opcode) (r : References) (operand : Nat) (meant : List Value) : Prop :=
  ∀ (w : Instruction) (f : Opcode), op.fallback? = some f →
    (w.c = operand → w.Serves r op meant) ∧ (w.b = operand → w.Serves r f meant)

variable {op f : Opcode} {r r' : References} {a b c k operand : Nat} {meant : List Value}

theorem Takes.mono (h : op.Takes r operand meant) (hg : r.Grows r') : op.Takes r' operand meant :=
  fun w f hf => ⟨fun hc => ((h w f hf).1 hc).mono hg, fun hb => ((h w f hf).2 hb).mono hg⟩

theorem Takes.refers (h : op.Takes r operand meant) (hf : op.fallback? = some f)
    (hd : (Draft.abck op a b operand k).fits = true) : (Draft.abck op a b operand k).Refers r
    meant := by
  refine ⟨(h _ f hf).1 (Draft.get_abck hd).2.2.1, ?_⟩
  rintro rfl
  cases hf

theorem Takes.fallback (h : op.Takes r operand meant) (hf : op.fallback? = some f)
    (hd : (Draft.abck f a operand c k).fits = true) : (Draft.abck f a operand c k).Refers r
    meant := by
  refine ⟨(h _ f hf).2 (Draft.get_abck hd).2.1, ?_⟩
  rintro rfl
  cases op <;> cases hf

theorem takes_of_ne (hf : op.fallback? = some f) (hne : f ≠ .mmBinK) : op.Takes r operand [] := by
  intro w f' hf'
  cases hf.symm.trans hf'
  have hfree : op.refers = false ∧ f.refers = false := by
    cases op <;> cases hf <;> first | exact ⟨rfl, rfl⟩ | exact absurd rfl hne
  exact ⟨fun _ => Instruction.serves_of_free hfree.1, fun _ => Instruction.serves_of_free hfree.2⟩

end Opcode

end LuaChunk
