import Mathlib.Logic.Relation
import LuaChunk.Code.Prototype
import LuaChunk.Proofs.Code.Final

/-!
What the final pass does to code of which nothing is assumed but that its jumps lead into it. Jumps
are pointed elsewhere one after the other, and a chain is followed through jumps that were already
pointed elsewhere, for a bounded number of jumps; but a jump still only leads further along its own
chain. So an execution visits the same instructions other than jumps, and it spins where it did
before.
-/

set_option autoImplicit false

namespace LuaChunk

open JumpList (Code IsOp)

variable {code code' code'' : Code} {p q r n : Nat} {i : Instruction}

def Jumps (code : Code) (p q : Nat) : Prop :=
  ∃ i, code[p]? = some i ∧ i.opcode? = some .jmp ∧ i.sj = (q : Int) - (p + 1)

/-- Whether following jumps takes control from one position to another. -/
abbrev Leads (code : Code) : Nat → Nat → Prop := Relation.ReflTransGen (Jumps code)

/-- Whether following jumps takes control to a position without a jump. -/
def Arrives (code : Code) (p q : Nat) : Prop := Leads code p q ∧ ¬IsOp code q .jmp

/-- Whether all jumps lead into the code. -/
def JumpsInside (code : Code) : Prop := ∀ p, IsOp code p .jmp → ∃ q < code.size, Jumps code p q

theorem jumpsInside_iff : JumpsInside code ↔ ∀ p (h : p < code.size), code[p].opcode? = some .jmp →
    0 ≤ (p : Int) + 1 + code[p].sj ∧ (p : Int) + 1 + code[p].sj < code.size := by
  constructor
  · intro h p hp hop
    obtain ⟨q, hq, i, hi, -, hsj⟩ := h p ⟨_, Array.getElem?_eq_getElem hp, hop⟩
    cases (Array.getElem?_eq_getElem hp).symm.trans hi
    omega
  · rintro h p ⟨i, hi, hop⟩
    obtain ⟨hp, rfl⟩ := Array.getElem?_eq_some_iff.1 hi
    have hrange := h p hp hop
    exact ⟨((p : Int) + 1 + code[p].sj).toNat, by omega, _, hi, hop, by omega⟩

instance (code : Code) : Decidable (JumpsInside code) := decidable_of_iff' _ jumpsInside_iff

theorem Jumps.isOp (h : Jumps code p q) : IsOp code p .jmp :=
  let ⟨i, hi, hop, _⟩ := h
  ⟨i, hi, hop⟩

theorem Jumps.eq (h : Jumps code p q) (h' : Jumps code p r) : q = r := by
  obtain ⟨i, hi, -, hq⟩ := h
  obtain ⟨i', hi', -, hr⟩ := h'
  cases hi.symm.trans hi'
  omega

/-- Control goes only one way: a position that jumps lead to stands before the one where they
end. -/
theorem Arrives.of_leads (h : Arrives code p r) (hq : Leads code p q) : Arrives code q r := by
  have hunique : Relator.RightUnique (Jumps code) := fun _ _ _ h h' => h.eq h'
  refine ⟨?_, h.2⟩
  rcases Relation.ReflTransGen.total_of_right_unique hunique h.1 hq with hrq | hqr
  · rcases Relation.ReflTransGen.cases_head_iff.1 hrq with rfl | ⟨c, hc, -⟩
    · exact .refl
    · exact absurd hc.isOp h.2
  · exact hqr

/-- Code with the same jumps, each of which leads further along its chain. -/
structure Shortcuts (code code' : Code) : Prop where
  jumps : ∀ p, IsOp code' p .jmp ↔ IsOp code p .jmp
  inside : JumpsInside code'
  further : ∀ {p q'}, Jumps code' p q' → ∃ q, Jumps code p q ∧ Leads code q q'

namespace Shortcuts

theorem refl (h : JumpsInside code) : Shortcuts code code :=
  ⟨fun _ => .rfl, h, fun h => ⟨_, h, .refl⟩⟩

theorem leads (h : Shortcuts code code') (hl : Leads code' p q) : Leads code p q := by
  induction hl with
  | refl => exact .refl
  | tail _ hj ih =>
    obtain ⟨q, hq, hrest⟩ := h.further hj
    exact (ih.tail hq).trans hrest

/-- Jumps that end before end at the same position after, by induction on the way there. The jump at
its start may lead past the positions next to it, so what is shown holds of all positions on the
way. -/
theorem leads_of_arrives (h : Shortcuts code code') (ha : Arrives code p r) : Leads code' p r := by
  suffices hall : ∀ x, Leads code p x → Leads code x r → Leads code' x r from hall p .refl ha.1
  obtain ⟨hl, hend⟩ := ha
  induction hl using Relation.ReflTransGen.head_induction_on with
  | refl =>
    intro x hx hback
    rcases Relation.ReflTransGen.cases_head_iff.1 hx with rfl | ⟨c, hc, -⟩
    · exact .refl
    · exact absurd hc.isOp hend
  | head hj hrest ih =>
    rename_i p c
    intro x hx hxr
    rcases Relation.ReflTransGen.cases_head_iff.1 hx with rfl | ⟨c', hc', hx⟩
    · obtain ⟨q', -, hq'⟩ := h.inside p ((h.jumps p).2 hj.isOp)
      obtain ⟨q, hq, hqq⟩ := h.further hq'
      cases hq.eq hj
      exact .head hq' (ih q' hqq (Arrives.of_leads ⟨hrest, hend⟩ hqq).1)
    · cases hc'.eq hj
      exact ih x hx hxr

theorem arrives_iff (h : Shortcuts code code') (p q : Nat) : Arrives code p q ↔
    Arrives code' p q := by
  constructor
  · exact fun ha => ⟨h.leads_of_arrives ha, fun hj => ha.2 ((h.jumps q).1 hj)⟩
  · exact fun ha => ⟨h.leads ha.1, fun hj => ha.2 ((h.jumps q).2 hj)⟩

end Shortcuts

def Instruction.Leaves (i : Instruction) : Prop :=
  i.opcode? = some .ret0 ∨ i.opcode? = some .ret1 ∨ i.opcode? = some .ret ∨
    i.opcode? = some .tailCall

/-- The instructions other than jumps that an execution visits first, by their positions and the
states there. A step says for an instruction at a position where it may go from a state, and with
which state. -/
inductive Visits {σ : Type} (step : Nat → Instruction → σ → Nat × σ → Prop) (code : Code) :
    Nat → σ → List (Nat × σ) → Prop
  | start (p : Nat) (s : σ) : Visits step code p s []
  | leave {p q : Nat} {i : Instruction} (s : σ) (ha : Arrives code p q) (hi : code[q]? = some i)
    (hl : i.Leaves) :
    Visits step code p s [(q, s)]
  | step {p q q' : Nat} {i : Instruction} {s s' : σ} {vs : List (Nat × σ)} (ha : Arrives code p q)
    (hi : code[q]? = some i) (hl : ¬i.Leaves) (hs : step q i s (q', s'))
    (hv : Visits step code q' s' vs) :
    Visits step code p s ((q, s) :: vs)

/-- Whether instructions other than jumps stay, or leave the function as before. -/
def SameVisited (code code' : Code) : Prop :=
  ∀ (p : Nat) (i : Instruction), code[p]? = some i → i.opcode? ≠ some .jmp →
    ∃ i' : Instruction, code'[p]? = some i' ∧ (i' = i ∨ i.Leaves ∧ i'.Leaves)

theorem Visits.mono {σ : Type} {step : Nat → Instruction → σ → Nat × σ → Prop} {s : σ}
    {vs : List (Nat × σ)}
    (h : Visits step code p s vs) (ha : ∀ p q, Arrives code p q → Arrives code' p q)
    (hs : SameVisited code code') :
    Visits step code' p s vs := by
  induction h with
  | start p s => exact .start p s
  | leave s hq hi hl =>
    obtain ⟨i', hi', rfl | ⟨-, hl'⟩⟩ := hs _ _ hi fun hop => hq.2 ⟨_, hi, hop⟩
    · exact .leave s (ha _ _ hq) hi' hl
    · exact .leave s (ha _ _ hq) hi' hl'
  | step hq hi hl hstep _ ih =>
    obtain ⟨i', hi', rfl | ⟨hl', -⟩⟩ := hs _ _ hi fun hop => hq.2 ⟨_, hi, hop⟩
    · exact .step (ha _ _ hq) hi' hl hstep ih
    · exact absurd hl' hl

theorem finalTarget_leads (h : JumpsInside code) (fuel : Nat) (hp : p < code.size) :
    ∃ t < code.size, JumpList.finalTarget code fuel p = .ok t ∧ Leads code p t := by
  induction fuel generalizing p with
  | zero => exact ⟨p, hp, rfl, .refl⟩
  | succ fuel ih =>
    have hi := Array.getElem?_eq_getElem hp
    by_cases hj : code[p].is .jmp = true
    · obtain ⟨q, hq, hpq⟩ := h p ⟨_, hi, Instruction.is_iff.1 hj⟩
      obtain ⟨t, ht, he, hqt⟩ := ih hq
      have htarget : (p : Int) + code[p].sj + 1 = q := by
        obtain ⟨i, hi', -, hsj⟩ := hpq
        cases hi.symm.trans hi'
        omega
      refine ⟨t, ht, ?_, .head hpq hqt⟩
      simp only [JumpList.finalTarget, hi, hj, if_true]
      rw [htarget, if_neg (by omega)]
      exact he
    · exact ⟨p, hp, by simp [JumpList.finalTarget, hi, hj], .refl⟩

theorem finalTarget_jump (h : JumpsInside code) (fuel : Nat) (hj : Jumps code p q)
    (hq : q < code.size) :
    ∃ t < code.size, JumpList.finalTarget code (fuel + 1) p = .ok t ∧ Leads code q t := by
  obtain ⟨t, ht, he, hl⟩ := finalTarget_leads h fuel hq
  obtain ⟨i, hi, hop, hsj⟩ := hj
  refine ⟨t, ht, ?_, hl⟩
  simp only [JumpList.finalTarget, hi, Instruction.is_iff.2 hop, if_true]
  rw [show (p : Int) + i.sj + 1 = q by omega, if_neg (by omega)]
  exact he

theorem opcode?_mark (m : ReturnMarks) (i : Instruction) : (m.mark i).opcode? = i.opcode? :=
  (Finished.mark_fields m i).1

/-- What is no jump is none after the pass either, and what leaves the function still does. -/
theorem opcode?_adjust (m : ReturnMarks) (i : Instruction) :
    (m.adjust i).opcode? = i.opcode? ∨ i.Leaves ∧ (m.adjust i).opcode? = some .ret := by
  have hset : (m.mark (i.setOpcode .ret)).opcode? = some .ret :=
    (opcode?_mark m _).trans (Finished.opcode?_setOpcode .ret)
  unfold ReturnMarks.adjust
  split
  · split
    · exact .inr ⟨.inl ‹_›, hset⟩
    · exact .inl rfl
  · split
    · exact .inr ⟨.inr (.inl ‹_›), hset⟩
    · exact .inl rfl
  · exact .inl (opcode?_mark m i)
  · exact .inl (opcode?_mark m i)
  · exact .inl rfl

theorem k_mark (m : ReturnMarks) (i : Instruction) :
    (m.mark i).k = if m.closes then 1 else i.k := by
  have hk : (i.setK 1).k = 1 := Instruction.get_set_fits i (by decide) (by decide) (by decide)
  have hc : ∀ (j : Instruction) (v : Nat), (j.setC v).k = j.k :=
    fun j v => Instruction.get_set_apart j _ (by decide)
  unfold ReturnMarks.mark
  cases m.closes <;> cases m.isVararg <;> simp [hc, hk]

theorem c_mark (m : ReturnMarks) (i : Instruction) :
    (m.mark i).c = if m.isVararg then (m.numParams + 1) % 256 else i.c := by
  have hk : (i.setK 1).c = i.c := Instruction.get_set_apart i _ (by decide)
  have hc : ∀ (j : Instruction) (v : Nat), (j.setC v).c = v % 256 := by
    intro j v
    refine (Instruction.get_set_self j .c _ (by decide) (by decide)).trans ?_
    rw [UInt32.toNat_ofNat']
    exact Nat.mod_mod_of_dvd v (show 256 ∣ 2 ^ 32 by decide)
  unfold ReturnMarks.mark
  cases m.closes <;> cases m.isVararg <;> simp [hc, hk]

/-- A return or tail call with its marks. -/
structure Marked (m : ReturnMarks) (i i' : Instruction) : Prop where
  opcode : i'.opcode? = if i.opcode? = some .tailCall then some .tailCall else some .ret
  a : i'.a = i.a
  b : i'.b = i.b
  k : i'.k = if m.closes then 1 else i.k
  c : i'.c = if m.isVararg then (m.numParams + 1) % 256 else i.c

theorem marked_mark (m : ReturnMarks) (i : Instruction) {j : Instruction}
    (hop : j.opcode? = if i.opcode? = some .tailCall then some .tailCall else some .ret)
    (ha : j.a = i.a) (hb : j.b = i.b)
    (hk : j.k = i.k) (hc : j.c = i.c) : Marked m i (m.mark j) :=
  have h := Finished.mark_fields m j
  ⟨h.1.trans hop, h.2.1.trans ha, h.2.2.trans hb, hk ▸ k_mark m j, hc ▸ c_mark m j⟩

theorem marked_adjust {m : ReturnMarks} (hm : m.closes = true ∨ m.isVararg = true) (hi : i.Leaves) :
    Marked m i (m.adjust i) := by
  have hm' : (m.closes || m.isVararg) = true := by simpa using hm
  have hset : i.opcode? ≠ some .tailCall → Marked m i (m.mark (i.setOpcode .ret)) := by
    intro hne
    have happart : ∀ g : Instruction.Field, Instruction.Field.opcode.apart g = true →
        (i.setOpcode .ret).get g = i.get g :=
      fun _ hg => Instruction.get_set_apart i _ hg
    exact marked_mark m i (by rw [Finished.opcode?_setOpcode, if_neg hne]) (happart .a (by decide))
      (happart .b (by decide)) (happart .k (by decide)) (happart .c (by decide))
  unfold ReturnMarks.adjust
  rcases hi with hi | hi | hi | hi
  · simp only [hi, hm', if_true]
    exact hset (by simp [hi])
  · simp only [hi, hm', if_true]
    exact hset (by simp [hi])
  · simp only [hi]
    exact marked_mark m i (by simp [hi]) rfl rfl rfl rfl
  · simp only [hi]
    exact marked_mark m i (by simp [hi]) rfl rfl rfl rfl

theorem adjust_eq_self {m : ReturnMarks} (h : ¬(i.Leaves ∧ (m.closes = true ∨ m.isVararg = true))) :
    m.adjust i = i := by
  have hnone : i.Leaves → m.closes = false ∧ m.isVararg = false := by
    intro hl
    simpa [hl] using h
  have hmark : i.Leaves → m.mark i = i := by
    intro hl
    simp [ReturnMarks.mark, hnone hl]
  unfold ReturnMarks.adjust
  split
  · rename_i hop
    simp [hnone (.inl hop)]
  · rename_i hop
    simp [hnone (.inr (.inl hop))]
  · rename_i hop
    exact hmark (.inr (.inr (.inl hop)))
  · rename_i hop
    exact hmark (.inr (.inr (.inr hop)))
  · rfl

theorem leaves_adjust (m : ReturnMarks) (h : i.Leaves) : (m.adjust i).Leaves := by
  rcases opcode?_adjust m i with ho | ⟨-, ho⟩
  · unfold Instruction.Leaves
    rwa [ho]
  · exact .inr (.inr (.inl ho))

theorem adjust_same (m : ReturnMarks) (i : Instruction) : m.adjust i = i ∨ i.Leaves ∧
    (m.adjust i).Leaves := by
  by_cases hl : i.Leaves
  · exact .inr ⟨hl, leaves_adjust m hl⟩
  · exact .inl (adjust_eq_self fun h => hl h.1)

/-- What the pass makes of code. -/
structure Concluded (m : ReturnMarks) (code code' : Code) : Prop where
  size : code'.size = code.size
  jumps : ∀ (p : Nat) (i : Instruction), code[p]? = some i → i.opcode? = some .jmp →
    ∃ q q' : Nat, Jumps code p q ∧ Leads code q q' ∧ Jumps code' p q' ∧
      code'[p]? = some (i.setSJ ((q' : Int) - (p + 1)))
  marks : m.closes = true ∨ m.isVararg = true → ∀ (p : Nat) (i : Instruction), code[p]? = some i →
    i.Leaves →
    ∃ i' : Instruction, code'[p]? = some i' ∧ Marked m i i'
  others : ∀ (p : Nat) (i : Instruction), code[p]? = some i → i.opcode? ≠ some .jmp →
    ¬(i.Leaves ∧ (m.closes = true ∨ m.isVararg = true)) → code'[p]? = some i

/-- What the pass has made of code when it has come to a position. -/
structure ConcludedTo (m : ReturnMarks) (n : Nat) (code code' : Code) : Prop where
  size : code'.size = code.size
  shortcuts : Shortcuts code code'
  jumps : ∀ p < n, ∀ i : Instruction, code[p]? = some i → i.opcode? = some .jmp →
    ∃ q : Nat, Jumps code' p q ∧ code'[p]? = some (i.setSJ ((q : Int) - (p + 1)))
  others : ∀ p < n, ∀ i : Instruction, code[p]? = some i → i.opcode? ≠ some .jmp →
    code'[p]? = some (m.adjust i)
  rest : ∀ p, n ≤ p → code'[p]? = code[p]?

namespace Shortcuts

variable {f : Instruction → Instruction}

theorem point (h : Shortcuts code code') (hi : code'[n]? = some i) (hj : Jumps code' n p)
    (hl : Leads code' p q)
    (hq : q < code'.size) (hf : (f i).opcode? = some .jmp ∧ (f i).sj = (q : Int) - (n + 1)) :
    Shortcuts code (code'.modify n f) := by
  have hself : Jumps (code'.modify n f) n q := ⟨f i, JumpList.getElem?_modify_self hi f, hf.1, hf.2⟩
  have hother : ∀ {p q}, n ≠ p → (Jumps (code'.modify n f) p q ↔ Jumps code' p q) := by
    intro p q hne
    unfold Jumps
    rw [JumpList.getElem?_modify_ne hne]
  have hops : ∀ p, IsOp (code'.modify n f) p .jmp ↔ IsOp code' p .jmp := by
    intro p
    by_cases hp : n = p
    · subst hp
      exact ⟨fun _ => hj.isOp, fun _ => hself.isOp⟩
    · unfold IsOp
      rw [JumpList.getElem?_modify_ne hp]
  refine ⟨fun p => (hops p).trans (h.jumps p), ?_, ?_⟩
  · intro p hp
    by_cases hnp : n = p
    · exact ⟨q, by simpa using hq, hnp ▸ hself⟩
    · obtain ⟨t, ht, hpt⟩ := h.inside p ((hops p).1 hp)
      exact ⟨t, by simpa using ht, (hother hnp).2 hpt⟩
  · intro x y hxy
    by_cases hnx : n = x
    · subst hnx
      cases hxy.eq hself
      obtain ⟨t, ht, hrest⟩ := h.further hj
      exact ⟨t, ht, hrest.trans (h.leads hl)⟩
    · exact h.further ((hother hnx).1 hxy)

theorem modify (h : Shortcuts code code') (hi : code'[n]? = some i) (hne : i.opcode? ≠ some .jmp)
    (hf : (f i).opcode? ≠ some .jmp) : Shortcuts code (code'.modify n f) := by
  have hjumps : ∀ {p q}, Jumps (code'.modify n f) p q ↔ Jumps code' p q := by
    intro p q
    by_cases hp : n = p
    · subst hp
      unfold Jumps
      rw [JumpList.getElem?_modify_self hi, hi]
      simp [hne, hf]
    · unfold Jumps
      rw [JumpList.getElem?_modify_ne hp]
  have hops : ∀ p, IsOp (code'.modify n f) p .jmp ↔ IsOp code' p .jmp := by
    intro p
    by_cases hp : n = p
    · subst hp
      unfold IsOp
      rw [JumpList.getElem?_modify_self hi, hi]
      simp [hne, hf]
    · unfold IsOp
      rw [JumpList.getElem?_modify_ne hp]
  refine ⟨fun p => (hops p).trans (h.jumps p), ?_, fun hpq => h.further (hjumps.1 hpq)⟩
  intro p hp
  obtain ⟨t, ht, hpt⟩ := h.inside p ((hops p).1 hp)
  exact ⟨t, by simpa using ht, hjumps.2 hpt⟩

end Shortcuts

namespace ConcludedTo

variable {m : ReturnMarks} {f : Instruction → Instruction}

theorem start (m : ReturnMarks) (h : JumpsInside code) : ConcludedTo m 0 code code :=
  ⟨rfl, .refl h, fun _ hp => absurd hp (Nat.not_lt_zero _),
    fun _ hp => absurd hp (Nat.not_lt_zero _), fun _ _ => rfl⟩

theorem extend (h : ConcludedTo m n code code') (hi : code[n]? = some i)
    (hs : Shortcuts code (code'.modify n f))
    (hjump : i.opcode? = some .jmp → ∃ q : Nat, Jumps (code'.modify n f) n q ∧
    f i = i.setSJ ((q : Int) - (n + 1)))
    (hother : i.opcode? ≠ some .jmp → f i = m.adjust i) : ConcludedTo m (n + 1) code
    (code'.modify n f) := by
  have hi' := (h.rest n (Nat.le_refl n)).trans hi
  have hself := JumpList.getElem?_modify_self hi' f
  refine ⟨by simp [h.size], hs, ?_, ?_, ?_⟩
  · intro p hp k hk hop
    rcases Nat.lt_succ_iff_lt_or_eq.1 hp with hlt | rfl
    · obtain ⟨q, hq, hk'⟩ := h.jumps p hlt k hk hop
      have hsame : (code'.modify n f)[p]? = code'[p]? :=
        JumpList.getElem?_modify_ne (Nat.ne_of_gt hlt) f
      exact ⟨q, by unfold Jumps; rwa [hsame], hsame.trans hk'⟩
    · cases hi.symm.trans hk
      obtain ⟨q, hq, he⟩ := hjump hop
      exact ⟨q, hq, he ▸ hself⟩
  · intro p hp k hk hop
    rcases Nat.lt_succ_iff_lt_or_eq.1 hp with hlt | rfl
    · exact (JumpList.getElem?_modify_ne (Nat.ne_of_gt hlt) f).trans (h.others p hlt k hk hop)
    · cases hi.symm.trans hk
      exact hother hop ▸ hself
  · intro p hp
    exact (JumpList.getElem?_modify_ne (show n ≠ p by omega) f).trans (h.rest p (by omega))

theorem step (h : ConcludedTo m n code code') (hn : n < code.size) :
    (JumpList.finishAt m code' n = .error .tooLong ∧ Instruction.offsetSJ < code.size) ∨
      ∃ code'', JumpList.finishAt m code' n = .ok code'' ∧ ConcludedTo m (n + 1) code code'' := by
  have hn' : n < code'.size := h.size ▸ hn
  have hi := Array.getElem?_eq_getElem hn
  have hi' := (h.rest n (Nat.le_refl n)).trans hi
  generalize code[n] = i at hi hi'
  unfold JumpList.finishAt
  simp only [hi']
  split
  · rename_i hj
    have hop := Instruction.is_iff.1 hj
    obtain ⟨p, hp, hnp⟩ := h.shortcuts.inside n ⟨i, hi', hop⟩
    obtain ⟨q, hq, he, hpq⟩ := finalTarget_jump h.shortcuts.inside 99 hnp hp
    rw [show JumpList.chainLimit = 99 + 1 from rfl, he]
    rcases JumpList.fix_eq q hn' with hfix | ⟨hfix, hlow, hup⟩
    · refine .inl ⟨hfix, Int.lt_of_not_ge fun hle => ?_⟩
      rw [← h.size] at hle
      exact JumpList.fix_ne_tooLong hn' hle (by omega) hfix
    · have hsj := Instruction.sj_setSJ i hlow hup
      have hop' : (i.setSJ ((q : Int) - (n + 1))).opcode? = some .jmp := by simpa using hop
      have hnew : Jumps (code'.modify n (·.setSJ ((q : Int) - (n + 1)))) n q :=
        ⟨_, JumpList.getElem?_modify_self hi' _, hop', hsj⟩
      exact .inr ⟨_, hfix, h.extend hi (h.shortcuts.point hi' hnp hpq hq ⟨hop', hsj⟩)
        (fun _ => ⟨q, hnew, rfl⟩)
        fun hne => absurd hop hne⟩
  · rename_i hj
    have hne : i.opcode? ≠ some .jmp := fun hop => hj (Instruction.is_iff.2 hop)
    have hne' : (m.adjust i).opcode? ≠ some .jmp := by
      rcases opcode?_adjust m i with ho | ⟨-, ho⟩
      · rwa [ho]
      · rw [ho]
        decide
    exact .inr ⟨_, rfl, h.extend hi (h.shortcuts.modify hi' hne hne') (fun hop => absurd hop hne)
      fun _ => rfl⟩

theorem run (h : ConcludedTo m (code.size - n) code code') (hn : n ≤ code.size) :
    (JumpList.finishLast m n code' = .error .tooLong ∧ Instruction.offsetSJ < code.size) ∨
      ∃ code'', JumpList.finishLast m n code' = .ok code'' ∧
        ConcludedTo m code.size code code'' := by
  induction n generalizing code' with
  | zero => exact .inr ⟨code', rfl, h⟩
  | succ n ih =>
    have hpos : code'.size - (n + 1) = code.size - (n + 1) := by rw [h.size]
    have hnext : code.size - (n + 1) + 1 = code.size - n := by omega
    unfold JumpList.finishLast
    rw [hpos]
    rcases h.step (by omega) with ⟨he, hsize⟩ | ⟨code'', he, h''⟩
    · exact .inl ⟨by rw [he], hsize⟩
    · rw [he]
      exact ih (hnext ▸ h'') (by omega)

theorem concluded (h : ConcludedTo m code.size code code') : Concluded m code code' where
  size := h.size
  jumps p i hi hop := by
    obtain ⟨q', hq', hi'⟩ := h.jumps p (Array.getElem?_eq_some_iff.1 hi).1 i hi hop
    obtain ⟨q, hq, hl⟩ := h.shortcuts.further hq'
    exact ⟨q, q', hq, hl, hq', hi'⟩
  marks hm p i hi hl := by
    have hne : i.opcode? ≠ some .jmp := by
      rintro hop
      simp [Instruction.Leaves, hop] at hl
    exact ⟨_, h.others p (Array.getElem?_eq_some_iff.1 hi).1 i hi hne, marked_adjust hm hl⟩
  others p i hi hne hm := by
    rw [h.others p (Array.getElem?_eq_some_iff.1 hi).1 i hi hne, adjust_eq_self hm]

theorem sameVisited (h : ConcludedTo m code.size code code') : SameVisited code code' ∧
    SameVisited code' code := by
  refine ⟨?_, ?_⟩
  · intro p i hi hne
    exact ⟨_, h.others p (Array.getElem?_eq_some_iff.1 hi).1 i hi hne, adjust_same m i⟩
  · intro p i' hi' hne
    have hp : p < code.size := h.size ▸ (Array.getElem?_eq_some_iff.1 hi').1
    have hi := Array.getElem?_eq_getElem hp
    have hne' : code[p].opcode? ≠ some .jmp := by
      intro hop
      obtain ⟨k, hk, hop'⟩ := (h.shortcuts.jumps p).2 ⟨_, hi, hop⟩
      cases hi'.symm.trans hk
      exact hne hop'
    cases hi'.symm.trans (h.others p hp _ hi hne')
    exact ⟨_, hi, (adjust_same m _).imp Eq.symm And.symm⟩

end ConcludedTo

/-- The final pass over code whose jumps lead into it. Jumps lead further along their chains,
returns and tail calls get their marks, and all else stays; and an execution visits the same
instructions other than jumps, whatever these do. The pass fails only where the code is longer than
a jump can reach. -/
theorem finish_preserves (m : ReturnMarks) (code : Code) (h : JumpsInside code) :
    (∃ code', JumpList.finish m code = .ok code' ∧ Concluded m code code' ∧
      (∀ p q, Arrives code' p q ↔ Arrives code p q) ∧
      ∀ {σ
        : Type} (step : Nat → Instruction → σ → Nat × σ → Prop) (p : Nat) (s : σ)
        (vs : List (Nat × σ)),
        Visits step code' p s vs ↔ Visits step code p s vs) ∨
      JumpList.finish m code = .error .tooLong ∧ Instruction.offsetSJ < code.size := by
  have hstart : ConcludedTo m (code.size - code.size) code code := by
    rw [Nat.sub_self]
    exact .start m h
  rcases hstart.run (Nat.le_refl _) with herror | ⟨code', he, hc⟩
  · exact .inr herror
  · have harrives := hc.shortcuts.arrives_iff
    exact .inl ⟨code', he, hc.concluded, fun p q => (harrives p q).symm, fun step p s vs =>
      ⟨fun hv => hv.mono (fun p q => (harrives p q).2) hc.sameVisited.2,
        fun hv => hv.mono (fun p q => (harrives p q).1) hc.sameVisited.1⟩⟩

/-- A chain of two jumps to a return, and two jumps that lead to each other. -/
theorem finish_preserves_chain :
    let m : ReturnMarks := ⟨true, false, 0⟩
    let code : Code := #[Opcode.sj .jmp 2 0, Opcode.sj .jmp 0 0, Opcode.sj .jmp (-2) 0,
      Opcode.sj .jmp 0 0,
      Opcode.abck .ret1 1 2 0 0]
    let code' : Code := #[Opcode.sj .jmp 3 0, Opcode.sj .jmp (-1) 0, Opcode.sj .jmp (-2) 0,
      Opcode.sj .jmp 0 0,
      Opcode.abck .ret 1 2 0 1]
    JumpsInside code ∧ JumpList.finish m code = .ok code' ∧ ∀ p q, Arrives code' p q ↔
      Arrives code p q := by
  intro m code code'
  have hinside : JumpsInside code := by decide
  have hfinish : JumpList.finish m code = .ok code' := by decide
  rcases finish_preserves m code hinside with ⟨result, he, -, harrives, -⟩ | ⟨-, hsize⟩
  · cases hfinish.symm.trans he
    exact ⟨hinside, hfinish, harrives⟩
  · exact absurd hsize (by decide)

end LuaChunk
