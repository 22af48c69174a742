import LuaChunk.Proofs.Code.Shape

set_option autoImplicit false

namespace LuaChunk

open JumpList (Code IsOp Chain)

namespace JumpList

/-- The jumps of some code are in lists, each in one and once, but for those that have been sent to
a destination. -/
structure Threads (code : Code) (aims : List (Nat × Nat)) (lists : List (List Nat)) : Prop where
  chains : ∀ ms ∈ lists, Chain code ms
  apart : lists.flatten.Nodup
  jumps : ∀ (p : Nat) (i : Instruction), code[p]? = some i → i.opcode? = some .jmp →
    p ∈ lists.flatten ∨ ∃ t : Nat, (p, t) ∈ aims ∧ i.sj = (t : Int) - (p + 1)

end JumpList

namespace Pending

/-- The jumps that are pending. -/
def jumps : Pending → List Nat
  | .list ms _ => ms
  | .goto pc _ => [pc]
  | _ => []

def first? (x : Pending) : Option Nat := x.jumps.head?

def heads (P : List Pending) : List Nat := P.filterMap first?

theorem heads_cons (x : Pending) (P : List Pending) :
    heads (x :: P) = x.first?.toList ++ heads P := by
  unfold heads
  cases h : x.first? with
  | none => rw [List.filterMap_cons_none h]; rfl
  | some p => rw [List.filterMap_cons_some h]; rfl

theorem heads_append (P Q : List Pending) : heads (P ++ Q) = heads P ++ heads Q :=
  List.filterMap_append

theorem mem_heads {P : List Pending} {h : Nat} : h ∈ heads P ↔ ∃ ms ∈ P.map jumps,
    ms.head? = some h := by
  rw [heads, List.mem_filterMap]
  constructor
  · rintro ⟨x, hx, hh⟩
    exact ⟨x.jumps, List.mem_map_of_mem hx, hh⟩
  · rintro ⟨ms, hm, hh⟩
    obtain ⟨x, hx, rfl⟩ := List.mem_map.1 hm
    exact ⟨x, hx, hh⟩

theorem jumps_sublist (x : Pending) : x.jumps.Sublist x.owned := by
  cases x with
  | list | goto => exact List.Sublist.refl _
  | target | table | loop => exact List.nil_sublist _

theorem flatten_jumps_sublist (P : List Pending) : (P.map jumps).flatten.Sublist (ownedBy P) := by
  induction P with
  | nil => exact List.Sublist.refl _
  | cons x P ih =>
    rw [ownedBy_cons]
    exact x.jumps_sublist.append ih

theorem heads_sublist (P : List Pending) : (heads P).Sublist (P.map jumps).flatten := by
  induction P with
  | nil => exact List.Sublist.refl _
  | cons x P ih =>
    rw [heads_cons]
    refine List.Sublist.append ?_ ih
    unfold first?
    cases x.jumps with
    | nil => exact List.Sublist.refl _
    | cons m ms => exact List.singleton_sublist.2 List.mem_cons_self

end Pending

theorem Shape.threads {code : Code} {aims : List (Nat × Nat)} {L : Nat} {P : List Pending}
    {o : Option Nat}
    (h : Shape code aims L P o) : JumpList.Threads code aims (P.map Pending.jumps) where
  chains ms hm := by
    obtain ⟨x, hx, rfl⟩ := List.mem_map.1 hm
    have hholds := h.holds x hx
    cases x with
    | list ms level => exact hholds
    | goto pc level => exact hholds.1
    | target | table | loop => trivial
  apart := h.nodup.sublist (Pending.flatten_jumps_sublist P)
  jumps p i hi hop := by
    rcases h.jumps p i hi hop with hp | ⟨t, ht, hsj, -⟩
    · obtain ⟨x, hx, hp⟩ := List.mem_flatMap.1 hp
      have hholds := h.holds x hx
      refine .inl (List.mem_flatten.2 ⟨x.jumps, List.mem_map_of_mem hx, ?_⟩)
      cases x with
      | list | goto => exact hp
      | target => cases hp
      | table pc reg =>
        -- the instruction of a table is no jump
        cases List.mem_singleton.1 hp
        cases hholds.1.unique ⟨i, hi, hop⟩
      | loop pc base level isGeneric =>
        cases List.mem_singleton.1 hp
        obtain ⟨j, hj, -, hjop⟩ := hholds
        cases hi.symm.trans hj
        rw [hop] at hjop
        cases isGeneric <;> cases hjop
    · exact .inr ⟨t, ht, hsj⟩

theorem Shape.nodup_heads {code : Code} {aims : List (Nat × Nat)} {L : Nat} {P : List Pending}
    {o : Option Nat}
    (h : Shape code aims L P o) : (Pending.heads P).Nodup :=
    h.threads.apart.sublist (Pending.heads_sublist P)

def Holding (held : Nat → Prop) (P : List Pending) : Prop := ∀ h, held h ↔ h ∈ Pending.heads P

namespace Holding

variable {held : Nat → Prop} {P P' : List Pending}

theorem nothing : Holding (fun _ => False) [] := fun _ => ⟨False.elim, List.not_mem_nil⟩

theorem same (h : Holding held P) (hp : ∀ p, p ∈ Pending.heads P' ↔ p ∈ Pending.heads P) :
    Holding held P' :=
  fun p => (h p).trans (hp p).symm

theorem perm (h : Holding held P) (hp : P'.Perm P) : Holding held P' :=
  h.same fun _ => (hp.filterMap _).mem_iff

theorem mem_cons {x : Pending} {p : Nat} : p ∈ Pending.heads (x :: P) ↔ x.first? = some p ∨
    p ∈ Pending.heads P := by
  rw [Pending.heads_cons, List.mem_append, Option.mem_toList]

theorem add {x : Pending} {pc : Nat} (h : Holding held P) (hx : x.first? = some pc) :
    Holding (fun p => held p ∨ p = pc) (x :: P) := by
  intro p
  show held p ∨ p = pc ↔ _
  rw [mem_cons, hx, Option.some_inj, h p, or_comm, eq_comm]

theorem drop {x : Pending} (h : Holding held (x :: P)) (hn : (Pending.heads (x :: P)).Nodup) :
    Holding (fun p => held p ∧ x.first? ≠ some p) P := by
  intro p
  show held p ∧ x.first? ≠ some p ↔ _
  rw [h p, mem_cons]
  rw [Pending.heads_cons] at hn
  constructor
  · rintro ⟨hp | hp, hne⟩
    · exact absurd hp hne
    · exact hp
  · intro hp
    refine ⟨.inr hp, fun hx => ?_⟩
    exact (List.nodup_append.1 hn).2.2 p (Option.mem_toList.2 hx) p hp rfl

theorem join {ms ms' : List Nat} {l : Nat} (h : Holding held (.list ms l :: .list ms' l :: P))
    (hn : (Pending.heads (.list ms l :: .list ms' l :: P)).Nodup) :
    Holding (if ms.head?.isSome then fun p => held p ∧ ms'.head? ≠ some p else held)
      (.list (ms ++ ms') l :: P) := by
  cases ms with
  | nil => exact h
  | cons m ms =>
    have hswap := List.Perm.swap (.list (m :: ms) l) (.list ms' l) P
    exact (h.perm hswap).drop ((hswap.filterMap _).nodup_iff.2 hn)

end Holding

end LuaChunk
