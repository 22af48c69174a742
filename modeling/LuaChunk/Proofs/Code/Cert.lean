import LuaChunk.Proofs.Code.Bounds

/-!
Certificates of definite assignment. A certificate gives for each position a set of registers that
are assigned whenever control gets there: the instruction reads only those, and each successor has
no more than what was there or is written on the way. Jumps that are pending have no successors yet;
their lists say what will be assigned where they are sent.
-/

set_option autoImplicit false

namespace LuaChunk

open JumpList (Code IsOp Chain)

def Pending.Assigned (D : Nat → Nat → Prop) : Pending → Prop
  | .list ms l => ∀ m ∈ ms, ∀ r < l, D m r
  | .goto pc l => ∀ r < l, D pc r
  | .target t l => ∀ r, D t r → r < l
  | .table pc reg => ∀ r, D (pc + 2) r → D pc r ∨ r = reg
  | .loop pc base l isGeneric => (∀ r, D (pc + 1) r → r < l) ∧
      ∀ r < base + (if isGeneric then 4 else 3), D pc r

/-- A step of control that is not left open. -/
def Step (code : Code) (P : List Pending) (p q : Nat) (ws : List Nat) : Prop :=
  ∃ i, code[p]? = some i ∧ p ∉ Pending.ownedBy P ∧ (q, ws) ∈ i.flow p

structure Cert (D : Nat → Nat → Prop) (code : Code) (params : Nat) (P : List Pending)
    (open_ : Option Nat) (live : Nat → Prop) : Prop where
  entry : ∀ r, D 0 r → r < params
  small : ∀ p r, D p r → r < Instruction.noRegister
  reads : ∀ (p : Nat) (i : Instruction), code[p]? = some i →
    (∀ q r, .table q r ∈ P → p ≠ q + 1) → ∀ r ∈ i.reads, D p r
  step : ∀ p q ws, Step code P p q ws → ∀ r, D q r → D p r ∨ r ∈ ws
  bounded : ∀ p q ws, Step code P p q ws → q ≤ code.size
  enters : ∀ p q ws, Step code P p q ws → q ≠ p + 1 → ∀ (k : Nat) (i : Instruction), k + 1 = q →
    code[k]? = some i → i.demand = .free ∨ i.demand = .loadTrue
  assigned : ∀ x ∈ P, x.Assigned D
  tests : ∀ (q : Nat) (i : Instruction), Pending.Listed P (q + 1) → code[q]? = some i →
    i.opcode? = some .testSet → i.a = Instruction.noRegister
  rooms : ∀ pc l, .goto pc l ∈ P → (∀ p ws, ¬ Step code P p (pc + 1) ws) ∧
    ∀ t l', .target t l' ∈ P → t ≠ pc + 1
  straight : ∀ pc, open_ = some pc → (∀ r, D (pc + 1) r → D pc r) ∧
    ∀ p q ws, Step code P p q ws → q ≤ pc ∨ pc ≤ p ∧ q = p + 1
  live : ∀ r, live r → D code.size r

namespace Instruction

theorem writes_subset {i : Instruction} {r : Nat} (hr : r ∈ i.writes) : r ∈ i.registers := by
  cases hop : i.opcode? with
  | none => simp [writes, hop] at hr
  | some op =>
    rw [writes_eq hop] at hr
    rw [registers_eq hop]
    cases op <;> first
      | exact List.mem_append_right _ hr
      | exact List.mem_cons_of_mem _ hr
      | exact List.mem_append_left _ hr

end Instruction

namespace Step

variable {code code' : Code} {P X : List Pending} {p q : Nat} {ws : List Nat}

theorem lt (h : Step code P p q ws) : p < code.size := by
  obtain ⟨i, hi, -⟩ := h
  exact (Array.getElem?_eq_some_iff.1 hi).1

theorem old (h : Step code' (X ++ P) p q ws) (hg : Grows code code') (hp : p < code.size) :
    Step code P p q ws := by
  obtain ⟨i, hi, ho, hq⟩ := h
  refine ⟨i, hg.back hp hi, ?_, hq⟩
  rw [Pending.ownedBy_append] at ho
  exact fun h => ho (List.mem_append_right _ h)

end Step

namespace Cert

variable {D : Nat → Nat → Prop} {code code' : Code} {params : Nat} {P P' X : List Pending}
  {o o' : Option Nat} {live live' : Nat → Prop} {aims : List (Nat × Nat)} {L : Nat}

/-- What a certificate says about a pending thing depends on the positions within the code. -/
theorem assigned_congr {D' : Nat → Nat → Prop} {x : Pending} (h : x.Assigned D)
    (hx : x.Holds code L) (hL : L ≤ code.size) (hD : ∀ p r, p ≤ code.size → (D' p r ↔ D p r)) :
    x.Assigned D' := by
  cases x with
  | list ms l =>
    intro m hm r hr
    have := (Chain.isOp hx hm).lt
    exact (hD m r (by omega)).2 (h m hm r hr)
  | goto pc l =>
    intro r hr
    have := hx.1.1.lt
    exact (hD pc r (by omega)).2 (h r hr)
  | target t l =>
    intro r hr
    have := hx.1
    exact h r ((hD t r (by omega)).1 hr)
  | table pc reg =>
    intro r hr
    have := hx.2.lt
    exact (h r ((hD _ r (by omega)).1 hr)).imp_left (hD pc r (by omega)).2
  | loop pc base l g =>
    obtain ⟨i, hi, -⟩ := hx
    have := (Array.getElem?_eq_some_iff.1 hi).1
    exact ⟨fun r hr => h.1 r ((hD _ r (by omega)).1 hr),
      fun r hr => (hD pc r (by omega)).2 (h.2 r hr)⟩

def extend (D : Nat → Nat → Prop) (n : Nat) (N : Nat → Nat → Prop) (p r : Nat) : Prop :=
  if p ≤ n then D p r else N p r

theorem extend_old {n p r : Nat} {N : Nat → Nat → Prop} (h : p ≤ n) : extend D n N p r ↔ D p r := by
  simp [extend, h]

theorem extend_new {n p r : Nat} {N : Nat → Nat → Prop} (h : n < p) : extend D n N p r ↔ N p r := by
  simp [extend, Nat.not_le.2 h]

theorem grow (h : Cert D code params P o live) (hs : Shape code aims L P o) (hg : Grows code code')
    (hsize : code.size ≤ code'.size) (N : Nat → Nat → Prop) (hN : ∀ p r, N p r → r < 255)
    (hreads : ∀ (p : Nat) (i : Instruction), code.size ≤ p → code'[p]? = some i →
      (∀ q r, .table q r ∈ X → p ≠ q + 1) → ∀ r ∈ i.reads, extend D code.size N p r)
    (hstep : ∀ p q ws, code.size ≤ p → Step code' (X ++ P) p q ws →
      p < q ∧ q ≤ code'.size ∧ (∀ r, N q r → extend D code.size N p r ∨ r ∈ ws) ∧
      (q ≠ p + 1 → ∀ (k : Nat) (i : Instruction), k + 1 = q → code'[k]? = some i →
        i.demand = .free ∨ i.demand = .loadTrue))
    (hX : ∀ x ∈ X, x.Assigned (extend D code.size N))
    (htests : ∀ (q : Nat) (i : Instruction), Pending.Listed X (q + 1) → code'[q]? = some i →
      i.opcode? = some .testSet → i.a = Instruction.noRegister)
    (hrooms : ∀ pc l, .goto pc l ∈ X → code.size ≤ pc ∧ ∀ p ws, ¬ Step code' (X ++ P) p (pc + 1) ws)
    (htargets : ∀ t l, .target t l ∈ X → code.size ≤ t ∧ ∀ pc l', .goto pc l' ∈ X → t ≠ pc + 1)
    (ho : ∀ pc, o' = some pc → (∀ r, extend D code.size N (pc + 1) r → extend D code.size N pc r) ∧
      ∀ p q ws, Step code' (X ++ P) p q ws → q ≤ pc ∨ pc ≤ p ∧ q = p + 1)
    (hlive : ∀ r, live' r → extend D code.size N code'.size r) :
    Cert (extend D code.size N) code' params (X ++ P) o' live' where
  entry r hr := h.entry r ((extend_old (Nat.zero_le _)).1 hr)
  small p r hr := by
    unfold extend at hr
    split at hr
    · exact h.small p r hr
    · exact hN p r hr
  reads p i hi ht r hr := by
    by_cases hp : code.size ≤ p
    · exact hreads p i hp hi (fun q r hx => ht q r (List.mem_append_left _ hx)) r hr
    · refine (extend_old (by omega)).2 (h.reads p i (hg.back (by omega) hi) ?_ r hr)
      exact fun q r hx => ht q r (List.mem_append_right _ hx)
  step p q ws hst r hr := by
    by_cases hp : code.size ≤ p
    · obtain ⟨hpq, -, hd, -⟩ := hstep p q ws hp hst
      exact hd r ((extend_new (by omega)).1 hr)
    · have hst' := hst.old hg (by omega)
      have hq := h.bounded p q ws hst'
      exact (h.step p q ws hst' r ((extend_old hq).1 hr)).imp_left (extend_old (by omega)).2
  bounded p q ws hst := by
    by_cases hp : code.size ≤ p
    · exact (hstep p q ws hp hst).2.1
    · exact Nat.le_trans (h.bounded p q ws (hst.old hg (by omega))) hsize
  enters p q ws hst hne k i hk hi := by
    by_cases hp : code.size ≤ p
    · exact (hstep p q ws hp hst).2.2.2 hne k i hk hi
    · have hst' := hst.old hg (by omega)
      have hq := h.bounded p q ws hst'
      exact h.enters p q ws hst' hne k i hk (hg.back (by omega) hi)
  assigned x hx := by
    rcases List.mem_append.1 hx with hx | hx
    · exact hX x hx
    · exact assigned_congr (h.assigned x hx) (hs.holds x hx) hs.last
        fun p r hp => extend_old hp
  tests q i hl hi hop := by
    obtain ⟨ms, l, hx, hm⟩ := hl
    rcases List.mem_append.1 hx with hx | hx
    · exact htests q i ⟨ms, l, hx, hm⟩ hi hop
    · have hlt := (Chain.isOp (hs.holds _ hx) hm).lt
      exact h.tests q i ⟨ms, l, hx, hm⟩ (hg.back (by omega) hi) hop
  rooms pc l hx := by
    rcases List.mem_append.1 hx with hx | hx
    · obtain ⟨hpc, hno⟩ := hrooms pc l hx
      refine ⟨hno, ?_⟩
      intro t l' ht
      rcases List.mem_append.1 ht with ht | ht
      · exact (htargets t l' ht).2 pc l hx
      · have h₁ := (hs.holds _ ht).1
        have h₂ := hs.last
        omega
    · have hlt := (hs.holds _ hx).2.1.lt
      constructor
      · intro p ws hst
        by_cases hp : code.size ≤ p
        · have := (hstep p _ ws hp hst).1
          omega
        · exact (h.rooms pc l hx).1 p ws (hst.old hg (by omega))
      · intro t l' ht
        rcases List.mem_append.1 ht with ht | ht
        · have := (htargets t l' ht).1
          omega
        · exact (h.rooms pc l hx).2 t l' ht
  straight pc hpc := ho pc hpc
  live := hlive

theorem extend_self {n r : Nat} {N : Nat → Nat → Prop} (h : D n r) : extend D n N n r :=
  (extend_old (Nat.le_refl _)).2 h

theorem push {i : Instruction} (h : Cert D code params P o live) (hs : Shape code aims L P o)
    (hlt : ∀ r, live' r → r < 255) (hreads : ∀ r ∈ i.reads, live r)
    (hflow : code.size ∉ Pending.ownedBy X → ∀ q ws, (q, ws) ∈ i.flow code.size →
      q = code.size + 1 ∧ ∀ r, live' r → live r ∨ r ∈ ws)
    (hX : ∀ x ∈ X, x.Assigned (extend D code.size fun _ => live') ∧
      (∀ pc l, x ≠ .goto pc l) ∧ ∀ t l, x ≠ .target t l)
    (htests : ∀ (q : Nat) (k : Instruction), Pending.Listed X (q + 1) → (code.push i)[q]? = some k →
      k.opcode? ≠ some .testSet)
    (ho : ∀ pc, o' = some pc → o = some pc ∨ pc = code.size ∧ ∀ r, live' r → live r) :
    Cert (extend D code.size fun _ => live') (code.push i) params (X ++ P) o' live' := by
  have hst : ∀ p q ws, code.size ≤ p → Step (code.push i) (X ++ P) p q ws →
      p = code.size ∧ q = code.size + 1 ∧ ∀ r, live' r → live r ∨ r ∈ ws := by
    rintro p q ws hp ⟨k, hk, hown, hq⟩
    obtain ⟨rfl, rfl⟩ := Shape.getElem?_push_cases hp hk
    rw [Pending.ownedBy_append] at hown
    exact ⟨rfl, hflow (fun h => hown (List.mem_append_left _ h)) q ws hq⟩
  refine h.grow hs (grows_push code i) (by simp) _ (fun _ => hlt) ?_ ?_ (fun x hx => (hX x hx).1) ?_
    ?_ ?_ ?_ ?_
  · intro p k hp hk _ r hr
    obtain ⟨rfl, rfl⟩ := Shape.getElem?_push_cases hp hk
    exact extend_self (h.live r (hreads r hr))
  · intro p q ws hp hstep
    obtain ⟨rfl, rfl, hd⟩ := hst p q ws hp hstep
    refine ⟨by omega, by simp, ?_, fun hne => absurd rfl hne⟩
    exact fun r hr => (hd r hr).imp_left fun h' => extend_self (h.live r h')
  · exact fun q k hl hk hop => absurd hop (htests q k hl hk)
  · exact fun pc l hx => absurd rfl ((hX _ hx).2.1 pc l)
  · exact fun t l hx => absurd rfl ((hX _ hx).2.2 t l)
  · intro pc hpc
    rcases ho pc hpc with hpc | ⟨rfl, hl⟩
    · obtain ⟨hd, hst'⟩ := h.straight pc hpc
      have hlt := (hs.reloc pc hpc).op
      obtain ⟨k, -, hk, -⟩ := hlt
      have hlt := (Array.getElem?_eq_some_iff.1 hk).1
      refine ⟨fun r hr => (extend_old (by omega)).2 (hd r ((extend_old (by omega)).1 hr)), ?_⟩
      intro p q ws hstep
      by_cases hp : code.size ≤ p
      · obtain ⟨rfl, rfl, -⟩ := hst p q ws hp hstep
        exact .inr ⟨by omega, rfl⟩
      · exact hst' p q ws (hstep.old (grows_push code i) (by omega))
    · refine ⟨fun r hr => extend_self (h.live r (hl r ((extend_new (by omega)).1 hr))), ?_⟩
      intro p q ws hstep
      by_cases hp : code.size ≤ p
      · obtain ⟨rfl, rfl, -⟩ := hst p q ws hp hstep
        exact .inr ⟨by omega, rfl⟩
      · exact .inl (h.bounded p q ws (hstep.old (grows_push code i) (by omega)))
  · intro r hr
    exact (extend_new (by simp)).2 hr

/-- What is assigned between two new instructions, and after them. -/
def between (n : Nat) (M live : Nat → Prop) (p r : Nat) : Prop := if p = n + 1 then M r else live r

theorem getElem?_push_push {i j : Instruction} {p : Nat} {k : Instruction} (hp : code.size ≤ p)
    (hk : ((code.push i).push j)[p]? = some k) :
    p = code.size ∧ k = i ∨ p = code.size + 1 ∧ k = j := by
  by_cases hp' : p = code.size
  · subst hp'
    rw [Array.getElem?_push, if_neg (by simp)] at hk
    exact .inl (Shape.getElem?_push_cases (Nat.le_refl _) hk)
  · have := Shape.getElem?_push_cases (by simp; omega) hk
    simp only [Array.size_push] at this
    exact .inr this

theorem pushTwo {i j : Instruction} {M : Nat → Prop} (h : Cert D code params P o live)
    (hs : Shape code aims L P o) (hM : ∀ r, M r → r < 255) (hlt : ∀ r, live' r → r < 255)
    (hreads : ∀ r ∈ i.reads, live r)
    (hreads' : (∀ r, .table code.size r ∉ X) → ∀ r ∈ j.reads, M r)
    (hflow : code.size ∉ Pending.ownedBy X → ∀ q ws, (q, ws) ∈ i.flow code.size →
      q = code.size + 1 ∧ (∀ r, M r → live r ∨ r ∈ ws) ∨
      q = code.size + 2 ∧ (∀ r, live' r → live r ∨ r ∈ ws) ∧ j.demand = .free ∧ o' = none)
    (hflow' : code.size + 1 ∉ Pending.ownedBy X → ∀ q ws, (q, ws) ∈ j.flow (code.size + 1) →
      q = code.size + 2 ∧ ∀ r, live' r → M r ∨ r ∈ ws)
    (hX : ∀ x ∈ X, x.Assigned (extend D code.size (between code.size M live')))
    (htests : ∀ (q : Nat) (k : Instruction), Pending.Listed X (q + 1) →
      ((code.push i).push j)[q]? = some k → k.opcode? = some .testSet →
      k.a = Instruction.noRegister)
    (hgotos : ∀ pc l, .goto pc l ∈ X → pc = code.size)
    (htargets : ∀ t l, .target t l ∈ X → code.size ≤ t ∧ ∀ pc l', .goto pc l' ∉ X)
    (ho : ∀ pc, o' = some pc → pc = code.size ∧ ∀ r, M r → live r) :
    Cert (extend D code.size (between code.size M live')) ((code.push i).push j) params (X ++ P) o'
      live' := by
  have hmid : ∀ r, extend D code.size (between code.size M live') (code.size + 1) r ↔ M r := by
    intro r
    rw [extend_new (by omega)]
    simp [between]
  have hend : ∀ r, extend D code.size (between code.size M live') (code.size + 2) r ↔ live' r := by
    intro r
    rw [extend_new (by omega)]
    simp [between]
  have hst : ∀ p q ws, code.size ≤ p → Step ((code.push i).push j) (X ++ P) p q ws →
      p = code.size ∧ code.size ∉ Pending.ownedBy X ∧ (q, ws) ∈ i.flow code.size ∨
      p = code.size + 1 ∧ code.size + 1 ∉ Pending.ownedBy X ∧ (q, ws) ∈ j.flow (code.size + 1) := by
    rintro p q ws hp ⟨k, hk, hown, hq⟩
    rw [Pending.ownedBy_append] at hown
    have hown' : p ∉ Pending.ownedBy X := fun h => hown (List.mem_append_left _ h)
    rcases getElem?_push_push hp hk with ⟨rfl, rfl⟩ | ⟨rfl, rfl⟩
    · exact .inl ⟨rfl, hown', hq⟩
    · exact .inr ⟨rfl, hown', hq⟩
  have hg : Grows code ((code.push i).push j) := (grows_push code i).trans (grows_push _ j)
  refine h.grow hs hg (by simp; omega) _ ?_ ?_ ?_ hX htests ?_ ?_ ?_ ?_
  · intro p r hr
    unfold between at hr
    split at hr
    · exact hM r hr
    · exact hlt r hr
  · intro p k hp hk ht r hr
    rcases getElem?_push_push hp hk with ⟨rfl, rfl⟩ | ⟨rfl, rfl⟩
    · exact extend_self (h.live r (hreads r hr))
    · exact (hmid r).2 (hreads' (fun r hx => ht _ r hx rfl) r hr)
  · intro p q ws hp hstep
    rcases hst p q ws hp hstep with ⟨rfl, hown, hq⟩ | ⟨rfl, hown, hq⟩
    · rcases hflow hown q ws hq with ⟨rfl, hd⟩ | ⟨rfl, hd, hfree, -⟩
      · refine ⟨by omega, by simp, ?_, fun hne => absurd rfl hne⟩
        intro r hr
        have hr : M r := by simpa [between] using hr
        exact (hd r hr).imp_left fun h' => extend_self (h.live r h')
      · refine ⟨by omega, by simp, ?_, ?_⟩
        · intro r hr
          have hr : live' r := by simpa [between] using hr
          exact (hd r hr).imp_left fun h' => extend_self (h.live r h')
        · intro _ k l hk hl
          obtain rfl : k = code.size + 1 := by omega
          rcases getElem?_push_push (by omega) hl with ⟨h', -⟩ | ⟨-, rfl⟩
          · omega
          · exact .inl hfree
    · obtain ⟨rfl, hd⟩ := hflow' hown q ws hq
      refine ⟨by omega, by simp, ?_, fun hne => absurd rfl hne⟩
      intro r hr
      have hr : live' r := by simpa [between] using hr
      exact (hd r hr).imp_left (hmid r).2
  · intro pc l hx
    obtain rfl := hgotos pc l hx
    refine ⟨Nat.le_refl _, ?_⟩
    intro p ws hstep
    by_cases hp : code.size ≤ p
    · rcases hst p _ ws hp hstep with ⟨rfl, hown, -⟩ | ⟨rfl, hown, hq⟩
      · exact hown (List.mem_flatMap.2 ⟨_, hx, by simp [Pending.owned]⟩)
      · have := (hflow' hown _ ws hq).1
        omega
    · have := h.bounded p _ ws (hstep.old hg (by omega))
      omega
  · intro t l hx
    exact ⟨(htargets t l hx).1, fun pc l' hg => absurd hg ((htargets t l hx).2 pc l')⟩
  · intro pc hpc
    obtain ⟨rfl, hl⟩ := ho pc hpc
    refine ⟨fun r hr => extend_self (h.live r (hl r ((hmid r).1 hr))), ?_⟩
    intro p q ws hstep
    by_cases hp : code.size ≤ p
    · rcases hst p q ws hp hstep with ⟨rfl, hown, hq⟩ | ⟨rfl, hown, hq⟩
      · rcases hflow hown q ws hq with ⟨rfl, -⟩ | ⟨-, -, -, hnone⟩
        · exact .inr ⟨by omega, rfl⟩
        · rw [hnone] at hpc
          cases hpc
      · obtain ⟨rfl, -⟩ := hflow' hown q ws hq
        exact .inr ⟨by omega, rfl⟩
    · exact .inl (h.bounded p q ws (hstep.old hg (by omega)))
  · intro r hr
    rw [show ((code.push i).push j).size = code.size + 2 by simp]
    exact (hend r).2 hr

theorem restrict {K : Nat → Prop} (h : Cert D code params P none live)
    (hs : Shape code aims L P none) (hK : ∀ r, K r → live r) :
    Cert (fun p r => D p r ∧ (p = code.size → K r)) code params P none K where
  entry r hr := h.entry r hr.1
  small p r hr := h.small p r hr.1
  reads p i hi ht r hr := by
    have := (Array.getElem?_eq_some_iff.1 hi).1
    exact ⟨h.reads p i hi ht r hr, by omega⟩
  step p q ws hst r hr := by
    have := hst.lt
    exact (h.step p q ws hst r hr.1).imp_left fun h => ⟨h, by omega⟩
  bounded := h.bounded
  enters := h.enters
  assigned x hx := by
    have hh := hs.holds x hx
    have ha := h.assigned x hx
    cases x with
    | list ms l =>
      intro m hm r hr
      have := (Chain.isOp hh hm).lt
      exact ⟨ha m hm r hr, by omega⟩
    | goto pc l =>
      intro r hr
      have := hh.1.1.lt
      exact ⟨ha r hr, by omega⟩
    | target t l => exact fun r hr => ha r hr.1
    | table pc reg =>
      intro r hr
      have := hh.1.lt
      exact (ha r hr.1).imp_left fun h => ⟨h, by omega⟩
    | loop pc base l g =>
      obtain ⟨i, hi, -⟩ := hh
      have := (Array.getElem?_eq_some_iff.1 hi).1
      exact ⟨fun r hr => ha.1 r hr.1, fun r hr => ⟨ha.2 r hr, by omega⟩⟩
  tests := h.tests
  rooms := h.rooms
  straight := by simp
  live r hr := ⟨h.live r (hK r hr), fun _ => hr⟩

theorem mark {l : Nat} (h : Cert D code params P none live) (hs : Shape code aims L P none)
    (hl : ∀ r < l, live r) :
    Cert (fun p r => D p r ∧ (p = code.size → r < l)) code params (.target code.size l :: P) none
      (· < l) := by
  have hr := h.restrict hs (K := (· < l)) hl
  refine { hr with reads := ?_, assigned := ?_, tests := ?_, rooms := ?_ }
  · intro p i hi ht
    exact hr.reads p i hi fun q r hx => ht q r (List.mem_cons_of_mem _ hx)
  · intro x hx
    rcases List.mem_cons.1 hx with rfl | hx
    · exact fun r hr => hr.2 rfl
    · exact hr.assigned x hx
  · rintro q i ⟨ms, l', hx, hm⟩
    exact hr.tests q i ⟨ms, l', by simpa using hx, hm⟩
  · intro pc l' hx
    have hx : .goto pc l' ∈ P := by simpa using hx
    refine ⟨(hr.rooms pc l' hx).1, ?_⟩
    intro t lt ht
    rcases List.mem_cons.1 ht with ht | ht
    · cases ht
      have := (hs.holds _ hx).2.1.lt
      omega
    · exact (hr.rooms pc l' hx).2 t lt ht

end Cert

end LuaChunk
