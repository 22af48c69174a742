import LuaChunk.Proofs.Code.Shape

set_option autoImplicit false

namespace LuaChunk

open JumpList (Code IsOp Chain)

theorem Pending.mem_ownedBy {P : List Pending} {x : Pending} {p : Nat} (hx : x ∈ P)
    (hp : p ∈ x.owned) : p ∈ ownedBy P :=
  List.mem_flatMap.2 ⟨x, hx, hp⟩

namespace Relocatable

variable {code code' : Code} {L pc : Nat}

theorem isOp (h : Relocatable code L pc) {q : Nat} {op : Opcode} (hq : pc ≤ q)
    (ho : IsOp code q op) : op.isPlain = true ∨ op.isRelocatable = true := by
  rcases Nat.lt_or_eq_of_le hq with hq | rfl
  · obtain ⟨op', ho', hp, -⟩ := h.after q hq ho.lt
    cases ho.unique ho'
    exact .inl hp
  · obtain ⟨i, op', hi, hop, hr, -⟩ := h.op
    cases ho.unique ⟨i, hi, hop⟩
    exact .inr hr

theorem congr (h : Relocatable code L pc) (hs : code'.size = code.size)
    (hc : ∀ q, pc ≤ q → code'[q]? = code[q]?) : Relocatable code' L pc := by
  refine ⟨?_, h.last, ?_⟩
  · obtain ⟨i, op, hi, hrest⟩ := h.op
    exact ⟨i, op, (hc pc (Nat.le_refl _)).trans hi, hrest⟩
  · intro q hq hlt
    obtain ⟨op, ho, hp⟩ := h.after q hq (by omega)
    exact ⟨op, ho.congr (hc q (Nat.le_of_lt hq)), hp⟩

end Relocatable

namespace Shape

variable {code code' : Code} {aims aims' : List (Nat × Nat)} {L : Nat} {P Q : List Pending}
  {o o' : Option Nat}

theorem disjoint {x : Pending} (h : Shape code aims L (x :: Q) o) {y : Pending} (hy : y ∈ Q)
    {p : Nat} (hp : p ∈ x.owned) : p ∉ y.owned := by
  have hn := h.nodup
  rw [Pending.ownedBy_cons] at hn
  intro hp'
  exact (List.nodup_append.1 hn).2.2 p hp p (Pending.mem_ownedBy hy hp') rfl

theorem owned_op (h : Shape code aims L P o) {p : Nat} (hp : p ∈ Pending.ownedBy P) :
    ∃ op : Opcode, IsOp code p op ∧ (op.IsAimed ∨ op = .newTable) := by
  obtain ⟨x, hx, hp⟩ := List.mem_flatMap.1 hp
  have hh := h.holds x hx
  cases x with
  | list ms level => exact ⟨.jmp, Chain.isOp hh hp, .inl (.inl rfl)⟩
  | goto pc level =>
    cases List.mem_singleton.1 hp
    exact ⟨.jmp, hh.1.1, .inl (.inl rfl)⟩
  | target t level => cases hp
  | table pc reg =>
    cases List.mem_singleton.1 hp
    exact ⟨.newTable, hh.1, .inr rfl⟩
  | loop pc base level g =>
    obtain ⟨i, hi, -, hop⟩ := hh
    cases List.mem_singleton.1 hp
    refine ⟨_, ⟨i, hi, hop⟩, .inl ?_⟩
    cases g
    · exact .inr (.inl rfl)
    · exact .inr (.inr rfl)

theorem not_owned (h : Shape code aims L P o) {p : Nat} {op : Opcode} (ho : IsOp code p op)
    (hne : ¬ op.IsAimed ∧ op ≠ .newTable) : p ∉ Pending.ownedBy P := by
  intro hp
  obtain ⟨op', ho', hcase⟩ := h.owned_op hp
  cases ho.unique ho'
  rcases hcase with hc | hc
  · exact hne.1 hc
  · exact hne.2 hc

theorem editable_not_owned (h : Shape code aims L P o) {p : Nat} {op : Opcode}
    (ho : IsOp code p op) (he : op.isEditable = true) : p ∉ Pending.ownedBy P := by
  apply h.not_owned ho
  constructor
  · rintro (rfl | rfl | rfl) <;> cases he
  · rintro rfl
    cases he

theorem edit (h : Shape code aims L P o) (hs : code'.size = code.size)
    (hc : ∀ (p : Nat) (i i' : Instruction), code[p]? = some i → code'[p]? = some i' →
      i' = i ∨ Alike i i')
    (ho : ∀ pc, o' = some pc → Relocatable code' L pc) : Shape code' aims L P o' := by
  have hu : Updated P code code' :=
    ⟨hs, fun p i i' hi hi' => (hc p i i' hi hi').imp_right .inl⟩
  have hsame : ∀ p ∈ Pending.ownedBy P, code'[p]? = code[p]? := by
    intro p hp
    obtain ⟨op, ⟨i, hi, hop⟩, hcase⟩ := h.owned_op hp
    obtain ⟨i', hi', -⟩ := hu.exists_new hi
    rcases hc p i i' hi hi' with rfl | ⟨⟨o₁, o₂, ho₁, -, hed, -⟩, -⟩
    · rw [hi, hi']
    · exact absurd hp (h.editable_not_owned ⟨i, hi, ho₁⟩ hed)
  refine h.update hu (fun _ h => h) (fun _ _ h => h) ?_ (fun _ h _ => h) ?_ h.nodup ho
  · intro p i hp _ _
    exact .inl hp
  · intro x hx
    exact hu.holds (h.holds x hx) fun p hp => hsame p (Pending.mem_ownedBy hx hp)

theorem editAt (h : Shape code aims L P o) {p : Nat} {i : Instruction} (hi : code[p]? = some i)
    {f : Instruction → Instruction} (ha : Alike i (f i))
    (ho : ∀ pc, o' = some pc → Relocatable (code.modify p f) L pc) :
    Shape (code.modify p f) aims L P o' := by
  refine h.edit (by simp) ?_ ho
  intro q j j' hj hj'
  by_cases hq : p = q
  · subst hq
    rw [JumpList.getElem?_modify_self hi f] at hj'
    rw [hi] at hj
    cases hj
    cases hj'
    exact .inr ha
  · rw [JumpList.getElem?_modify_ne hq, hj] at hj'
    cases hj'
    exact .inl rfl

theorem join {ms ms' : List Nat} {l₁ l₂ l : Nat}
    (h : Shape code aims L (.list ms l₁ :: .list ms' l₂ :: Q) o)
    (hj : JumpList.Joined code code' (ms ++ ms')) :
    Shape code' aims L (.list (ms ++ ms') l :: Q) o := by
  have hown : Pending.ownedBy (.list ms l₁ :: .list ms' l₂ :: Q)
      = Pending.ownedBy (.list (ms ++ ms') l :: Q) := by
    simp [Pending.ownedBy_cons, Pending.owned]
  have hops : ∀ p ∈ ms ++ ms', IsOp code p .jmp := by
    intro p hp
    rcases List.mem_append.1 hp with hp | hp
    · exact Chain.isOp (h.holds _ (List.mem_cons_self ..)) hp
    · exact Chain.isOp (h.holds _ (List.mem_cons_of_mem _ (List.mem_cons_self ..))) hp
  have hu : Updated (.list ms l₁ :: .list ms' l₂ :: Q) code code' := by
    refine ⟨hj.size, ?_⟩
    intro p i i' hi hi'
    by_cases hp : p ∈ ms ++ ms'
    · obtain ⟨k, hk, hop⟩ := hops p hp
      rw [hi] at hk
      cases hk
      right
      right
      refine ⟨.jmp, .inl rfl, hop, ?_, ?_⟩
      · obtain ⟨v, hv | hv⟩ := hj.jump p i hp hi
        · cases hi'.symm.trans hv
          simpa using hop
        · cases hi'.symm.trans hv
          exact hop
      · rw [hown, Pending.ownedBy_cons]
        exact List.mem_append_left _ hp
    · rw [hj.same p hp, hi] at hi'
      cases hi'
      exact .inl rfl
  refine h.update hu (fun _ h => h) ?_ ?_ ?_ ?_ (hown ▸ h.nodup) ?_
  · intro p r hr
    simpa using hr
  · intro p i hp _ _
    exact .inl (hown ▸ hp)
  · intro p hp _
    exact hown ▸ hp
  · intro x hx
    rcases List.mem_cons.1 hx with rfl | hx
    · exact hj.chain
    · refine hu.holds (h.holds x (by simp [hx])) ?_
      intro p hp
      apply hj.same
      intro hp'
      have hn := h.nodup
      rw [hown, Pending.ownedBy_cons] at hn
      exact (List.nodup_append.1 hn).2.2 p hp' p (Pending.mem_ownedBy hx hp) rfl
  · intro pc hpc
    have hr := h.reloc pc hpc
    refine hr.congr hj.size ?_
    intro q hq
    apply hj.same
    intro hq'
    rcases hr.isOp hq (hops q hq') with h | h <;> cases h

theorem redirected_alike {i : Instruction} (h : i.opcode? = some .testSet) (reg : Option Nat) :
    Alike i (JumpList.redirected i reg) := by
  have hplain : ∀ b k, Alike i (Opcode.test.abck b 0 0 k) := by
    intro b k
    have ho : (Opcode.test.abck b 0 0 k).opcode? = some .test := by
      simp [Instruction.opcode?]
    refine ⟨⟨_, _, h, ho, rfl, rfl, by simp⟩, ?_⟩
    rw [Instruction.demand_eq h, Instruction.demand_eq ho]
    rfl
  unfold JumpList.redirected
  cases reg with
  | none => exact hplain _ _
  | some r =>
    simp only
    split
    · exact hplain _ _
    · have ho : (i.setA r).opcode? = some .testSet := by
        rw [Instruction.setA, Instruction.opcode?_set i _ (by decide), h]
      refine ⟨⟨_, _, h, ho, rfl, rfl, by simp⟩, ?_⟩
      rw [Instruction.demand_eq h, Instruction.demand_eq ho]
      rfl

theorem retest {ms : List Nat} {reg : Option Nat} (h : Shape code aims L P o)
    (hr : JumpList.Retested code code' ms reg) : Shape code' aims L P o := by
  refine h.edit hr.size ?_ ?_
  · intro p i i' hi hi'
    by_cases hp : p + 1 ∈ ms ∧ i.opcode? = some .testSet
    · rw [hr.test p i hp.1 hi hp.2] at hi'
      cases hi'
      exact .inr (redirected_alike hp.2 reg)
    · rw [hr.same p, hi] at hi'
      · cases hi'
        exact .inl rfl
      · rintro hm ⟨k, hk, hop⟩
        rw [hi] at hk
        cases hk
        exact hp ⟨hm, hop⟩
  · intro pc hpc
    have hrel := h.reloc pc hpc
    refine hrel.congr hr.size ?_
    intro q hq
    apply hr.same
    intro _ ht
    rcases hrel.isOp hq ht with h | h <;> cases h

theorem aim {ms : List Nat} {l vt : Nat} {reg plain : Option Nat} {new : List (Nat × Nat)}
    (h : Shape code aims L (.list ms l :: Q) none)
    (ha : JumpList.Aimed code code' ms vt reg plain new)
    (hv : (∃ q, q + 1 ∈ ms ∧ IsOp code q .testSet) → Enterable code L vt)
    (hp : ∀ t, plain = some t → Enterable code L t) :
    Shape code' (new ++ aims) L Q none := by
  have hops : ∀ p ∈ ms, IsOp code p .jmp :=
    fun p hp => Chain.isOp (h.holds _ (List.mem_cons_self ..)) hp
  have hown : ∀ p, p ∈ Pending.ownedBy (.list ms l :: Q) ↔ p ∈ ms ∨ p ∈ Pending.ownedBy Q := by
    intro p
    simp [Pending.ownedBy_cons, Pending.owned]
  have hu : Updated (.list ms l :: Q) code code' := by
    refine ⟨ha.size, ?_⟩
    intro p i i' hi hi'
    by_cases hm : p ∈ ms
    · obtain ⟨k, hk, hop⟩ := hops p hm
      rw [hi] at hk
      cases hk
      obtain ⟨t, -, ht, -⟩ := ha.jump p i hm hi
      cases hi'.symm.trans ht
      exact .inr (.inr ⟨.jmp, .inl rfl, hop, by simpa using hop, (hown p).2 (.inl hm)⟩)
    · by_cases hs : p + 1 ∈ ms ∧ i.opcode? = some .testSet
      · rw [ha.test p i hs.1 hi hs.2] at hi'
        cases hi'
        exact .inr (.inl (redirected_alike hs.2 reg))
      · rw [ha.same p hm, hi] at hi'
        · cases hi'
          exact .inl rfl
        · rintro hm' ⟨k, hk, hop⟩
          rw [hi] at hk
          cases hk
          exact hs ⟨hm', hop⟩
  refine h.update hu (fun _ h => List.mem_append_right _ h) ?_ ?_ ?_ ?_ ?_ (by simp)
  · intro p r hr
    simpa using hr
  · intro p i' hpo hi' hop
    rcases (hown p).1 hpo with hm | hm
    · right
      obtain ⟨i, hi, -⟩ := hops p hm
      obtain ⟨t, hmem, hcode, hsj, hval, hpl⟩ := ha.jump p i hm hi
      cases hi'.symm.trans hcode
      refine ⟨t, List.mem_append_left _ hmem, hsj, ?_⟩
      by_cases hs : ∃ q, p = q + 1 ∧ IsOp code q .testSet
      · rw [hval hs]
        obtain ⟨q, rfl, hq⟩ := hs
        exact hv ⟨q, hm, hq⟩
      · exact hp t (hpl fun q hq ht => hs ⟨q, hq, ht⟩)
    · exact .inl hm
  · intro p hpo hop
    rcases (hown p).1 hpo with hm | hm
    · obtain ⟨i, hi, hj⟩ := hops p hm
      rcases hop with hop | hop
      · cases (hops p hm).unique (hu.isOp_back hop rfl)
      · cases (hops p hm).unique (hu.isOp_back hop rfl)
    · exact hm
  · intro x hx
    refine hu.holds (h.holds x (List.mem_cons_of_mem _ hx)) ?_
    intro p hpx
    have hm : p ∉ ms := fun hm => h.disjoint hx (x := .list ms l) hm hpx
    apply ha.same p hm
    intro _ ht
    exact h.editable_not_owned ht rfl ((hown p).2 (.inr (Pending.mem_ownedBy hx hpx)))
  · have hn := h.nodup
    rw [Pending.ownedBy_cons] at hn
    exact (List.nodup_append.1 hn).2.1

theorem pop {pc : Nat} (h : Shape code aims L P (some pc)) (hpc : pc + 1 = code.size)
    (hop : IsOp code pc .not) : Shape code.pop aims L P none := by
  have hlast := (h.reloc pc rfl).last
  have hlt : ∀ (p : Nat) (i : Instruction), code.pop[p]? = some i → p < pc ∧ code[p]? = some i := by
    intro p i hi
    rw [Array.getElem?_pop] at hi
    split at hi
    · exact ⟨by omega, hi⟩
    · cases hi
  have hget : ∀ p, p < pc → code.pop[p]? = code[p]? := by
    intro p hp
    rw [Array.getElem?_pop, if_pos (by omega)]
  have hne : ∀ (p : Nat) (op : Opcode), op ≠ .not → IsOp code p op → IsOp code.pop p op := by
    intro p op hn ho
    have : p ≠ pc := by
      rintro rfl
      exact hn (ho.unique hop)
    have := ho.lt
    exact ho.congr (hget p (by omega))
  have hsame : ∀ (p : Nat) (op : Opcode) (i : Instruction), op ≠ .not → code[p]? = some i →
      i.opcode? = some op → code.pop[p]? = some i := by
    intro p op i hn hi ho
    obtain ⟨j, hj, -⟩ := hne p op hn ⟨i, hi, ho⟩
    rw [hj, ← (hlt p j hj).2, hi]
  have hchain : ∀ ms, Chain code ms → Chain code.pop ms := by
    intro ms hc
    apply hc.congr
    intro m hm
    obtain ⟨i, hi, ho⟩ := hc.isOp hm
    rw [hi, hsame m _ i (by decide) hi ho]
  have henter : ∀ t, Enterable code L t → Enterable code.pop L t := by
    intro t ht
    exact ⟨ht.1, fun q i hq hi => ht.2 q i hq (hlt q i hi).2⟩
  refine ⟨?_, ?_, ?_, ?_, ?_, ?_, h.nodup, ?_, by simp⟩
  · rintro ⟨i, hi, ho⟩
    exact h.first ⟨i, (hlt 0 i hi).2, ho⟩
  · intro p i hi ht
    obtain ⟨hp, hi⟩ := hlt p i hi
    have hn := h.next p i hi ht
    by_cases hp' : p + 1 < pc
    · rw [hget _ hp']
      exact hn
    · rw [Array.getElem?_eq_none (by simp; omega)]
      obtain ⟨j, hj, hopj⟩ := hop
      rw [show p + 1 = pc by omega, hj] at hn
      -- nothing asks for a negation
      cases hd : i.demand with
      | free => rfl
      | jump => rw [hd, Demand.MetBy, Demand.Met, hopj] at hn; cases hn
      | loadTrue => rw [hd, Demand.MetBy, Demand.Met, hopj] at hn; cases hn
      | extra => rw [hd, Demand.MetBy, Demand.Met, hopj] at hn; cases hn
      | fallback f a =>
        rw [hd, Demand.MetBy, Demand.Met, hopj] at hn
        cases hn.1
        rcases Instruction.demand_fallback hd with h | h | h <;> cases h
  · intro p i hi ho
    obtain ⟨hp, hi⟩ := hlt p i hi
    rcases h.jumps p i hi ho with hp | ⟨t, ht, hsj, he⟩
    · exact .inl hp
    · exact .inr ⟨t, ht, hsj, henter t he⟩
  · rintro p ⟨i, hi, ho⟩
    obtain ⟨hp, hi⟩ := hlt p i hi
    refine (h.numeric p ⟨i, hi, ho⟩).imp_right ?_
    rintro ⟨k, j, hk, hj, hopj, hrest⟩
    exact ⟨k, j, (hget p hp).trans hk, hsame _ _ j (by decide) hj hopj, hopj, hrest⟩
  · rintro p ⟨i, hi, ho⟩
    obtain ⟨hp, hi⟩ := hlt p i hi
    refine (h.generic p ⟨i, hi, ho⟩).imp_right ?_
    rintro ⟨k, c, j, hk, hc, hopc, ha, hj, hopj, hrest⟩
    exact ⟨k, c, j, (hget p hp).trans hk, hsame _ _ c (by decide) hc hopc, hopc, ha,
      hsame _ _ j (by decide) hj hopj, hopj, hrest⟩
  · intro x hx
    have hh := h.holds x hx
    cases x with
    | list ms level => exact hchain ms hh
    | goto pc' level =>
      exact ⟨hchain _ hh.1, hne _ _ (by decide) hh.2.1,
        fun q i hq hi => hh.2.2 q i hq (hlt q i hi).2⟩
    | target t level => exact henter t hh
    | table pc' reg => exact ⟨hne _ _ (by decide) hh.1, hne _ _ (by decide) hh.2⟩
    | loop pc' base level g =>
      obtain ⟨i, hi, ha, ho⟩ := hh
      exact ⟨i, hsame _ _ i (by cases g <;> decide) hi ho, ha, ho⟩
  · simp
    omega

theorem fillTable {pc reg : Nat} {i j : Instruction}
    (h : Shape code aims L (.table pc reg :: Q) none)
    (hi : i.opcode? = some .newTable) (hj : j.opcode? = some .extraArg)
    (hs : code'.size = code.size) (hci : code'[pc]? = some i) (hcj : code'[pc + 1]? = some j)
    (hc : ∀ p, p ≠ pc → p ≠ pc + 1 → code'[p]? = code[p]?) : Shape code' aims L Q none := by
  obtain ⟨⟨t, ht, hopt⟩, ⟨u, hu, hopu⟩⟩ := h.holds _ (List.mem_cons_self ..)
  -- all other instructions are as they were
  have hold : ∀ (p : Nat) (k : Instruction), code'[p]? = some k →
      k.opcode? ≠ some .newTable → k.opcode? ≠ some .extraArg → code[p]? = some k := by
    intro p k hk h₁ h₂
    by_cases hp : p = pc
    · subst hp
      rw [hci] at hk
      cases hk
      exact absurd hi h₁
    · by_cases hp' : p = pc + 1
      · subst hp'
        rw [hcj] at hk
        cases hk
        exact absurd hj h₂
      · exact (hc p hp hp').symm.trans hk
  have hsame : ∀ (p : Nat) (op : Opcode) (k : Instruction), code[p]? = some k →
      k.opcode? = some op → op ≠ .newTable → op ≠ .move → code'[p]? = some k := by
    intro p op k hk ho h₁ h₂
    have hp : p ≠ pc := by
      rintro rfl
      rw [ht] at hk
      cases hk
      exact h₁ (Option.some.inj (ho.symm.trans hopt))
    have hp' : p ≠ pc + 1 := by
      rintro rfl
      rw [hu] at hk
      cases hk
      exact h₂ (Option.some.inj (ho.symm.trans hopu))
    exact (hc p hp hp').trans hk
  have hdemand : ∀ (p : Nat) (k : Instruction), code'[p]? = some k →
      ∃ k₀, code[p]? = some k₀ ∧ k.demand = k₀.demand := by
    intro p k hk
    by_cases hp : p = pc
    · subst hp
      rw [hci] at hk
      cases hk
      exact ⟨t, ht, by rw [Instruction.demand_eq hi, Instruction.demand_eq hopt]; rfl⟩
    · by_cases hp' : p = pc + 1
      · subst hp'
        rw [hcj] at hk
        cases hk
        exact ⟨u, hu, by rw [Instruction.demand_eq hj, Instruction.demand_eq hopu]; rfl⟩
      · exact ⟨k, (hc p hp hp').symm.trans hk, rfl⟩
  have henter : ∀ t, Enterable code L t → Enterable code' L t := by
    intro t ht
    refine ⟨ht.1, ?_⟩
    intro q k hq hk
    obtain ⟨k₀, hk₀, hd⟩ := hdemand q k hk
    rw [hd]
    exact ht.2 q k₀ hq hk₀
  have hown : ∀ p, p ∈ Pending.ownedBy (.table pc reg :: Q) ↔ p = pc ∨ p ∈ Pending.ownedBy Q := by
    intro p
    simp [Pending.ownedBy_cons, Pending.owned]
  have hnot : ∀ p (op : Opcode), p ∈ Pending.ownedBy (.table pc reg :: Q) → IsOp code p op →
      op ≠ .newTable → p ∈ Pending.ownedBy Q := by
    intro p op hp ho hne
    rcases (hown p).1 hp with rfl | hp
    · exact absurd (ho.unique ⟨t, ht, hopt⟩) hne
    · exact hp
  have htable : ∀ p r, .table p r ∈ Q → p ≠ pc ∧ p ≠ pc + 1 ∧ p + 1 ≠ pc := by
    intro p r hr
    have hh := h.holds _ (List.mem_cons_of_mem _ hr)
    refine ⟨?_, ?_, ?_⟩
    · rintro rfl
      exact h.disjoint hr (x := .table p reg) (p := p) (by simp [Pending.owned])
        (by simp [Pending.owned])
    · rintro rfl
      cases hh.1.unique ⟨u, hu, hopu⟩
    · rintro rfl
      cases hh.2.unique ⟨t, ht, hopt⟩
  refine ⟨?_, ?_, ?_, ?_, ?_, ?_, ?_, hs ▸ h.last, by simp⟩
  · rintro ⟨k, hk, ho⟩
    by_cases hp : 0 = pc
    · rw [hp, hci] at hk
      cases hk
      rw [ho] at hi
      cases hi
    · rw [hc 0 hp (by omega)] at hk
      exact h.first ⟨k, hk, ho⟩
  · intro p k hk hq
    by_cases hp : p = pc
    · subst hp
      rw [hci] at hk
      cases hk
      rw [hcj, Instruction.demand_eq hi]
      exact hj
    · obtain ⟨k₀, hk₀, hd⟩ := hdemand p k hk
      have hn := h.next p k₀ hk₀ (by
        intro r hr
        rcases List.mem_cons.1 hr with hr | hr
        · injection hr with h₁ _
          exact hp h₁
        · exact hq r hr)
      rw [hd]
      by_cases hp₁ : p + 1 = pc
      · rw [hp₁, ht] at hn
        rw [hp₁, hci]
        cases hd₀ : k₀.demand with
        | free => simp [Demand.MetBy, Demand.Met, hi]
        | jump => rw [hd₀, Demand.MetBy, Demand.Met, hopt] at hn; cases hn
        | loadTrue => rw [hd₀, Demand.MetBy, Demand.Met, hopt] at hn; cases hn
        | extra => rw [hd₀, Demand.MetBy, Demand.Met, hopt] at hn; cases hn
        | fallback f a =>
          rw [hd₀, Demand.MetBy, Demand.Met, hopt] at hn
          cases hn.1
          rcases Instruction.demand_fallback hd₀ with h | h | h <;> cases h
      · rw [hc (p + 1) hp₁ (by omega)]
        exact hn
  · intro p k hk ho
    have hk₀ := hold p k hk (by simp [ho]) (by simp [ho])
    rcases h.jumps p k hk₀ ho with hp | ⟨t, ht, hsj, he⟩
    · exact .inl (hnot p _ hp ⟨k, hk₀, ho⟩ (by decide))
    · exact .inr ⟨t, ht, hsj, henter t he⟩
  · rintro p ⟨k, hk, ho⟩
    have hk₀ := hold p k hk (by simp [ho]) (by simp [ho])
    rcases h.numeric p ⟨k, hk₀, ho⟩ with hp | ⟨i₁, j₁, h₁, h₂, hop₂, hrest⟩
    · exact .inl (hnot p _ hp ⟨k, hk₀, ho⟩ (by decide))
    · rw [hk₀] at h₁
      cases h₁
      exact .inr ⟨k, j₁, hk, hsame _ _ j₁ h₂ hop₂ (by decide) (by decide), hop₂, hrest⟩
  · rintro p ⟨k, hk, ho⟩
    have hk₀ := hold p k hk (by simp [ho]) (by simp [ho])
    rcases h.generic p ⟨k, hk₀, ho⟩ with hp | ⟨i₁, c₁, j₁, h₁, h₂, hop₂, ha, h₃, hop₃, hrest⟩
    · exact .inl (hnot p _ hp ⟨k, hk₀, ho⟩ (by decide))
    · rw [hk₀] at h₁
      cases h₁
      exact .inr ⟨k, c₁, j₁, hk, hsame _ _ c₁ h₂ hop₂ (by decide) (by decide), hop₂, ha,
        hsame _ _ j₁ h₃ hop₃ (by decide) (by decide), hop₃, hrest⟩
  · intro x hx
    have hh := h.holds x (List.mem_cons_of_mem _ hx)
    have hchain : ∀ ms, Chain code ms → Chain code' ms := by
      intro ms hch
      apply hch.congr
      intro m hm
      obtain ⟨k, hk, ho⟩ := hch.isOp hm
      rw [hk, hsame m _ k hk ho (by decide) (by decide)]
    have hisOp : ∀ (p : Nat) (op : Opcode), IsOp code p op → op ≠ .newTable → op ≠ .move →
        IsOp code' p op := by
      rintro p op ⟨k, hk, ho⟩ h₁ h₂
      exact ⟨k, hsame p op k hk ho h₁ h₂, ho⟩
    cases x with
    | list ms level => exact hchain ms hh
    | goto pc' level =>
      refine ⟨hchain _ hh.1, hisOp _ _ hh.2.1 (by decide) (by decide), ?_⟩
      intro q k hq hk
      obtain ⟨k₀, hk₀, hd⟩ := hdemand q k hk
      rw [hd]
      exact hh.2.2 q k₀ hq hk₀
    | target t level => exact henter t hh
    | table pc' reg' =>
      obtain ⟨h₁, h₂, h₃⟩ := htable pc' reg' hx
      exact ⟨hh.1.congr (hc _ h₁ h₂), hh.2.congr (hc _ h₃ (by omega))⟩
    | loop pc' base level g =>
      obtain ⟨k, hk, ha, ho⟩ := hh
      exact ⟨k, hsame _ _ k hk ho (by cases g <;> decide) (by cases g <;> decide), ha, ho⟩
  · have hn := h.nodup
    rw [Pending.ownedBy_cons] at hn
    exact (List.nodup_append.1 hn).2.1

/-- The jump of a goto moves into the room after it, and an instruction that closes variables takes
its place. -/
theorem splice {pc l l' : Nat} {i j : Instruction} (h : Shape code aims L (.goto pc l :: Q) none)
    (hi : i.opcode? = some .close) (hj : code[pc]? = some j)
    (hs : code'.size = code.size) (hci : code'[pc]? = some i) (hcj : code'[pc + 1]? = some j)
    (hc : ∀ p, p ≠ pc → p ≠ pc + 1 → code'[p]? = code[p]?) :
    Shape code' aims L (.list [pc + 1] l' :: Q) none := by
  obtain ⟨⟨⟨j', hj', hopj⟩, hnext, -⟩, ⟨u, hu, hopu⟩, hbefore⟩ := h.holds _ (List.mem_cons_self ..)
  cases hj.symm.trans hj'
  have hold : ∀ (p : Nat) (k : Instruction), code'[p]? = some k →
      k.opcode? ≠ some .jmp → k.opcode? ≠ some .close → code[p]? = some k := by
    intro p k hk h₁ h₂
    by_cases hp : p = pc
    · subst hp
      rw [hci] at hk
      cases hk
      exact absurd hi h₂
    · by_cases hp' : p = pc + 1
      · subst hp'
        rw [hcj] at hk
        cases hk
        exact absurd hopj h₁
      · exact (hc p hp hp').symm.trans hk
  have hsame : ∀ (p : Nat) (op : Opcode) (k : Instruction), code[p]? = some k →
      k.opcode? = some op → op ≠ .jmp → op ≠ .close → code'[p]? = some k := by
    intro p op k hk ho h₁ h₂
    have hp : p ≠ pc := by
      rintro rfl
      rw [hj] at hk
      cases hk
      exact h₁ (Option.some.inj (ho.symm.trans hopj))
    have hp' : p ≠ pc + 1 := by
      rintro rfl
      rw [hu] at hk
      cases hk
      exact h₂ (Option.some.inj (ho.symm.trans hopu))
    exact (hc p hp hp').trans hk
  have hdemand : ∀ (p : Nat) (k : Instruction), code'[p]? = some k →
      ∃ k₀, code[p]? = some k₀ ∧ k.demand = k₀.demand := by
    intro p k hk
    by_cases hp : p = pc
    · subst hp
      rw [hci] at hk
      cases hk
      exact ⟨_, hj, by rw [Instruction.demand_eq hi, Instruction.demand_eq hopj]; rfl⟩
    · by_cases hp' : p = pc + 1
      · subst hp'
        rw [hcj] at hk
        cases hk
        exact ⟨u, hu, by rw [Instruction.demand_eq hopj, Instruction.demand_eq hopu]; rfl⟩
      · exact ⟨k, (hc p hp hp').symm.trans hk, rfl⟩
  have henter : ∀ t, Enterable code L t → Enterable code' L t := by
    intro t ht
    refine ⟨ht.1, ?_⟩
    intro q k hq hk
    obtain ⟨k₀, hk₀, hd⟩ := hdemand q k hk
    rw [hd]
    exact ht.2 q k₀ hq hk₀
  have hown : ∀ p, p ∈ Pending.ownedBy (.goto pc l :: Q) ↔ p = pc ∨ p ∈ Pending.ownedBy Q := by
    intro p
    simp [Pending.ownedBy_cons, Pending.owned]
  have hroom : pc + 1 ∉ Pending.ownedBy Q := by
    intro hp
    exact h.not_owned ⟨u, hu, hopu⟩ ⟨by simp [Opcode.IsAimed], by decide⟩ ((hown _).2 (.inr hp))
  have hpcQ : pc ∉ Pending.ownedBy Q := by
    have hn := h.nodup
    rw [Pending.ownedBy_cons] at hn
    intro hp
    exact (List.nodup_append.1 hn).2.2 pc (by simp [Pending.owned]) pc hp rfl
  have hkeep : ∀ p, p ∈ Pending.ownedBy Q → code'[p]? = code[p]? := by
    intro p hp
    exact hc p (fun e => hpcQ (e ▸ hp)) (fun e => hroom (e ▸ hp))
  have hnot : ∀ p, p ≠ pc → p ∈ Pending.ownedBy (.goto pc l :: Q) →
      p ∈ Pending.ownedBy (.list [pc + 1] l' :: Q) := by
    intro p hp ho
    rw [Pending.ownedBy_cons]
    exact List.mem_append_right _ (((hown p).1 ho).resolve_left hp)
  have hspecial : ∀ (p : Nat) (op : Opcode), IsOp code p op → op ≠ .jmp → p ≠ pc := by
    rintro p op ho hne rfl
    exact hne (ho.unique ⟨j, hj, hopj⟩)
  refine ⟨?_, ?_, ?_, ?_, ?_, ?_, ?_, hs ▸ h.last, by simp⟩
  · rintro ⟨k, hk, ho⟩
    exact h.first ⟨k, hold 0 k hk (by simp [ho]) (by simp [ho]), ho⟩
  · intro p k hk hq
    by_cases hp : p = pc
    · subst hp
      rw [hci] at hk
      cases hk
      rw [hcj, Instruction.demand_eq hi]
      simp [Demand.MetBy, Demand.Met, Instruction.demandOf, hopj]
    · obtain ⟨k₀, hk₀, hd⟩ := hdemand p k hk
      have hn := h.next p k₀ hk₀ (by
        intro r hr
        exact hq r (List.mem_cons_of_mem _ (by simpa using hr)))
      rw [hd]
      by_cases hp₁ : p + 1 = pc
      · rw [hp₁, hci, hbefore p k₀ hp₁ hk₀]
        simp [Demand.MetBy, Demand.Met, hi]
      · rw [hc (p + 1) hp₁ (by omega)]
        exact hn
  · intro p k hk ho
    by_cases hp : p = pc + 1
    · left
      simp [Pending.ownedBy_cons, Pending.owned, hp]
    · have hp' : p ≠ pc := by
        rintro rfl
        rw [hci] at hk
        cases hk
        rw [hi] at ho
        cases ho
      have hk₀ := (hc p hp' hp).symm.trans hk
      rcases h.jumps p k hk₀ ho with hpo | ⟨t, ht, hsj, he⟩
      · exact .inl (hnot p hp' hpo)
      · exact .inr ⟨t, ht, hsj, henter t he⟩
  · rintro p ⟨k, hk, ho⟩
    have hk₀ := hold p k hk (by simp [ho]) (by simp [ho])
    rcases h.numeric p ⟨k, hk₀, ho⟩ with hp | ⟨i₁, j₁, h₁, h₂, hop₂, hrest⟩
    · exact .inl (hnot p (hspecial p _ ⟨k, hk₀, ho⟩ (by decide)) hp)
    · rw [hk₀] at h₁
      cases h₁
      exact .inr ⟨k, j₁, hk, hsame _ _ j₁ h₂ hop₂ (by decide) (by decide), hop₂, hrest⟩
  · rintro p ⟨k, hk, ho⟩
    have hk₀ := hold p k hk (by simp [ho]) (by simp [ho])
    rcases h.generic p ⟨k, hk₀, ho⟩ with hp | ⟨i₁, c₁, j₁, h₁, h₂, hop₂, ha, h₃, hop₃, hrest⟩
    · exact .inl (hnot p (hspecial p _ ⟨k, hk₀, ho⟩ (by decide)) hp)
    · rw [hk₀] at h₁
      cases h₁
      exact .inr ⟨k, c₁, j₁, hk, hsame _ _ c₁ h₂ hop₂ (by decide) (by decide), hop₂, ha,
        hsame _ _ j₁ h₃ hop₃ (by decide) (by decide), hop₃, hrest⟩
  · intro x hx
    rcases List.mem_cons.1 hx with rfl | hxQ
    · refine ⟨⟨j, hcj, hopj⟩, ?_, trivial⟩
      -- the jump still ends its list
      have hend : j.sj = JumpList.endOfList := by
        unfold JumpList.next at hnext
        rw [hj] at hnext
        by_cases he : j.sj = JumpList.endOfList
        · exact he
        · simp only [he, if_false] at hnext
          split at hnext <;> cases hnext
      simp [JumpList.next, hcj, hend]
    · have hh := h.holds x (List.mem_cons_of_mem _ hxQ)
      have hkeepx : ∀ p ∈ x.owned, code'[p]? = code[p]? :=
        fun p hp => hkeep p (Pending.mem_ownedBy hxQ hp)
      cases x with
      | list ms level => exact Chain.congr hh hkeepx
      | goto pc' level =>
        have hpc' : pc' ≠ pc := by
          rintro rfl
          exact hpcQ (Pending.mem_ownedBy hxQ (by simp [Pending.owned]))
        refine ⟨hh.1.congr hkeepx, ?_, ?_⟩
        · refine hh.2.1.congr (hc _ ?_ (by omega))
          intro e
          have := hh.2.1
          rw [e] at this
          cases this.unique ⟨j, hj, hopj⟩
        · intro q k hq hk
          obtain ⟨k₀, hk₀, hd⟩ := hdemand q k hk
          rw [hd]
          exact hh.2.2 q k₀ hq hk₀
      | target t level => exact henter t hh
      | table pc' reg' =>
        obtain ⟨⟨k₁, hk₁, ho₁⟩, ⟨k₂, hk₂, ho₂⟩⟩ := hh
        exact ⟨⟨k₁, hsame _ _ k₁ hk₁ ho₁ (by decide) (by decide), ho₁⟩,
          ⟨k₂, hsame _ _ k₂ hk₂ ho₂ (by decide) (by decide), ho₂⟩⟩
      | loop pc' base level g =>
        obtain ⟨k, hk, ha, ho⟩ := hh
        exact ⟨k, hsame _ _ k hk ho (by cases g <;> decide) (by cases g <;> decide), ha, ho⟩
  · have hn := h.nodup
    rw [Pending.ownedBy_cons] at hn ⊢
    exact List.nodup_cons.2 ⟨hroom, (List.nodup_append.1 hn).2.1⟩

theorem gotoList {pc l l' : Nat} (h : Shape code aims L (.goto pc l :: Q) o) :
    Shape code aims L (.list [pc] l' :: Q) o where
  first := h.first
  next p i hi ht := h.next p i hi fun r hr => ht r (by simpa using hr)
  jumps := h.jumps
  numeric := h.numeric
  generic := h.generic
  holds x hx := by
    rcases List.mem_cons.1 hx with rfl | hx
    · exact (h.holds _ (List.mem_cons_self ..)).1
    · exact h.holds x (List.mem_cons_of_mem _ hx)
  nodup := h.nodup
  last := h.last
  reloc := h.reloc

theorem setLoop {pc base l : Nat} {g : Bool} {i : Instruction} (v : Nat)
    (h : Shape code aims L (.loop pc base l g :: Q) none) (hi : code[pc]? = some i) :
    Shape (code.modify pc (·.setAll [(.bx, v)])) aims L (.loop pc base l g :: Q) none := by
  obtain ⟨i', hi', ha, hop⟩ := h.holds _ (List.mem_cons_self ..)
  cases hi.symm.trans hi'
  have hop' : (i.setAll [(.bx, v)]).opcode? = i.opcode? := Instruction.opcode?_setAll _ _ rfl
  have hown : pc ∈ Pending.ownedBy (.loop pc base l g :: Q) := by
    simp [Pending.ownedBy_cons, Pending.owned]
  have hu : Updated (.loop pc base l g :: Q) code (code.modify pc (·.setAll [(.bx, v)])) := by
    refine ⟨by simp, ?_⟩
    intro p k k' hk hk'
    by_cases hp : pc = p
    · subst hp
      rw [JumpList.getElem?_modify_self hi] at hk'
      cases hi.symm.trans hk
      cases hk'
      refine .inr (.inr ⟨_, ?_, hop, hop'.trans hop, hown⟩)
      cases g
      · exact .inr (.inl rfl)
      · exact .inr (.inr rfl)
    · rw [JumpList.getElem?_modify_ne hp, hk] at hk'
      cases hk'
      exact .inl rfl
  refine h.update hu (fun _ h => h) (fun _ _ h => h) (fun _ _ hp _ _ => .inl hp) (fun _ hp _ => hp)
    ?_ h.nodup (by simp)
  intro x hx
  rcases List.mem_cons.1 hx with rfl | hx
  · refine ⟨_, JumpList.getElem?_modify_self hi _, ?_, hop'.trans hop⟩
    exact (Instruction.get_setAll_apart .a [(.bx, v)] i rfl).trans ha
  · refine hu.holds (h.holds x (List.mem_cons_of_mem _ hx)) ?_
    intro p hp
    apply JumpList.getElem?_modify_ne
    rintro rfl
    exact h.disjoint hx (x := .loop pc base l g) (p := pc) (by simp [Pending.owned]) hp

theorem closeLoop {pc base l : Nat} {g : Bool} (h : Shape code aims L (.loop pc base l g :: Q) none)
    (hl : if g then GenericLoop code pc else NumericLoop code pc) : Shape code aims L Q none := by
  obtain ⟨i, hi, ha, hop⟩ := h.holds _ (List.mem_cons_self ..)
  have hown : ∀ p, p ∈ Pending.ownedBy (.loop pc base l g :: Q) → p = pc ∨
      p ∈ Pending.ownedBy Q := by
    intro p
    simp [Pending.ownedBy_cons, Pending.owned]
  refine ⟨h.first, ?_, ?_, ?_, ?_, ?_, ?_, h.last, by simp⟩
  · intro p k hk ht
    exact h.next p k hk fun r hr => ht r (by simpa using hr)
  · intro p k hk ho
    rcases h.jumps p k hk ho with hp | ht
    · rcases hown p hp with rfl | hp
      · cases hi.symm.trans hk
        rw [hop] at ho
        cases g <;> cases ho
      · exact .inl hp
    · exact .inr ht
  · intro p hp
    rcases h.numeric p hp with ho | hl'
    · rcases hown p ho with rfl | ho
      · cases g
        · exact .inr hl
        · cases hp.unique ⟨i, hi, hop⟩
      · exact .inl ho
    · exact .inr hl'
  · intro p hp
    rcases h.generic p hp with ho | hl'
    · rcases hown p ho with rfl | ho
      · cases g
        · cases hp.unique ⟨i, hi, hop⟩
        · exact .inr hl
      · exact .inl ho
    · exact .inr hl'
  · intro x hx
    exact h.holds x (List.mem_cons_of_mem _ hx)
  · have hn := h.nodup
    rw [Pending.ownedBy_cons] at hn
    exact (List.nodup_append.1 hn).2.1

end Shape

end LuaChunk
