import LuaChunk.Compile.JumpList
import LuaChunk.Proofs.Code.Sound
import LuaChunk.Proofs.Code.Refers

set_option autoImplicit false

namespace LuaChunk

open JumpList (Code IsOp Chain)

def Lands (code : Code) (t : Nat) : Prop := ∃ i, code[t]? = some i ∧ i.opcode? ≠ some .extraArg

/-- The control flow of finished code. -/
structure WellFormed (code : Code) : Prop where
  first : ¬ IsOp code 0 .extraArg
  next : ∀ (p : Nat) (i : Instruction), code[p]? = some i → i.demand.MetBy code[p + 1]?
  jumps : ∀ (p : Nat) (i : Instruction), code[p]? = some i → i.opcode? = some .jmp →
    ∃ t : Nat, i.sj = (t : Int) - (p + 1) ∧ Lands code t
  numeric : ∀ p, IsOp code p .forPrep → NumericLoop code p
  generic : ∀ p, IsOp code p .tforPrep → GenericLoop code p
  last : ∃ i op, code.back? = some i ∧ i.opcode? = some op ∧ op.isReturn = true

structure Certified (D : Nat → Nat → Prop) (code : Code) (params : Nat) : Prop where
  entry : ∀ r, D 0 r → r < params
  reads : ∀ (p : Nat) (i : Instruction), code[p]? = some i → ∀ r ∈ i.reads, D p r
  step : ∀ (p : Nat) (i : Instruction), code[p]? = some i → ∀ q ws, (q, ws) ∈ i.flow p →
    ∀ r, D q r → D p r ∨ r ∈ ws

/-- What holds of the code of a function when it is finished. -/
structure Finished (late : Bool) (code : Code) (maxStack params : Nat) : Prop where
  wellFormed : WellFormed code
  registers : ∀ (p : Nat) (i : Instruction), code[p]? = some i → ∀ r ∈ i.registers, r < maxStack
  returns : ∀ (p : Nat) (i : Instruction), code[p]? = some i → i.ReturnForm
  certified : late = false → ∃ D, Certified D code params

theorem Enterable.lands {code : Code} {aims : List (Nat × Nat)} {L t : Nat} {o : Option Nat}
    (h : Shape code aims L [] o) (ht : Enterable code L t) (hL : L < code.size) : Lands code t := by
  have hlt : t < code.size := by
    have := ht.1
    omega
  have hi := Array.getElem?_eq_getElem hlt
  refine ⟨_, hi, ?_⟩
  cases t with
  | zero => exact fun hop => h.first ⟨_, hi, hop⟩
  | succ q =>
    have hq := Array.getElem?_eq_getElem (show q < code.size by omega)
    have hm := h.next q _ hq (by simp)
    rw [hi] at hm
    rcases ht.2 q _ rfl hq with hd | hd
    · rw [hd] at hm
      exact hm
    · rw [hd] at hm
      exact Instruction.ne_of_opcode hm (by decide)

theorem Sound.finished {v : CodeView} {late : Bool} {live : Nat → Prop}
    (h : Sound v late [] none live)
    (hL : v.lastTarget < v.code.size)
    (hlast : ∃ i op, v.code.back? = some i ∧ i.opcode? = some op ∧ op.isReturn = true) :
    Finished late v.code v.maxStack v.numParams where
  wellFormed :=
    { first := h.shape.first
      next := fun p i hi => h.shape.next p i hi (by simp)
      jumps := by
        intro p i hi hop
        rcases h.shape.jumps p i hi hop with hp | ⟨t, -, hsj, ht⟩
        · cases hp
        · exact ⟨t, hsj, ht.lands h.shape hL⟩
      numeric := fun p hp => (h.shape.numeric p hp).resolve_left (by simp [Pending.ownedBy])
      generic := fun p hp => (h.shape.generic p hp).resolve_left (by simp [Pending.ownedBy])
      last := hlast }
  registers p i hi r hr := by
    rcases h.bounds.registers p i hi r hr with hr | ⟨-, -, ms, l, hx, -⟩
    · exact hr
    · cases hx
  returns := h.bounds.returns
  certified hl := by
    obtain ⟨D, hc⟩ := h.cert hl
    refine ⟨D, hc.entry, fun p i hi => hc.reads p i hi (by simp), ?_⟩
    intro p i hi q ws hq
    exact hc.step p q ws ⟨i, hi, by simp [Pending.ownedBy], hq⟩

/-- A chain of jumps ends at a position that jumps may lead to, where no more is assigned. -/
theorem finalTarget_spec {code : Code} (h : WellFormed code) (fuel : Nat) {p : Nat}
    (hp : Lands code p) :
    ∃ t, JumpList.finalTarget code fuel p = .ok t ∧ Lands code t ∧
      ∀ D params, Certified D code params → ∀ r, D t r → D p r := by
  induction fuel generalizing p with
  | zero => exact ⟨p, rfl, hp, fun _ _ _ _ hr => hr⟩
  | succ fuel ih =>
    obtain ⟨i, hi, hne⟩ := hp
    by_cases hj : i.is .jmp = true
    · obtain ⟨t, hsj, ht⟩ := h.jumps p i hi (Instruction.is_iff.1 hj)
      obtain ⟨t', he, ht', hd⟩ := ih ht
      have htarget : (p : Int) + i.sj + 1 = t := by omega
      refine ⟨t', ?_, ht', ?_⟩
      · simp only [JumpList.finalTarget, hi, hj, if_true]
        rw [htarget, if_neg (by omega)]
        exact he
      · intro D params hc r hr
        have hflow : (t, []) ∈ i.flow p := by
          rw [Instruction.flow_eq (Instruction.is_iff.1 hj)]
          refine List.mem_singleton.2 ?_
          rw [show (p : Int) + 1 + i.sj = t by omega]
          rfl
        exact (hc.step p i hi t [] hflow r (hd D params hc r hr)).resolve_right List.not_mem_nil
    · exact ⟨p, by simp [JumpList.finalTarget, hi, hj], ⟨i, hi, hne⟩, fun _ _ _ _ hr => hr⟩

/-- A change of an instruction that the final pass makes: of a jump's destination, or of the marks
of a return. -/
structure Retouched (i i' : Instruction) : Prop where
  demand : i.demand = .free ∧ i'.demand = .free
  ops : ∃ op op', i.opcode? = some op ∧ i'.opcode? = some op' ∧
    (op = .jmp ∧ op' = .jmp ∨ (op.isReturn = true ∧ op'.isReturn = true) ∨ op = .tailCall ∧
      op' = .tailCall)
  registers : ∀ r ∈ i'.registers, r ∈ i.registers
  reads : ∀ r ∈ i'.reads, r ∈ i.reads
  returns : i'.ReturnForm

theorem Retouched.becomes {i i' : Instruction} (h : Retouched i i') (r : References) :
    i.Becomes r i' := by
  obtain ⟨op, op', hop, hop', hcase⟩ := h.ops
  refine Instruction.becomes_of_free hop hop' ?_ ?_
  · rcases hcase with ⟨rfl, -⟩ | ⟨hr, -⟩ | ⟨rfl, -⟩
    · rfl
    · cases op <;> first | rfl | cases hr
    · rfl
  · rcases hcase with ⟨-, rfl⟩ | ⟨-, hr⟩ | ⟨-, rfl⟩
    · rfl
    · cases op' <;> first | rfl | cases hr
    · rfl

namespace Finished

variable {late : Bool} {code : Code} {n params pc : Nat} {i : Instruction}
  {f : Instruction → Instruction}

theorem modify_cases (hi : code[pc]? = some i) {p : Nat} {k : Instruction}
    (hk : (code.modify pc f)[p]? = some k) : pc ≠ p ∧ code[p]? = some k ∨ p = pc ∧ k = f i := by
  by_cases hp : pc = p
  · subst hp
    rw [JumpList.getElem?_modify_self hi f] at hk
    exact .inr ⟨rfl, (Option.some.inj hk).symm⟩
  · rw [JumpList.getElem?_modify_ne hp] at hk
    exact .inl ⟨hp, hk⟩

theorem keep (hi : code[pc]? = some i) (ht : Retouched i (f i)) {p : Nat} {k : Instruction}
    {op : Opcode}
    (hk : code[p]? = some k) (hop : k.opcode? = some op)
    (hne : op ≠ .jmp ∧ op ≠ .tailCall ∧ op.isReturn = false) : (code.modify pc f)[p]? = some k := by
  rw [JumpList.getElem?_modify_ne, hk]
  rintro rfl
  cases hi.symm.trans hk
  obtain ⟨op₁, op₂, h₁, -, hcase⟩ := ht.ops
  cases hop.symm.trans h₁
  rcases hcase with ⟨h, -⟩ | ⟨h, -⟩ | ⟨h, -⟩
  · exact hne.1 h
  · rw [h] at hne
    cases hne.2.2
  · exact hne.2.1 h

theorem isOp_back (hi : code[pc]? = some i) (ht : Retouched i (f i)) {p : Nat} {op : Opcode}
    (ho : IsOp (code.modify pc f) p op) (hne : op ≠ .jmp ∧ op ≠ .tailCall ∧ op.isReturn = false) :
    IsOp code p op := by
  obtain ⟨k, hk, hop⟩ := ho
  rcases modify_cases hi hk with ⟨-, hk⟩ | ⟨rfl, rfl⟩
  · exact ⟨k, hk, hop⟩
  · obtain ⟨op₁, op₂, -, h₂, hcase⟩ := ht.ops
    cases hop.symm.trans h₂
    rcases hcase with ⟨-, h⟩ | ⟨-, h⟩ | ⟨-, h⟩
    · exact absurd h hne.1
    · rw [h] at hne
      cases hne.2.2
    · exact absurd h hne.2.1

theorem lands (hi : code[pc]? = some i) (ht : Retouched i (f i)) {t : Nat} (h : Lands code t) :
    Lands (code.modify pc f) t := by
  obtain ⟨k, hk, hne⟩ := h
  by_cases hp : pc = t
  · subst hp
    refine ⟨f i, JumpList.getElem?_modify_self hi f, ?_⟩
    obtain ⟨op₁, op₂, -, h₂, hcase⟩ := ht.ops
    rw [h₂]
    rintro ⟨⟩
    simp [Opcode.isReturn] at hcase
  · exact ⟨k, (JumpList.getElem?_modify_ne hp f).trans hk, hne⟩

theorem retouch (h : Finished late code n params) (hi : code[pc]? = some i) (ht : Retouched i (f i))
    (hjump : (f i).opcode? = some .jmp → ∃ t : Nat, (f i).sj = (t : Int) - (pc + 1) ∧ Lands code t)
    (hflow : ∀ q ws, (q, ws) ∈ (f i).flow pc → ∀ D, Certified D code params → ∀ r, D q r →
      D pc r ∨ r ∈ ws) : Finished late (code.modify pc f) n params where
  wellFormed := by
    refine ⟨?_, ?_, ?_, ?_, ?_, ?_⟩
    · exact fun ho => h.wellFormed.first (isOp_back hi ht ho (by decide))
    · intro p k hk
      have hdemand : ∃ k₀, code[p]? = some k₀ ∧ k.demand = k₀.demand := by
        rcases modify_cases hi hk with ⟨-, hk⟩ | ⟨rfl, rfl⟩
        · exact ⟨k, hk, rfl⟩
        · exact ⟨i, hi, ht.demand.2.trans ht.demand.1.symm⟩
      obtain ⟨k₀, hk₀, hd⟩ := hdemand
      have hn := h.wellFormed.next p k₀ hk₀
      rw [hd]
      by_cases hp : pc = p + 1
      · rw [← hp] at hn ⊢
        rw [JumpList.getElem?_modify_self hi f]
        rw [hi] at hn
        obtain ⟨op₁, op₂, h₁, h₂, hcase⟩ := ht.ops
        cases hd' : k₀.demand with
        | free =>
          show (f i).opcode? ≠ _
          rw [h₂]
          rintro ⟨⟩
          simp [Opcode.isReturn] at hcase
        | jump =>
          rw [hd'] at hn
          cases h₁.symm.trans hn
          rcases hcase with ⟨-, rfl⟩ | ⟨h, -⟩ | ⟨h, -⟩
          · exact h₂
          · cases h
          · cases h
        | loadTrue =>
          rw [hd'] at hn
          cases h₁.symm.trans hn
          simp [Opcode.isReturn] at hcase
        | extra =>
          rw [hd'] at hn
          cases h₁.symm.trans hn
          simp [Opcode.isReturn] at hcase
        | fallback op a =>
          rw [hd'] at hn
          cases h₁.symm.trans hn.1
          rcases Instruction.demand_fallback hd' with rfl | rfl | rfl <;>
              simp [Opcode.isReturn] at hcase
      · rw [JumpList.getElem?_modify_ne hp]
        exact hn
    · intro p k hk hop
      rcases modify_cases hi hk with ⟨-, hk⟩ | ⟨rfl, rfl⟩
      · obtain ⟨t, hsj, hl⟩ := h.wellFormed.jumps p k hk hop
        exact ⟨t, hsj, lands hi ht hl⟩
      · obtain ⟨t, hsj, hl⟩ := hjump hop
        exact ⟨t, hsj, lands hi ht hl⟩
    · intro p ho
      have ho := isOp_back hi ht ho (by decide)
      obtain ⟨j, k, hj, hk, hop, hrest⟩ := h.wellFormed.numeric p ho
      obtain ⟨j', hj', hopj⟩ := ho
      cases hj.symm.trans hj'
      exact ⟨j, k, keep hi ht hj hopj (by decide), keep hi ht hk hop (by decide), hop, hrest⟩
    · intro p ho
      have ho := isOp_back hi ht ho (by decide)
      obtain ⟨j, c, k, hj, hc, hopc, ha, hk, hopk, hrest⟩ := h.wellFormed.generic p ho
      obtain ⟨j', hj', hopj⟩ := ho
      cases hj.symm.trans hj'
      exact ⟨j, c, k, keep hi ht hj hopj (by decide), keep hi ht hc hopc (by decide), hopc, ha,
        keep hi ht hk hopk (by decide), hopk, hrest⟩
    · obtain ⟨k, op, hk, hop, hr⟩ := h.wellFormed.last
      rw [Array.back?_eq_getElem?] at hk ⊢
      rw [Array.size_modify]
      by_cases hp : pc = code.size - 1
      · rw [← hp] at hk ⊢
        cases hi.symm.trans hk
        obtain ⟨op₁, op₂, h₁, h₂, hcase⟩ := ht.ops
        cases hop.symm.trans h₁
        refine ⟨f i, op₂, JumpList.getElem?_modify_self hi f, h₂, ?_⟩
        rcases hcase with ⟨rfl, -⟩ | ⟨-, h⟩ | ⟨rfl, -⟩
        · cases hr
        · exact h
        · cases hr
      · exact ⟨k, op, (JumpList.getElem?_modify_ne hp f).trans hk, hop, hr⟩
  registers p k hk r hr := by
    rcases modify_cases hi hk with ⟨-, hk⟩ | ⟨rfl, rfl⟩
    · exact h.registers p k hk r hr
    · exact h.registers p i hi r (ht.registers r hr)
  returns p k hk := by
    rcases modify_cases hi hk with ⟨-, hk⟩ | ⟨rfl, rfl⟩
    · exact h.returns p k hk
    · exact ht.returns
  certified hl := by
    obtain ⟨D, hc⟩ := h.certified hl
    refine ⟨D, hc.entry, ?_, ?_⟩
    · intro p k hk r hr
      rcases modify_cases hi hk with ⟨-, hk⟩ | ⟨rfl, rfl⟩
      · exact hc.reads p k hk r hr
      · exact hc.reads p i hi r (ht.reads r hr)
    · intro p k hk q ws hq
      rcases modify_cases hi hk with ⟨-, hk⟩ | ⟨rfl, rfl⟩
      · exact hc.step p k hk q ws hq
      · exact hflow q ws hq D hc

theorem opcode?_setOpcode (op : Opcode) : (i.setOpcode op).opcode? = some op := by
  have hn : Instruction.Field.opcode.fits op.number = true := by cases op <;> decide
  have : (i.setOpcode op).opcode = op.number :=
    Instruction.get_set_fits i hn (by decide) (by decide)
  rw [Instruction.opcode?, this, Opcode.ofNumber?_number]

theorem mark_fields (m : ReturnMarks) (i : Instruction) :
    (m.mark i).opcode? = i.opcode? ∧ (m.mark i).a = i.a ∧ (m.mark i).b = i.b := by
  have hk : ∀ j : Instruction, (j.setK 1).opcode? = j.opcode? ∧ (j.setK 1).a = j.a ∧
      (j.setK 1).b = j.b :=
    fun j => ⟨Instruction.opcode?_set j _ (by decide), Instruction.get_set_apart j _ (by decide),
      Instruction.get_set_apart j _ (by decide)⟩
  have hc : ∀ (j : Instruction) (c : Nat),
      (j.setC c).opcode? = j.opcode? ∧ (j.setC c).a = j.a ∧ (j.setC c).b = j.b :=
    fun j c => ⟨Instruction.opcode?_set j _ (by decide), Instruction.get_set_apart j _ (by decide),
      Instruction.get_set_apart j _ (by decide)⟩
  unfold ReturnMarks.mark
  cases m.closes <;> cases m.isVararg
  · exact ⟨rfl, rfl, rfl⟩
  · exact hc i _
  · exact hk i
  · obtain ⟨h₁, h₂, h₃⟩ := hc (i.setK 1) (m.numParams + 1)
    obtain ⟨h₄, h₅, h₆⟩ := hk i
    exact ⟨h₁.trans h₄, h₂.trans h₅, h₃.trans h₆⟩

theorem retouched_return {i' : Instruction} {op op' : Opcode} (hop : i.opcode? = some op)
    (hop' : i'.opcode? = some op') (hr : op.isReturn = true) (hr' : op' = .ret) (ha : i'.a = i.a)
    (hb : i'.b = i.b) (hf : i.ReturnForm) : Retouched i i' := by
  subst hr'
  -- a long return of one or no value has the registers of the short one
  have hsub : ∀ r ∈ List.range' i.a (i.b - 1), r ∈ i.reads := by
    rw [Instruction.reads_eq hop]
    cases op with
    | ret => exact fun r hr => hr
    | ret0 =>
      rw [hf.1 hop]
      exact fun r hr => absurd hr List.not_mem_nil
    | ret1 =>
      rw [hf.2 hop]
      exact fun r hr => hr
    | _ => cases hr
  refine ⟨⟨?_, ?_⟩, ⟨op, .ret, hop, hop', .inr (.inl ⟨hr, rfl⟩)⟩, ?_,
    ?_, by simp [Instruction.ReturnForm, hop']⟩
  · rw [Instruction.demand_eq hop]
    cases op <;> first | rfl | cases hr
  · rw [Instruction.demand_eq hop']
    rfl
  · intro r hrr
    rw [Instruction.registers_eq hop', show i'.registersOf .ret
      = if i'.b = 0 then [i'.a] else List.range' i'.a (i'.b - 1) from rfl, ha, hb] at hrr
    rw [Instruction.registers_eq hop]
    cases op with
    | ret => exact hrr
    | ret0 =>
      rw [hf.1 hop] at hrr
      cases hrr
    | ret1 =>
      rw [hf.2 hop] at hrr
      exact hrr
    | _ => cases hr
  · intro r hrr
    rw [Instruction.reads_eq hop', show i'.readsOf .ret = List.range' i'.a (i'.b - 1) from rfl, ha,
      hb] at hrr
    exact hsub r hrr

theorem retouched_adjust (m : ReturnMarks) (hf : i.ReturnForm) :
    m.adjust i = i ∨ Retouched i (m.adjust i) ∧ (m.adjust i).opcode? ≠ some .jmp ∧
      ∀ pc, (m.adjust i).flow pc = [] := by
  obtain ⟨h₁, h₂, h₃⟩ := mark_fields m i
  obtain ⟨h₄, h₅, h₆⟩ := mark_fields m (i.setOpcode .ret)
  have hset : (m.mark (i.setOpcode .ret)).opcode? = some .ret := h₄.trans (opcode?_setOpcode .ret)
  have ha : (m.mark (i.setOpcode .ret)).a = i.a :=
    h₅.trans (Instruction.get_set_apart i _ (by decide))
  have hb : (m.mark (i.setOpcode .ret)).b = i.b :=
    h₆.trans (Instruction.get_set_apart i _ (by decide))
  have hnil : ∀ (j : Instruction) (pc : Nat), j.opcode? = some .ret → j.flow pc = [] := by
    intro j pc hj
    rw [Instruction.flow_eq hj]
    rfl
  unfold ReturnMarks.adjust
  cases hop : i.opcode? with
  | none => exact .inl rfl
  | some op =>
    cases op with
    | ret0 =>
      simp only
      split
      · exact .inr ⟨retouched_return hop hset rfl rfl ha hb
          hf, by simp [hset], fun pc => hnil _ pc hset⟩
      · exact .inl rfl
    | ret1 =>
      simp only
      split
      · exact .inr ⟨retouched_return hop hset rfl rfl ha hb
          hf, by simp [hset], fun pc => hnil _ pc hset⟩
      · exact .inl rfl
    | ret =>
      have hop' := h₁.trans hop
      exact .inr ⟨retouched_return hop hop' rfl rfl h₂ h₃
        hf, by simp [hop'], fun pc => hnil _ pc hop'⟩
    | tailCall =>
      have hop' := h₁.trans hop
      refine .inr ⟨⟨⟨?_, ?_⟩, ⟨_, _, hop, hop', .inr (.inr ⟨rfl, rfl⟩)⟩, ?_, ?_,
        Instruction.returnForm_of hop' rfl⟩, by simp [hop'], ?_⟩
      · rw [Instruction.demand_eq hop]
        rfl
      · rw [Instruction.demand_eq hop']
        rfl
      · intro r hr
        rw [Instruction.registers_eq hop', show (m.mark i).registersOf .tailCall
          = List.range' (m.mark i).a (max (m.mark i).b 1) ++ [] from rfl, h₂, h₃] at hr
        rw [Instruction.registers_eq hop]
        exact hr
      · intro r hr
        rw [Instruction.reads_eq hop', show (m.mark i).readsOf .tailCall
          = List.range' (m.mark i).a (max (m.mark i).b 1) from rfl, h₂, h₃] at hr
        rw [Instruction.reads_eq hop]
        exact hr
      · intro pc
        rw [Instruction.flow_eq hop']
        rfl
    | _ => exact .inl rfl

theorem finishAt_spec (m : ReturnMarks) (h : Finished late code n params) (hpc : pc < code.size) :
    JumpList.finishAt m code pc = .error .tooLong ∧ Instruction.offsetSJ < code.size ∨
      ∃ code', JumpList.finishAt m code pc = .ok code' ∧ code'.size = code.size ∧
        Finished late code' n params ∧ ∀ r, Rewritten r code code' := by
  have hi := Array.getElem?_eq_getElem hpc
  generalize code[pc] = i at hi
  unfold JumpList.finishAt
  simp only [hi]
  split
  · rename_i hj
    have hop := Instruction.is_iff.1 hj
    obtain ⟨t, ht, hl, hd⟩ := finalTarget_spec h.wellFormed JumpList.chainLimit
      ⟨i, hi, by simp [hop]⟩
    rw [ht]
    rcases JumpList.fix_eq t hpc with he | ⟨he, hlo, hup⟩
    · refine .inl ⟨he, Int.lt_of_not_ge fun hle => ?_⟩
      obtain ⟨j, hj, -⟩ := hl
      have hlt := (Array.getElem?_eq_some_iff.1 hj).1
      exact JumpList.fix_ne_tooLong hpc hle (by omega) he
    · refine .inr ⟨_, he, by simp, ?_⟩
      have hop' : (i.setSJ ((t : Int) - (pc + 1))).opcode? = some .jmp := by simpa using hop
      have hsj := Instruction.sj_setSJ i hlo hup
      have ht : Retouched i (i.setSJ ((t : Int) - (pc + 1))) := by
        refine ⟨⟨?_, ?_⟩, ⟨_, _, hop, hop', .inl ⟨rfl, rfl⟩⟩, ?_, ?_,
          Instruction.returnForm_of hop' rfl⟩
        · rw [Instruction.demand_eq hop]
          rfl
        · rw [Instruction.demand_eq hop']
          rfl
        · intro r hr
          rw [Instruction.registers_eq hop'] at hr
          cases hr
        · intro r hr
          rw [Instruction.reads_eq hop'] at hr
          cases hr
      refine ⟨h.retouch hi ht (fun _ => ⟨t, hsj, hl⟩) ?_, fun r => .modify_at hi (ht.becomes r)⟩
      · intro q ws hq D hc r hr
        rw [Instruction.flow_eq hop'] at hq
        obtain ⟨rfl, -⟩ := Prod.mk.inj (List.mem_singleton.1 hq)
        rw [hsj, show ((pc : Int) + 1 + ((t : Int) - (pc + 1))).toNat = t by omega] at hr
        exact .inl (hd D params hc r hr)
  · refine .inr ⟨_, rfl, by simp, ?_⟩
    rcases retouched_adjust m (h.returns pc i hi) with heq | ⟨ht, hne, hflow⟩
    · have hsame : code.modify pc m.adjust = code := by
        apply Array.ext_getElem?
        intro p
        by_cases hp : pc = p
        · subst hp
          rw [JumpList.getElem?_modify_self hi, heq, hi]
        · rw [JumpList.getElem?_modify_ne hp]
      rw [hsame]
      exact ⟨h, fun r => .refl code⟩
    · refine ⟨h.retouch hi ht (fun hop => absurd hop hne) ?_, fun r => .modify_at hi (ht.becomes r)⟩
      intro q ws hq
      rw [hflow pc] at hq
      cases hq

/-- Whatever code refers to, and whatever constants it is emitted for, other code does and is,
too. -/
structure Retains (code code' : Code) : Prop where
  refers : ∀ r, Referring r code → Referring r code'
  faithful : ∀ constants meant, Faithful constants code meant → Faithful constants code' meant

theorem Retains.refl (code : Code) : Retains code code := ⟨fun _ h => h, fun _ _ h => h⟩

theorem Retains.trans {code₁ code₂ : Code} (h : Retains code code₁) (h' : Retains code₁ code₂) :
    Retains code code₂ :=
  ⟨fun r hr => h'.refers r (h.refers r hr), fun k meant hm =>
    h'.faithful k meant (h.faithful k meant hm)⟩

theorem Retains.rewrite {code' : Code} (hw : ∀ r, Rewritten r code code')
    (hs : code'.size = code.size) : Retains code code' :=
  ⟨fun r h => h.rewrite (hw r) hs, fun constants _ h => h.rewrite (hw ⟨constants, 0, 0⟩) hs⟩

theorem finish_spec (m : ReturnMarks) (h : Finished late code n params) :
    JumpList.finish m code = .error .tooLong ∧ Instruction.offsetSJ < code.size ∨
      ∃ code', JumpList.finish m code = .ok code' ∧ code'.size = code.size ∧
        Finished late code' n params ∧ Retains code code' := by
  have hloop : ∀ (k : Nat) (code : Code), k ≤ code.size → Finished late code n params →
      JumpList.finishLast m k code = .error .tooLong ∧ Instruction.offsetSJ < code.size ∨
        ∃ code', JumpList.finishLast m k code = .ok code' ∧ code'.size = code.size ∧
          Finished late code' n params ∧ Retains code code' := by
    intro k
    induction k with
    | zero => exact fun code _ h => .inr ⟨code, rfl, rfl, h, .refl code⟩
    | succ k ih =>
      intro code hk h
      have hlt : code.size - (k + 1) < code.size := by omega
      rcases finishAt_spec m h hlt with ⟨he, hsize⟩ | ⟨code₁, he, hs, h₁, hw⟩
      · exact .inl ⟨by simp [JumpList.finishLast, he], hsize⟩
      · rcases ih code₁ (by omega) h₁ with ⟨he', hsize⟩ | ⟨code₂, he', hs', h₂, hr⟩
        · exact .inl ⟨by simp [JumpList.finishLast, he, he'], hs ▸ hsize⟩
        · exact .inr ⟨code₂, by simp [JumpList.finishLast, he, he'], hs'.trans hs, h₂,
            (Retains.rewrite hw hs).trans hr⟩
  exact hloop code.size code (Nat.le_refl _) h

end Finished

end LuaChunk
