import LuaChunk.Proofs.Code.CertEdit

set_option autoImplicit false

namespace LuaChunk

open JumpList (Code IsOp Chain)

structure CodeView where
  code : Code
  aims : List (Nat × Nat)
  lastTarget : Nat
  maxStack : Nat
  numParams : Nat

namespace CodeView

def push (v : CodeView) (i : Instruction) : CodeView := { v with code := v.code.push i }

def modify (v : CodeView) (p : Nat) (f : Instruction → Instruction) : CodeView :=
  { v with code := v.code.modify p f }

def mark (v : CodeView) : CodeView := { v with lastTarget := v.code.size }

end CodeView

/-- The code of a function is sound, given what is pending, an instruction whose result register is
open, and the registers that are assigned at its end. Code with a late load has no certificate. -/
structure Sound (v : CodeView) (late : Bool) (P : List Pending) (open_ : Option Nat)
    (live : Nat → Prop) : Prop where
  shape : Shape v.code v.aims v.lastTarget P open_
  bounds : Bounds v.code v.maxStack P
  stack : v.maxStack ≤ 254
  cert : late = false → ∃ D, Cert D v.code v.numParams P open_ live

namespace Instruction

variable {i : Instruction} {op : Opcode}

theorem ne_of_opcode {op' : Opcode} (h : i.opcode? = some op) (hne : op ≠ op') :
    i.opcode? ≠ some op' := by
  rw [h]
  exact fun e => hne (Option.some.inj e)

theorem plain_ne {op' : Opcode} (h : i.opcode? = some op) (hp : op.isPlain = true)
    (hn : op'.isPlain = false) : i.opcode? ≠ some op' := by
  apply ne_of_opcode h
  rintro rfl
  rw [hp] at hn
  cases hn

end Instruction

namespace Sound

variable {v : CodeView} {late : Bool} {P Q : List Pending} {o o' : Option Nat}
  {live live' : Nat → Prop} {i j : Instruction} {op : Opcode}

theorem weaken (h : Sound v late P o live) (hl : ∀ r, live' r → live r) :
    Sound v late P o live' where
  shape := h.shape
  bounds := h.bounds
  stack := h.stack
  cert hl' := by
    obtain ⟨D, hc⟩ := h.cert hl'
    exact ⟨D, { hc with live := fun r hr => hc.live r (hl r hr) }⟩

theorem raise {n : Nat} (h : Sound v late P o live) (hn : v.maxStack ≤ n) (hn' : n ≤ 254) :
    Sound { v with maxStack := n } late P o live where
  shape := h.shape
  bounds := h.bounds.mono hn
  stack := hn'
  cert := h.cert

theorem toLate (h : Sound v late P o live) : Sound v true P o live where
  shape := h.shape
  bounds := h.bounds
  stack := h.stack
  cert hl := by cases hl

theorem push (h : Sound v late P o live) (hop : i.opcode? = some op) (hp : op.isPlain = true)
    (ho : o = none ∨ op ≠ .concat) (hregs : ∀ r ∈ i.registers, r < v.maxStack)
    (hreads : ∀ r ∈ i.reads, live r) (hlive : ∀ r, live' r → live r ∨ r ∈ i.writes) :
    Sound (v.push i) late P o live' where
  shape := by
    have hs : Shape (v.code.push i) v.aims v.lastTarget ([] ++ P) o :=
      h.shape.push (Instruction.demand_plain hop hp)
      (Instruction.plain_ne hop hp rfl) ?_ (by simp [Pending.ownedBy]) (by simp [Pending.ownedBy])
      (by simp) ?_
    · exact hs
    · rintro op' hop' (rfl | rfl | rfl) <;> exact absurd hop' (Instruction.plain_ne hop hp rfl)
    · intro pc hpc
      have hr := h.shape.reloc pc hpc
      obtain ⟨i', op', hi', hrest⟩ := hr.op
      have hlt := (Array.getElem?_eq_some_iff.1 hi').1
      refine ⟨⟨i', op', grows_push _ _ _ _ hi', hrest⟩, hr.last, ?_⟩
      intro q hq hqs
      by_cases hq' : q < v.code.size
      · obtain ⟨op₁, ho₁, hp₁⟩ := hr.after q hq hq'
        exact ⟨op₁, (grows_push _ _).isOp ho₁, hp₁⟩
      · simp only [Array.size_push] at hqs
        obtain rfl : q = v.code.size := by omega
        refine ⟨op, ⟨i, by simp, hop⟩, hp, ?_⟩
        rcases ho with rfl | ho
        · cases hpc
        · exact ho
  bounds := by
    refine h.bounds.grow (X := []) (grows_push _ i) ?_ ?_ (by simp)
    · intro p k hp' hk
      obtain ⟨-, rfl⟩ := Shape.getElem?_push_cases hp' hk
      exact Instruction.returnForm_of hop (by cases op <;> first | rfl | cases hp)
    intro p k hp' hk r hr
    obtain ⟨-, rfl⟩ := Shape.getElem?_push_cases hp' hk
    exact .inl (hregs r hr)
  stack := h.stack
  cert hl := by
    obtain ⟨D, hc⟩ := h.cert hl
    refine ⟨_, hc.push (X := []) h.shape ?_ hreads ?_ (by simp) ?_ (fun pc hpc => .inl hpc)⟩
    · intro r hr
      rcases hlive r hr with hr | hr
      · exact hc.small _ r (hc.live r hr)
      · have := hregs r (Instruction.writes_subset hr)
        have := h.stack
        omega
    · intro _ q ws hq
      rw [Instruction.flow_plain hop hp] at hq
      cases List.mem_singleton.1 hq
      exact ⟨rfl, hlive⟩
    · rintro q k ⟨ms, l, hx, -⟩
      cases hx

theorem pushReturn (h : Sound v late P none live) (hop : i.opcode? = some op)
    (hp : op.isReturn = true) (hregs : ∀ r ∈ i.registers, r < v.maxStack)
    (hret : i.ReturnForm) (hreads : ∀ r ∈ i.reads, live r) (hlive : ∀ r, live' r → r < 255) :
    Sound (v.push i) late P none live' where
  shape := by
    have hd : i.demand = .free := by
      rw [Instruction.demand_eq hop]
      cases op <;> first | rfl | cases hp
    refine h.shape.push (X := []) hd ?_ ?_ (by simp [Pending.ownedBy]) (by simp [Pending.ownedBy])
      (by simp) (by simp)
    · exact Instruction.ne_of_opcode hop (by rintro rfl; cases hp)
    · rintro op' hop' hcase
      cases hop.symm.trans hop'
      rcases hcase with rfl | rfl | rfl <;> cases hp
  bounds := by
    refine h.bounds.grow (X := []) (grows_push _ i) ?_ ?_ (by simp)
    · intro p k hp' hk
      obtain ⟨-, rfl⟩ := Shape.getElem?_push_cases hp' hk
      exact hret
    intro p k hp' hk r hr
    obtain ⟨-, rfl⟩ := Shape.getElem?_push_cases hp' hk
    exact .inl (hregs r hr)
  stack := h.stack
  cert hl := by
    obtain ⟨D, hc⟩ := h.cert hl
    refine ⟨_, hc.push (X := []) h.shape hlive hreads ?_ (by simp) ?_ (by simp)⟩
    · intro _ q ws hq
      rw [Instruction.flow_eq hop] at hq
      cases op <;> first | (cases hp; done) | exact absurd hq List.not_mem_nil
    · rintro q k ⟨ms, l, hx, -⟩
      cases hx

theorem pushOpen (h : Sound v late P none live) (hop : i.opcode? = some op)
    (hp : op.isPlain = true) (hr : op.isRelocatable = true) (hv : op ≠ .vararg)
    (hregs : ∀ r ∈ i.registers, r < v.maxStack) (hreads : ∀ r ∈ i.reads, live r) :
    Sound (v.push i) late P (some v.code.size) live where
  shape := by
    refine h.shape.push (X := []) (Instruction.demand_plain hop hp)
      (Instruction.plain_ne hop hp rfl) ?_ (by simp [Pending.ownedBy]) (by simp [Pending.ownedBy])
      (by simp) ?_
    · rintro op' hop' (rfl | rfl | rfl) <;> exact absurd hop' (Instruction.plain_ne hop hp rfl)
    · rintro pc ⟨⟩
      refine ⟨⟨i, op, by simp, hop, hr, fun e => absurd e hv⟩, h.shape.last, ?_⟩
      intro q hq hqs
      simp only [Array.size_push] at hqs
      omega
  bounds := by
    refine h.bounds.grow (X := []) (grows_push _ i) ?_ ?_ (by simp)
    · intro p k hp' hk
      obtain ⟨-, rfl⟩ := Shape.getElem?_push_cases hp' hk
      exact Instruction.returnForm_of hop (by cases op <;> first | rfl | cases hp)
    intro p k hp' hk r hr
    obtain ⟨-, rfl⟩ := Shape.getElem?_push_cases hp' hk
    exact .inl (hregs r hr)
  stack := h.stack
  cert hl := by
    obtain ⟨D, hc⟩ := h.cert hl
    refine ⟨_, hc.push (X := []) h.shape (fun r hr => hc.small _ r (hc.live r hr)) hreads ?_
      (by simp)
      ?_ ?_⟩
    · intro _ q ws hq
      rw [Instruction.flow_plain hop hp] at hq
      cases List.mem_singleton.1 hq
      exact ⟨rfl, fun r hr => .inl hr⟩
    · rintro q k ⟨ms, l, hx, -⟩
      cases hx
    · rintro pc ⟨⟩
      exact .inr ⟨rfl, fun r hr => hr⟩

theorem fallback_op {f : Opcode} (h : op.fallback? = some f) :
    f = .mmBin ∨ f = .mmBinK ∨ f = .mmBinI := by
  unfold Opcode.fallback? at h
  split at h
  · exact .inl (Option.some.inj h).symm
  · split at h
    · exact .inr (.inl (Option.some.inj h).symm)
    · split at h
      · exact .inr (.inr (Option.some.inj h).symm)
      · cases h

theorem demand_arith {f : Opcode} (hop : i.opcode? = some op) (h : op.fallback? = some f) :
    i.demand = .fallback f i.b := by
  rw [Instruction.demand_eq hop]
  cases op <;> first | (cases h; rfl) | cases h

theorem pushArith {f : Opcode} (h : Sound v late P none live) (hop : i.opcode? = some op)
    (hf : op.fallback? = some f) (hj : j.opcode? = some f) (ha : j.a = i.b)
    (hregs : ∀ r ∈ i.registers, r < v.maxStack) (hreads : ∀ r ∈ i.reads, live r)
    (hregs' : ∀ r ∈ j.registers, r < v.maxStack) (hreads' : ∀ r ∈ j.reads, live r) :
    Sound ((v.push i).push j) late P (some v.code.size) live where
  shape := by
    have hfp : f.isPlain = true := by rcases fallback_op hf with rfl | rfl | rfl <;> rfl
    refine h.shape.pushTwo (X := []) (.inr ?_) (Instruction.demand_plain hj hfp) ?_ ?_
      (by simp [Pending.ownedBy]) (by simp [Pending.ownedBy]) (by simp) ?_
    · rw [demand_arith hop hf]
      exact ⟨hj, ha⟩
    · exact Instruction.ne_of_opcode hop (by rintro rfl; cases hf)
    · intro op' hcase
      constructor
      · intro hop'
        cases hop.symm.trans hop'
        rcases hcase with rfl | rfl | rfl <;> cases hf
      · intro hop'
        rcases hcase with rfl | rfl | rfl <;> exact absurd hop' (Instruction.plain_ne hj hfp rfl)
    · rintro pc ⟨⟩
      refine ⟨⟨i, op, ?_, hop, ?_, ?_⟩, h.shape.last, ?_⟩
      · exact grows_push _ _ _ _ (by simp)
      · cases op <;> first | rfl | cases hf
      · rintro rfl
        cases hf
      · intro q hq hqs
        simp only [Array.size_push] at hqs
        obtain rfl : q = v.code.size + 1 := by omega
        refine ⟨f, ⟨j, ?_, hj⟩, hfp, ?_⟩
        · rw [Array.getElem?_push, if_pos (by simp)]
        · rcases fallback_op hf with rfl | rfl | rfl <;> decide
  bounds := by
    refine h.bounds.grow (X := []) ((grows_push _ i).trans (grows_push _ j)) ?_ ?_ (by simp)
    · intro p k hp' hk
      rcases Cert.getElem?_push_push hp' hk with ⟨-, rfl⟩ | ⟨-, rfl⟩
      · exact Instruction.returnForm_of hop (by cases op <;> first | rfl | cases hf)
      · exact Instruction.returnForm_of hj (by rcases fallback_op hf with rfl | rfl | rfl <;> rfl)
    intro p k hp' hk r hr
    rcases Cert.getElem?_push_push hp' hk with ⟨-, rfl⟩ | ⟨-, rfl⟩
    · exact .inl (hregs r hr)
    · exact .inl (hregs' r hr)
  stack := h.stack
  cert hl := by
    obtain ⟨D, hc⟩ := h.cert hl
    have hsmall : ∀ r, live r → r < 255 := fun r hr => hc.small _ r (hc.live r hr)
    refine ⟨_, hc.pushTwo (X := []) (M := live) h.shape hsmall hsmall hreads (fun _ => hreads') ?_
      ?_
      (by simp) ?_ (by simp) (by simp) ?_⟩
    · intro _ q ws hq
      rw [Instruction.flow_eq hop] at hq
      have hq : (q, ws) ∈ [(v.code.size + 1, i.writesOf op)] := by
        cases op <;> first | exact hq | cases hf
      cases List.mem_singleton.1 hq
      exact .inl ⟨rfl, fun r hr => .inl hr⟩
    · intro _ q ws hq
      have hfp : f.isPlain = true := by rcases fallback_op hf with rfl | rfl | rfl <;> rfl
      rw [Instruction.flow_plain hj hfp] at hq
      cases List.mem_singleton.1 hq
      exact ⟨rfl, fun r hr => .inl hr⟩
    · rintro q k ⟨ms, l, hx, -⟩
      cases hx
    · rintro pc ⟨⟩
      exact ⟨rfl, fun r hr => hr⟩

theorem chain_one {code : Code} {p : Nat} (hi : code[p]? = some i) (hop : i.opcode? = some .jmp)
    (hsj : i.sj = JumpList.endOfList) : Chain code [p] :=
  ⟨⟨i, hi, hop⟩, by simp [JumpList.next, hi, hsj], trivial⟩

theorem pushJump {l : Nat} (h : Sound v late P none live) (hop : i.opcode? = some .jmp)
    (hsj : i.sj = JumpList.endOfList) (hl : ∀ r < l, live r) (hlive : ∀ r, live' r → r < 255) :
    Sound (v.push i) late (.list [v.code.size] l :: P) none live' where
  shape := by
    refine h.shape.push (X := [.list [v.code.size] l]) ?_ (by simp [hop]) ?_
      (by simp [Pending.ownedBy, Pending.owned]) (by simp [Pending.ownedBy, Pending.owned]) ?_
      (by simp)
    · rw [Instruction.demand_eq hop]
      rfl
    · intro _ _ _
      simp [Pending.ownedBy, Pending.owned]
    · simp only [List.mem_singleton]
      rintro x rfl
      exact chain_one (by simp) hop hsj
  bounds := by
    refine h.bounds.grow (X := [.list [v.code.size] l]) (grows_push _ i) ?_ ?_ (by simp)
    · intro p k hp' hk
      obtain ⟨-, rfl⟩ := Shape.getElem?_push_cases hp' hk
      exact Instruction.returnForm_of hop rfl
    intro p k hp' hk r hr
    obtain ⟨-, rfl⟩ := Shape.getElem?_push_cases hp' hk
    rw [Instruction.registers_eq hop] at hr
    cases hr
  stack := h.stack
  cert hl' := by
    obtain ⟨D, hc⟩ := h.cert hl'
    refine ⟨_, hc.push (X := [.list [v.code.size] l]) h.shape hlive ?_ ?_ ?_ ?_ (by simp)⟩
    · intro r hr
      rw [Instruction.reads_eq hop] at hr
      cases hr
    · intro hown
      exact absurd (by simp [Pending.ownedBy, Pending.owned]) hown
    · simp only [List.mem_singleton]
      rintro x rfl
      refine ⟨?_, by simp, by simp⟩
      intro m hm r hr
      cases List.mem_singleton.1 hm
      exact Cert.extend_self (hc.live r (hl r hr))
    · -- the instruction before the jump asks for nothing, so it is no test
      rintro q k ⟨ms, l', hx, hm⟩ hk hop'
      cases List.mem_singleton.1 hx
      have hq := List.mem_singleton.1 hm
      have hd := h.shape.demand_last hq ((grows_push _ i).back (by omega) hk)
      rw [Instruction.demand_eq hop'] at hd
      cases hd

theorem pushTest {l : Nat} (h : Sound v late P none live) (hop : i.opcode? = some op)
    (ht : op.isTest = true) (hj : j.opcode? = some .jmp) (hsj : j.sj = JumpList.endOfList)
    (hregs : op ≠ .testSet ∧ (∀ r ∈ i.registers, r < v.maxStack) ∨
      op = .testSet ∧ i.b < v.maxStack ∧ i.a = Instruction.noRegister)
    (hreads : ∀ r ∈ i.reads, live r) (hl : ∀ r < l, live r) :
    Sound ((v.push i).push j) late (.list [v.code.size + 1] l :: P) none live where
  shape := by
    refine h.shape.pushTwo (X := [.list [v.code.size + 1] l]) (.inr ?_) ?_ ?_ ?_
      (by simp [Pending.ownedBy, Pending.owned]) (by simp [Pending.ownedBy, Pending.owned]) ?_
      (by simp)
    · have : i.demand = .jump := by
        rw [← Instruction.isTest_iff]
        simp [Instruction.isTest, hop, ht]
      rw [this]
      exact hj
    · rw [Instruction.demand_eq hj]
      rfl
    · exact Instruction.ne_of_opcode hop (by rintro rfl; cases ht)
    · intro op' hcase
      constructor
      · intro hop'
        cases hop.symm.trans hop'
        rcases hcase with rfl | rfl | rfl <;> cases ht
      · intro _
        simp [Pending.ownedBy, Pending.owned]
    · simp only [List.mem_singleton]
      rintro x rfl
      refine chain_one ?_ hj hsj
      rw [Array.getElem?_push, if_pos (by simp)]
  bounds := by
    refine h.bounds.grow (X := [.list [v.code.size + 1] l])
      ((grows_push _ i).trans (grows_push _ j)) ?_ ?_ (by simp)
    · intro p k hp' hk
      rcases Cert.getElem?_push_push hp' hk with ⟨-, rfl⟩ | ⟨-, rfl⟩
      · exact Instruction.returnForm_of hop (by cases op <;> first | rfl | cases ht)
      · exact Instruction.returnForm_of hj rfl
    intro p k hp' hk r hr
    rcases Cert.getElem?_push_push hp' hk with ⟨rfl, rfl⟩ | ⟨-, rfl⟩
    · rcases hregs with ⟨-, hregs⟩ | ⟨rfl, hb, -⟩
      · exact .inl (hregs r hr)
      · exact .inr ⟨hop, hb, [v.code.size + 1], l, by simp, by simp⟩
    · rw [Instruction.registers_eq hj] at hr
      cases hr
  stack := h.stack
  cert hl' := by
    obtain ⟨D, hc⟩ := h.cert hl'
    have hsmall : ∀ r, live r → r < 255 := fun r hr => hc.small _ r (hc.live r hr)
    refine ⟨_, hc.pushTwo (X := [.list [v.code.size + 1] l]) (M := live) h.shape hsmall hsmall
      hreads
      ?_ ?_ ?_ ?_ ?_ (by simp) (by simp) (by simp)⟩
    · intro _ r hr
      rw [Instruction.reads_eq hj] at hr
      cases hr
    · intro _ q ws hq
      rw [Instruction.flow_eq hop] at hq
      have hd : j.demand = .free := by rw [Instruction.demand_eq hj]; rfl
      have hq : q = v.code.size + 1 ∨ q = v.code.size + 2 := by
        cases op <;> first
          | (cases ht; done)
          | (rcases List.mem_cons.1 hq with hq | hq
             · cases hq; exact .inl rfl
             · cases List.mem_singleton.1 hq; exact .inr rfl)
      rcases hq with rfl | rfl
      · exact .inl ⟨rfl, fun r hr => .inl hr⟩
      · exact .inr ⟨rfl, fun r hr => .inl hr, hd, rfl⟩
    · intro hown
      exact absurd (by simp [Pending.ownedBy, Pending.owned]) hown
    · simp only [List.mem_singleton]
      rintro x rfl m hm r hr
      cases List.mem_singleton.1 hm
      rw [Cert.extend_new (by omega), Cert.between, if_pos rfl]
      exact hl r hr
    · rintro q k ⟨ms, l', hx, hm⟩ hk hop'
      cases List.mem_singleton.1 hx
      obtain rfl : q = v.code.size := by simpa using hm
      rcases Cert.getElem?_push_push (Nat.le_refl _) hk with ⟨-, rfl⟩ | ⟨h', -⟩
      · cases hop.symm.trans hop'
        rcases hregs with ⟨h', -⟩ | ⟨-, -, ha⟩
        · exact absurd rfl h'
        · exact ha
      · omega

theorem pushExtra (h : Sound v late P none live) (hop : i.opcode? = some op)
    (hx : op = .loadKX ∨ op = .setList ∧ i.k = 1) (hj : j.opcode? = some .extraArg)
    (hregs : ∀ r ∈ i.registers, r < v.maxStack) (hreads : ∀ r ∈ i.reads, live r)
    (hlive : ∀ r, live' r → live r ∨ r ∈ i.writes) :
    Sound ((v.push i).push j) late P none live' where
  shape := by
    refine h.shape.pushTwo (X := []) (.inr ?_) ?_ ?_ ?_ (by simp [Pending.ownedBy])
      (by simp [Pending.ownedBy]) (by simp) (by simp)
    · rw [Instruction.demand_eq hop]
      rcases hx with rfl | ⟨rfl, hk⟩
      · exact hj
      · have hd : i.demandOf .setList = .extra := by simp [Instruction.demandOf, hk]
        rw [hd]
        exact hj
    · rw [Instruction.demand_eq hj]
      rfl
    · rcases hx with rfl | ⟨rfl, -⟩ <;> simp [hop]
    · intro op' hcase
      constructor
      · intro hop'
        cases hop.symm.trans hop'
        rcases hcase with rfl | rfl | rfl <;> simp at hx
      · intro hop'
        cases hj.symm.trans hop'
        rcases hcase with h | h | h <;> cases h
  bounds := by
    refine h.bounds.grow (X := []) ((grows_push _ i).trans (grows_push _ j)) ?_ ?_ (by simp)
    · intro p k hp' hk
      rcases Cert.getElem?_push_push hp' hk with ⟨-, rfl⟩ | ⟨-, rfl⟩
      · exact Instruction.returnForm_of hop (by rcases hx with rfl | ⟨rfl, -⟩ <;> rfl)
      · exact Instruction.returnForm_of hj rfl
    intro p k hp' hk r hr
    rcases Cert.getElem?_push_push hp' hk with ⟨rfl, rfl⟩ | ⟨-, rfl⟩
    · exact .inl (hregs r hr)
    · rw [Instruction.registers_eq hj] at hr
      cases hr
  stack := h.stack
  cert hl := by
    obtain ⟨D, hc⟩ := h.cert hl
    have hsmall : ∀ r, live' r → r < 255 := by
      intro r hr
      rcases hlive r hr with hr | hr
      · exact hc.small _ r (hc.live r hr)
      · have := hregs r (Instruction.writes_subset hr)
        have := h.stack
        omega
    refine ⟨_, hc.pushTwo (X := []) (M := live') h.shape hsmall hsmall hreads ?_ ?_ ?_ (by simp) ?_
      (by simp) (by simp) (by simp)⟩
    · intro _ r hr
      rw [Instruction.reads_eq hj] at hr
      cases hr
    · intro _ q ws hq
      rw [Instruction.flow_eq hop] at hq
      rw [Instruction.writes_eq hop] at hlive
      have hq : (q, ws) ∈ [(v.code.size + 1, i.writesOf op)] := by
        rcases hx with rfl | ⟨rfl, -⟩ <;> exact hq
      cases List.mem_singleton.1 hq
      exact .inl ⟨rfl, hlive⟩
    · intro _ q ws hq
      rw [Instruction.flow_eq hj] at hq
      cases List.mem_singleton.1 hq
      exact ⟨rfl, fun r hr => .inl hr⟩
    · rintro q k ⟨ms, l, hx, -⟩
      cases hx

theorem pushSetList (h : Sound v late P none live) (hop : i.opcode? = some .setList) (hk : i.k = 0)
    (hregs : ∀ r ∈ i.registers, r < v.maxStack) (hreads : ∀ r ∈ i.reads, live r) :
    Sound (v.push i) late P none live where
  shape := by
    refine h.shape.push (X := []) ?_ (by simp [hop]) ?_ (by simp [Pending.ownedBy])
      (by simp [Pending.ownedBy]) (by simp) (by simp)
    · rw [Instruction.demand_eq hop]
      simp [Instruction.demandOf, hk]
    · intro op' hop' hcase
      cases hop.symm.trans hop'
      rcases hcase with h | h | h <;> cases h
  bounds := by
    refine h.bounds.grow (X := []) (grows_push _ i) ?_ ?_ (by simp)
    · intro p k hp' hk
      obtain ⟨-, rfl⟩ := Shape.getElem?_push_cases hp' hk
      exact Instruction.returnForm_of hop rfl
    intro p k hp' hk r hr
    obtain ⟨-, rfl⟩ := Shape.getElem?_push_cases hp' hk
    exact .inl (hregs r hr)
  stack := h.stack
  cert hl := by
    obtain ⟨D, hc⟩ := h.cert hl
    refine ⟨_, hc.push (X := []) h.shape (fun r hr => hc.small _ r (hc.live r hr)) hreads ?_
      (by simp)
      ?_ (by simp)⟩
    · intro _ q ws hq
      rw [Instruction.flow_eq hop] at hq
      cases List.mem_singleton.1 hq
      exact ⟨rfl, fun r hr => .inl hr⟩
    · rintro q k ⟨ms, l, hx, -⟩
      cases hx

theorem mark {l : Nat} (h : Sound v late P none live) (hl : ∀ r < l, live r) :
    Sound v.mark late (.target v.code.size l :: P) none (· < l) where
  shape := h.shape.mark
  bounds := h.bounds.reframe (fun m ⟨ms, l, hx, hm⟩ => ⟨ms, l, List.mem_cons_of_mem _ hx, hm⟩)
    (by simp)
  stack := h.stack
  cert hl' := by
    obtain ⟨D, hc⟩ := h.cert hl'
    exact ⟨_, hc.mark h.shape hl⟩

theorem pushBools {l reg : Nat} (h : Sound v late P none live)
    (hi : i.opcode? = some .lFalseSkip) (hj : j.opcode? = some .loadTrue) (hia : i.a = reg)
    (hja : j.a = reg) (hreg : reg < v.maxStack) (hl : ∀ r < l, live r)
    (hlive : ∀ r, live' r → r < l ∨ r = reg) :
    Sound ((v.mark.push i).mark.push j) late
      (.target (v.code.size + 1) l :: .target v.code.size l :: P) none live' where
  shape := by
    have hs : Shape ((v.code.push i).push j) v.aims v.code.size
        ([] ++ .target v.code.size l :: P) none := h.shape.mark.pushTwo (.inr ?_)
      ?_ (by simp [hi]) ?_ (by simp [Pending.ownedBy]) (by simp [Pending.ownedBy]) (by simp)
        (by simp)
    · have ht : Enterable ((v.code.push i).push j) (v.code.push i).size (v.code.size + 1) := by
        refine ⟨by simp, ?_⟩
        intro q k hq hk
        obtain rfl : q = v.code.size := by omega
        rcases Cert.getElem?_push_push (Nat.le_refl _) hk with ⟨-, rfl⟩ | ⟨h', -⟩
        · right
          rw [Instruction.demand_eq hi]
          rfl
        · omega
      have hle : v.code.size ≤ (v.code.push i).size := by simp
      have hle' : (v.code.push i).size ≤ ((v.code.push i).push j).size := by simp
      exact hs.addTarget hle hle' ht
    · rw [Instruction.demand_eq hi]
      exact hj
    · rw [Instruction.demand_eq hj]
      rfl
    · intro op' hcase
      constructor
      · intro hop'
        cases hi.symm.trans hop'
        rcases hcase with h | h | h <;> cases h
      · intro hop'
        cases hj.symm.trans hop'
        rcases hcase with h | h | h <;> cases h
  bounds := by
    refine h.bounds.grow (X := [.target (v.code.size + 1) l, .target v.code.size l])
      ((grows_push _ i).trans (grows_push _ j)) ?_ ?_ (by simp)
    · intro p k hp' hk
      rcases Cert.getElem?_push_push hp' hk with ⟨-, rfl⟩ | ⟨-, rfl⟩
      · exact Instruction.returnForm_of hi rfl
      · exact Instruction.returnForm_of hj rfl
    intro p k hp' hk r hr
    rcases Cert.getElem?_push_push hp' hk with ⟨-, rfl⟩ | ⟨-, rfl⟩
    · rw [Instruction.registers_eq hi] at hr
      have : r = reg := (List.mem_singleton.1 hr).trans hia
      exact .inl (this ▸ hreg)
    · rw [Instruction.registers_eq hj] at hr
      have : r = reg := (List.mem_singleton.1 hr).trans hja
      exact .inl (this ▸ hreg)
  stack := h.stack
  cert hl' := by
    obtain ⟨D, hc⟩ := h.cert hl'
    have hs := h.stack
    have hm := hc.mark h.shape hl
    have hlt : ∀ r, r < l → r < 255 := fun r hr => hc.small _ r (hc.live r (hl r hr))
    refine ⟨_, hm.pushTwo (X := [.target (v.code.size + 1) l]) (M := (· < l))
      h.shape.mark hlt ?_ ?_ ?_ ?_ ?_ ?_ ?_ (by simp) ?_ (by simp)⟩
    · intro r hr
      rcases hlive r hr with hr | rfl
      · exact hlt r hr
      · omega
    · intro r hr
      rw [Instruction.reads_eq hi] at hr
      cases hr
    · intro _ r hr
      rw [Instruction.reads_eq hj] at hr
      cases hr
    · intro _ q ws hq
      rw [Instruction.flow_eq hi] at hq
      cases List.mem_singleton.1 hq
      refine .inr ⟨rfl, ?_, by rw [Instruction.demand_eq hj]; rfl, rfl⟩
      intro r hr
      exact (hlive r hr).imp_right fun h => by simp [hia, h]
    · intro _ q ws hq
      rw [Instruction.flow_eq hj] at hq
      cases List.mem_singleton.1 hq
      refine ⟨rfl, fun r hr => (hlive r hr).imp_right fun h => ?_⟩
      rw [show j.writesOf .loadTrue = [j.a] from rfl, hja, h]
      simp
    · simp only [List.mem_singleton]
      rintro x rfl r hr
      rwa [Cert.extend_new (by omega), Cert.between, if_pos rfl] at hr
    · rintro q k ⟨ms, l, hx, -⟩
      simp at hx
    · simp only [List.mem_singleton]
      rintro t l' ⟨⟩
      simp

theorem pushGoto {l : Nat} (h : Sound v late P none live) (hi : i.opcode? = some .jmp)
    (hsj : i.sj = JumpList.endOfList) (hj : j.opcode? = some .close) (hl : ∀ r < l, live r)
    (hlive : ∀ r, live' r → r < 255) :
    Sound ((v.push i).push j) late (.goto v.code.size l :: P) none live' where
  shape := by
    have hd : i.demand = .free := by
      rw [Instruction.demand_eq hi]
      rfl
    refine h.shape.pushTwo (X := [.goto v.code.size l]) (.inr ?_) ?_ (by simp [hi]) ?_
      (by simp [Pending.ownedBy, Pending.owned]) (by simp [Pending.ownedBy, Pending.owned]) ?_
      (by simp)
    · rw [hd]
      simp [Demand.Met, hj]
    · rw [Instruction.demand_eq hj]
      rfl
    · intro op' hcase
      constructor
      · intro _
        simp [Pending.ownedBy, Pending.owned]
      · intro hop'
        cases hj.symm.trans hop'
        rcases hcase with h | h | h <;> cases h
    · simp only [List.mem_singleton]
      rintro x rfl
      refine ⟨chain_one ?_ hi hsj, ⟨j, ?_, hj⟩, ?_⟩
      · exact grows_push _ _ _ _ (by simp)
      · rw [Array.getElem?_push, if_pos (by simp)]
      · intro q k hq hk
        have hlt : q < v.code.size := by omega
        exact h.shape.demand_last hq
          (((grows_push _ i).trans (grows_push _ j)).back hlt hk)
  bounds := by
    refine h.bounds.grow (X := [.goto v.code.size l]) ((grows_push _ i).trans (grows_push _ j)) ?_
      ?_ (by simp)
    · intro p k hp' hk
      rcases Cert.getElem?_push_push hp' hk with ⟨-, rfl⟩ | ⟨-, rfl⟩
      · exact Instruction.returnForm_of hi rfl
      · exact Instruction.returnForm_of hj rfl
    intro p k hp' hk r hr
    rcases Cert.getElem?_push_push hp' hk with ⟨-, rfl⟩ | ⟨-, rfl⟩
    · rw [Instruction.registers_eq hi] at hr
      cases hr
    · rw [Instruction.registers_eq hj] at hr
      cases hr
  stack := h.stack
  cert hl' := by
    obtain ⟨D, hc⟩ := h.cert hl'
    refine ⟨_, hc.pushTwo (X := [.goto v.code.size l]) (M := (· < 255)) h.shape (fun _ h => h) hlive
      ?_ ?_ ?_ ?_ ?_ ?_ (by simp) (by simp) (by simp)⟩
    · intro r hr
      rw [Instruction.reads_eq hi] at hr
      cases hr
    · intro _ r hr
      rw [Instruction.reads_eq hj] at hr
      cases hr
    · intro hown
      exact absurd (by simp [Pending.ownedBy, Pending.owned]) hown
    · intro _ q ws hq
      rw [Instruction.flow_eq hj] at hq
      cases List.mem_singleton.1 hq
      exact ⟨rfl, fun r hr => .inl (hlive r hr)⟩
    · simp only [List.mem_singleton]
      rintro x rfl r hr
      exact Cert.extend_self (hc.live r (hl r hr))
    · rintro q k ⟨ms, l, hx, -⟩
      simp at hx

theorem pushTable {reg : Nat} (h : Sound v late P none live) (hi : i.opcode? = some .newTable)
    (hj : j.opcode? = some .move) (hregs : ∀ r ∈ i.registers, r < v.maxStack)
    (hregs' : ∀ r ∈ j.registers, r < v.maxStack) (hreg : reg < 255)
    (hlive : ∀ r, live' r → live r ∨ r = reg) :
    Sound ((v.push i).push j) late (.table v.code.size reg :: P) none live' where
  shape := by
    refine h.shape.pushTwo (X := [.table v.code.size reg]) (.inl ⟨reg, by simp⟩) ?_ (by simp [hi])
      ?_
      (by simp [Pending.ownedBy, Pending.owned]) (by simp [Pending.ownedBy, Pending.owned]) ?_
      (by simp)
    · rw [Instruction.demand_eq hj]
      rfl
    · intro op' hcase
      constructor
      · intro _
        simp [Pending.ownedBy, Pending.owned]
      · intro hop'
        cases hj.symm.trans hop'
        rcases hcase with h | h | h <;> cases h
    · simp only [List.mem_singleton]
      rintro x rfl
      refine ⟨⟨i, ?_, hi⟩, ⟨j, ?_, hj⟩⟩
      · exact grows_push _ _ _ _ (by simp)
      · rw [Array.getElem?_push, if_pos (by simp)]
  bounds := by
    refine h.bounds.grow (X := [.table v.code.size reg])
      ((grows_push _ i).trans (grows_push _ j)) ?_ ?_ (by simp)
    · intro p k hp' hk
      rcases Cert.getElem?_push_push hp' hk with ⟨-, rfl⟩ | ⟨-, rfl⟩
      · exact Instruction.returnForm_of hi rfl
      · exact Instruction.returnForm_of hj rfl
    intro p k hp' hk r hr
    rcases Cert.getElem?_push_push hp' hk with ⟨-, rfl⟩ | ⟨-, rfl⟩
    · exact .inl (hregs r hr)
    · exact .inl (hregs' r hr)
  stack := h.stack
  cert hl := by
    obtain ⟨D, hc⟩ := h.cert hl
    have hsmall : ∀ r, live' r → r < 255 := by
      intro r hr
      rcases hlive r hr with hr | rfl
      · exact hc.small _ r (hc.live r hr)
      · exact hreg
    refine ⟨_, hc.pushTwo (X := [.table v.code.size reg]) (M := live') h.shape hsmall hsmall ?_ ?_
      ?_
      ?_ ?_ ?_ (by simp) (by simp) (by simp)⟩
    · intro r hr
      rw [Instruction.reads_eq hi] at hr
      cases hr
    · intro ht
      exact absurd (List.mem_singleton.2 rfl) (ht reg)
    · intro hown
      exact absurd (by simp [Pending.ownedBy, Pending.owned]) hown
    · intro _ q ws hq
      rw [Instruction.flow_eq hj] at hq
      cases List.mem_singleton.1 hq
      exact ⟨rfl, fun r hr => .inl hr⟩
    · simp only [List.mem_singleton]
      rintro x rfl r hr
      rw [Cert.extend_new (by omega), Cert.between, if_neg (by omega)] at hr
      exact (hlive r hr).imp_left fun h => Cert.extend_self (hc.live r h)
    · rintro q k ⟨ms, l, hx, -⟩
      simp at hx

theorem pushLoop {base l : Nat} {g : Bool} (h : Sound v late P none live)
    (hop : i.opcode? = some (if g then .tforPrep else .forPrep)) (ha : i.a = base)
    (hstack : base + loopSpan g ≤ v.maxStack)
    (hbase : ∀ r < base + (if g then 4 else 3), live r) (hlive : ∀ r, live' r → r < l)
    (hl : l ≤ 255) :
    Sound (v.push i) late (.loop v.code.size base l g :: P) none live' where
  shape := by
    refine h.shape.push (X := [.loop v.code.size base l g]) ?_ ?_ ?_
      (by simp [Pending.ownedBy, Pending.owned]) (by simp [Pending.ownedBy, Pending.owned]) ?_
      (by simp)
    · rw [Instruction.demand_eq hop]
      cases g <;> rfl
    · rw [hop]
      cases g <;> simp
    · intro _ _ _
      simp [Pending.ownedBy, Pending.owned]
    · simp only [List.mem_singleton]
      rintro x rfl
      exact ⟨i, by simp, ha, hop⟩
  bounds := by
    refine h.bounds.grow (X := [.loop v.code.size base l g]) (grows_push _ i) ?_ ?_ ?_
    · intro p k hp' hk
      obtain ⟨-, rfl⟩ := Shape.getElem?_push_cases hp' hk
      exact Instruction.returnForm_of hop (by cases g <;> rfl)
    · intro p k hp' hk r hr
      obtain ⟨-, rfl⟩ := Shape.getElem?_push_cases hp' hk
      rw [Instruction.registers_eq hop] at hr
      have : r < base + 4 := by
        have hr' : r ∈ List.range' k.a 4 := by cases g <;> exact hr
        rw [ha, List.mem_range'_1] at hr'
        omega
      refine .inl (Nat.lt_of_lt_of_le this (Nat.le_trans ?_ hstack))
      cases g <;> simp [loopSpan]
    · intro pc base' l' g' hx
      simp only [List.mem_singleton] at hx
      cases hx
      exact hstack
  stack := h.stack
  cert hl' := by
    obtain ⟨D, hc⟩ := h.cert hl'
    refine ⟨_, hc.push (X := [.loop v.code.size base l g]) h.shape ?_ ?_ ?_ ?_ ?_ (by simp)⟩
    · intro r hr
      exact Nat.lt_of_lt_of_le (hlive r hr) hl
    · intro r hr
      rw [Instruction.reads_eq hop] at hr
      refine hbase r ?_
      cases g
      · rw [show i.readsOf (if false = true then .tforPrep else .forPrep) = [i.a, i.a + 1, i.a + 2]
          from rfl, ha] at hr
        simp at hr ⊢
        omega
      · rw [show i.readsOf (if true = true then .tforPrep else .forPrep) = [i.a + 3] from rfl, ha]
          at hr
        simp at hr ⊢
        omega
    · intro hown
      exact absurd (by simp [Pending.ownedBy, Pending.owned]) hown
    · simp only [List.mem_singleton]
      rintro x rfl
      refine ⟨⟨?_, ?_⟩, by simp, by simp⟩
      · intro r hr
        rw [Cert.extend_new (by omega)] at hr
        exact hlive r hr
      · intro r hr
        exact Cert.extend_self (hc.live r (hbase r hr))
    · rintro q k ⟨ms, l, hx, -⟩
      simp at hx

/-! ### Lists of jumps -/

theorem perm {P' : List Pending} (h : Sound v late P o live) (hp : P'.Perm P) :
    Sound v late P' o live where
  shape := h.shape.reframe (fun x hx => .inl (hp.mem_iff.1 hx)) (hp.flatMap_right _)
    fun _ _ hr => hp.mem_iff.2 hr
  bounds := h.bounds.reframe (fun m ⟨ms, l, hx, hm⟩ => ⟨ms, l, hp.mem_iff.2 hx, hm⟩)
    fun _ _ _ _ hx => hp.mem_iff.1 hx
  stack := h.stack
  cert hl := by
    obtain ⟨D, hc⟩ := h.cert hl
    refine ⟨D, hc.reframe ?_ (fun p r hx => hp.mem_iff.2 hx)
      (fun x hx => hc.assigned x (hp.mem_iff.1 hx))
      ?_ (fun pc l hx => ⟨l, hp.mem_iff.1 hx⟩) (fun t l hx => ⟨l, hp.mem_iff.1 hx⟩)⟩
    · exact fun p => (hp.flatMap_right _).mem_iff.2
    · rintro q ⟨ms, l, hx, hm⟩
      exact .inl ⟨ms, l, hp.mem_iff.1 hx, hm⟩

theorem dropTarget {t l : Nat} (h : Sound v late (.target t l :: P) o live) :
    Sound v late P o live where
  shape := h.shape.reframe (fun x hx => .inl (List.mem_cons_of_mem _ hx)) (.refl _) (by simp)
  bounds := h.bounds.reframe (fun m ⟨ms, l, hx, hm⟩ => ⟨ms, l, by simpa using hx, hm⟩)
    fun _ _ _ _ hx => List.mem_cons_of_mem _ hx
  stack := h.stack
  cert hl := by
    obtain ⟨D, hc⟩ := h.cert hl
    refine ⟨D, hc.reframe (fun p hp => hp) (by simp)
      (fun x hx => hc.assigned x (List.mem_cons_of_mem _ hx))
      ?_ (fun pc l hx => ⟨l, List.mem_cons_of_mem _ hx⟩)
        (fun t l hx => ⟨l, List.mem_cons_of_mem _ hx⟩)⟩
    rintro q ⟨ms, l, hx, hm⟩
    exact .inl ⟨ms, l, List.mem_cons_of_mem _ hx, hm⟩

theorem addNil (l : Nat) (h : Sound v late P o live) : Sound v late (.list [] l :: P) o live where
  shape := by
    refine h.shape.reframe ?_ (.refl _) (by simp)
    intro x hx
    rcases List.mem_cons.1 hx with rfl | hx
    · exact .inr ⟨l, rfl⟩
    · exact .inl hx
  bounds := h.bounds.reframe (fun m ⟨ms, l, hx, hm⟩ => ⟨ms, l, List.mem_cons_of_mem _ hx, hm⟩)
    (by simp)
  stack := h.stack
  cert hl := by
    obtain ⟨D, hc⟩ := h.cert hl
    refine ⟨D, hc.reframe (fun p hp => hp) (fun p r hx => List.mem_cons_of_mem _ hx) ?_ ?_
      (fun pc l hx => ⟨l, by simpa using hx⟩) (fun t l hx => ⟨l, by simpa using hx⟩)⟩
    · intro x hx
      rcases List.mem_cons.1 hx with rfl | hx
      · intro m hm
        cases hm
      · exact hc.assigned x hx
    · rintro q ⟨ms, l', hx, hm⟩
      rcases List.mem_cons.1 hx with hx | hx
      · cases hx
        cases hm
      · exact .inl ⟨ms, l', hx, hm⟩

theorem dropNil {l : Nat} (h : Sound v late (.list [] l :: P) o live) : Sound v late P o live where
  shape := h.shape.reframe (fun x hx => .inl (List.mem_cons_of_mem _ hx)) (.refl _) (by simp)
  bounds := by
    refine h.bounds.reframe ?_ fun _ _ _ _ hx => List.mem_cons_of_mem _ hx
    rintro m ⟨ms, l', hx, hm⟩
    rcases List.mem_cons.1 hx with hx | hx
    · cases hx
      cases hm
    · exact ⟨ms, l', hx, hm⟩
  stack := h.stack
  cert hl := by
    obtain ⟨D, hc⟩ := h.cert hl
    refine ⟨D, hc.reframe (fun p hp => hp) (by simp)
      (fun x hx => hc.assigned x (List.mem_cons_of_mem _ hx))
      ?_ (fun pc l hx => ⟨l, List.mem_cons_of_mem _ hx⟩)
        (fun t l hx => ⟨l, List.mem_cons_of_mem _ hx⟩)⟩
    rintro q ⟨ms, l', hx, hm⟩
    exact .inl ⟨ms, l', List.mem_cons_of_mem _ hx, hm⟩

theorem relist {ms : List Nat} {l l' : Nat} (h : Sound v late (.list ms l :: P) o live)
    (hl : late = true ∨ l' ≤ l) : Sound v late (.list ms l' :: P) o live where
  shape := by
    refine ⟨h.shape.first, ?_, h.shape.jumps, h.shape.numeric, h.shape.generic, ?_, h.shape.nodup,
      h.shape.last, h.shape.reloc⟩
    · intro p i hi ht
      exact h.shape.next p i hi fun r hr => ht r (by simpa using hr)
    · intro x hx
      rcases List.mem_cons.1 hx with rfl | hx
      · exact h.shape.holds (.list ms l) (List.mem_cons_self ..)
      · exact h.shape.holds x (List.mem_cons_of_mem _ hx)
  bounds := by
    refine h.bounds.reframe ?_ (by simp)
    rintro m ⟨ms', l₀, hx, hm⟩
    rcases List.mem_cons.1 hx with hx | hx
    · cases hx
      exact ⟨ms, l', List.mem_cons_self .., hm⟩
    · exact ⟨ms', l₀, List.mem_cons_of_mem _ hx, hm⟩
  stack := h.stack
  cert hlate := by
    obtain ⟨D, hc⟩ := h.cert hlate
    refine ⟨D, hc.reframe (fun p hp => hp) (by simp) ?_ ?_ (fun pc l hx => ⟨l, by simpa using hx⟩)
      (fun t l hx => ⟨l, by simpa using hx⟩)⟩
    · intro x hx
      rcases List.mem_cons.1 hx with rfl | hx
      · rcases hl with hl | hl
        · rw [hl] at hlate
          cases hlate
        · exact fun m hm r hr => hc.assigned _ (List.mem_cons_self ..) m hm r (by omega)
      · exact hc.assigned x (List.mem_cons_of_mem _ hx)
    · rintro q ⟨ms', l₀, hx, hm⟩
      rcases List.mem_cons.1 hx with hx | hx
      · cases hx
        exact .inl ⟨ms, l, List.mem_cons_self .., hm⟩
      · exact .inl ⟨ms', l₀, List.mem_cons_of_mem _ hx, hm⟩

theorem regoto {pc l l' : Nat} (h : Sound v late (.goto pc l :: P) o live) (hl : l' ≤ l) :
    Sound v late (.goto pc l' :: P) o live where
  shape := by
    refine ⟨h.shape.first, ?_, h.shape.jumps, h.shape.numeric, h.shape.generic, ?_, h.shape.nodup,
      h.shape.last, h.shape.reloc⟩
    · intro p i hi ht
      exact h.shape.next p i hi fun r hr => ht r (by simpa using hr)
    · intro x hx
      rcases List.mem_cons.1 hx with rfl | hx
      · exact h.shape.holds (.goto pc l) (List.mem_cons_self ..)
      · exact h.shape.holds x (List.mem_cons_of_mem _ hx)
  bounds := by
    refine h.bounds.reframe ?_ (by simp)
    rintro m ⟨ms', l₀, hx, hm⟩
    exact ⟨ms', l₀, by simpa using hx, hm⟩
  stack := h.stack
  cert hlate := by
    obtain ⟨D, hc⟩ := h.cert hlate
    refine ⟨D, hc.reframe (fun p hp => hp) (by simp) ?_ ?_ ?_
      (fun t l hx => ⟨l, by simpa using hx⟩)⟩
    · intro x hx
      rcases List.mem_cons.1 hx with rfl | hx
      · exact fun r hr => hc.assigned _ (List.mem_cons_self ..) r (by omega)
      · exact hc.assigned x (List.mem_cons_of_mem _ hx)
    · rintro q ⟨ms, l₀, hx, hm⟩
      exact .inl ⟨ms, l₀, by simpa using hx, hm⟩
    · intro pc' l₀ hx
      rcases List.mem_cons.1 hx with hx | hx
      · cases hx
        exact ⟨l, List.mem_cons_self ..⟩
      · exact ⟨l₀, List.mem_cons_of_mem _ hx⟩

theorem gotoList {pc l : Nat} (h : Sound v late (.goto pc l :: P) o live) :
    Sound v late (.list [pc] l :: P) o live where
  shape := h.shape.gotoList
  bounds := by
    refine h.bounds.reframe ?_ (by simp)
    rintro m ⟨ms', l₀, hx, hm⟩
    exact ⟨ms', l₀, List.mem_cons_of_mem _ (by simpa using hx), hm⟩
  stack := h.stack
  cert hl := by
    obtain ⟨D, hc⟩ := h.cert hl
    refine ⟨D, hc.reframe (fun p hp => hp) (by simp) ?_ ?_ ?_
      (fun t l hx => ⟨l, by simpa using hx⟩)⟩
    · intro x hx
      rcases List.mem_cons.1 hx with rfl | hx
      · intro m hm r hr
        cases List.mem_singleton.1 hm
        exact hc.assigned _ (List.mem_cons_self ..) r hr
      · exact hc.assigned x (List.mem_cons_of_mem _ hx)
    · rintro q ⟨ms, l₀, hx, hm⟩
      rcases List.mem_cons.1 hx with hx | hx
      · cases hx
        right
        rintro ⟨k, hk, hop⟩
        have hd := (h.shape.holds _ (List.mem_cons_self ..)).2.2 q k (List.mem_singleton.1 hm) hk
        rw [Instruction.demand_eq hop] at hd
        cases hd
      · exact .inl ⟨ms, l₀, List.mem_cons_of_mem _ hx, hm⟩
    · intro pc' l₀ hx
      exact ⟨l₀, List.mem_cons_of_mem _ (by simpa using hx)⟩

theorem join {ms ms' : List Nat} {l : Nat} {code' : Code}
    (h : Sound v late (.list ms l :: .list ms' l :: Q) o live)
    (hj : JumpList.Joined v.code code' (ms ++ ms')) :
    Sound { v with code := code' } late (.list (ms ++ ms') l :: Q) o live where
  shape := h.shape.join hj
  bounds := by
    have hops : ∀ p ∈ ms ++ ms', IsOp v.code p .jmp := by
      intro p hp
      rcases List.mem_append.1 hp with hp | hp
      · exact Chain.isOp (h.shape.holds _ (List.mem_cons_self ..)) hp
      · exact Chain.isOp (h.shape.holds _ (List.mem_cons_of_mem _ (List.mem_cons_self ..))) hp
    refine h.bounds.update hj.size ?_ ?_
    · intro p k k' hk hk'
      by_cases hp : p ∈ ms ++ ms'
      · right
        obtain ⟨k₀, hk₀, hop⟩ := hops p hp
        cases hk.symm.trans hk₀
        have hop' : k'.opcode? = some .jmp := by
          obtain ⟨w, hw | hw⟩ := hj.jump p k hp hk
          · cases hk'.symm.trans hw
            simpa using hop
          · cases hk'.symm.trans hw
            exact hop
        refine ⟨?_, _, hop', rfl⟩
        intro r hr
        rw [Instruction.registers_eq hop'] at hr
        cases hr
      · rw [hj.same p hp, hk] at hk'
        cases hk'
        refine .inl ⟨rfl, ?_⟩
        rintro ⟨ms₁, l₁, hx, hm⟩ -
        rcases List.mem_cons.1 hx with hx | hx
        · cases hx
          exact ⟨ms ++ ms', l, List.mem_cons_self .., List.mem_append_left _ hm⟩
        · rcases List.mem_cons.1 hx with hx | hx
          · cases hx
            exact ⟨ms ++ ms', l, List.mem_cons_self .., List.mem_append_right _ hm⟩
          · exact ⟨ms₁, l₁, List.mem_cons_of_mem _ hx, hm⟩
    · intro pc base l' g hx
      simp only [List.mem_cons, reduceCtorEq, false_or] at hx ⊢
      exact hx
  stack := h.stack
  cert hl := by
    obtain ⟨D, hc⟩ := h.cert hl
    have hc' : Cert D v.code v.numParams (.list (ms ++ ms') l :: Q) o live := by
      refine hc.reframe ?_ (by simp) ?_ ?_ (fun pc l hx => ⟨l, by simpa using hx⟩)
        (fun t l hx => ⟨l, by simpa using hx⟩)
      · intro p hp
        simpa [Pending.ownedBy_cons, Pending.owned] using hp
      · intro x hx
        rcases List.mem_cons.1 hx with rfl | hx
        · intro m hm
          rcases List.mem_append.1 hm with hm | hm
          · exact hc.assigned _ (List.mem_cons_self ..) m hm
          · exact hc.assigned _ (List.mem_cons_of_mem _ (List.mem_cons_self ..)) m hm
        · exact hc.assigned x (List.mem_cons_of_mem _ (List.mem_cons_of_mem _ hx))
      · rintro q ⟨ms₁, l₁, hx, hm⟩
        rcases List.mem_cons.1 hx with hx | hx
        · cases hx
          rcases List.mem_append.1 hm with hm | hm
          · exact .inl ⟨ms, l, List.mem_cons_self .., hm⟩
          · exact .inl ⟨ms', l, List.mem_cons_of_mem _ (List.mem_cons_self ..), hm⟩
        · exact .inl ⟨ms₁, l₁, List.mem_cons_of_mem _ (List.mem_cons_of_mem _ hx), hm⟩
    refine ⟨D, hc'.rethread ?_ hj⟩
    intro p hp
    rcases List.mem_append.1 hp with hp | hp
    · exact Chain.isOp (h.shape.holds _ (List.mem_cons_self ..)) hp
    · exact Chain.isOp (h.shape.holds _ (List.mem_cons_of_mem _ (List.mem_cons_self ..))) hp

theorem registers_redirected (hop : i.opcode? = some .testSet) {n : Nat} (hb : i.b < n)
    (hn : n ≤ 254) {reg : Option Nat} (hr : ∀ ρ, reg = some ρ → ρ < n) :
    ∀ r ∈ (JumpList.redirected i reg).registers, r < n := by
  have hk : i.k ≤ 1 := by
    have : i.k < 2 := Nat.mod_lt _ (by decide)
    omega
  have hplain : ∀ r ∈ (Opcode.test.abck i.b 0 0 i.k).registers, r < n := by
    have ho : (Opcode.test.abck i.b 0 0 i.k).opcode? = some .test := by
      simp [Instruction.opcode?]
    have ha := @Draft.get_abck .test i.b 0 0 i.k (Draft.fits_abck.2 ⟨(by omega : i.b ≤ 255),
      (by omega : 0 ≤ 255), (by omega : 0 ≤ 255), hk⟩)
    simp only [Draft.word] at ha
    intro r hr
    rw [Instruction.registers_eq ho] at hr
    have hra : r = (Opcode.test.abck i.b 0 0 i.k).a := List.mem_singleton.1 hr
    omega
  unfold JumpList.redirected
  cases reg with
  | none => exact hplain
  | some ρ =>
    simp only
    split
    · exact hplain
    · have ho : (i.setA ρ).opcode? = some .testSet := by
        rw [Instruction.setA, Instruction.opcode?_set i _ (by decide), hop]
      have hρ := hr ρ rfl
      have ha : (i.setA ρ).a = ρ := Instruction.get_set_fits i
        ((Instruction.Field.fits_iff _ _).2
          (by simp only [Instruction.Field.limit, Instruction.Field.a, Nat.pow_eq]; omega))
        (by decide) (by decide)
      have hb' : (i.setA ρ).b = i.b := Instruction.get_set_apart i _ (by decide)
      intro r hr'
      rw [Bounds.registers_testSet ho, ha, hb'] at hr'
      simp only [List.mem_cons, List.not_mem_nil, or_false] at hr'
      omega

theorem redirected_op (hop : i.opcode? = some .testSet) (reg : Option Nat) :
    ∃ op, (JumpList.redirected i reg).opcode? = some op ∧ op.isReturn = false := by
  obtain ⟨⟨-, op, -, hop, -, he, -⟩, -⟩ := Shape.redirected_alike hop reg
  exact ⟨op, hop, by cases op <;> first | rfl | cases he⟩

theorem retest {ms : List Nat} {code' : Code} (h : Sound v late P o live)
    (hms : ∀ m ∈ ms, Pending.Listed P m) (hr : JumpList.Retested v.code code' ms none) :
    Sound { v with code := code' } late P o live where
  shape := h.shape.retest hr
  bounds := by
    refine h.bounds.update hr.size ?_ (fun _ _ _ _ h => h)
    intro p k k' hk hk'
    by_cases hp : p + 1 ∈ ms ∧ k.opcode? = some .testSet
    · right
      rw [hr.test p k hp.1 hk hp.2] at hk'
      cases hk'
      exact ⟨registers_redirected hp.2 (h.bounds.testSet_lt hk hp.2) h.stack (by simp),
        redirected_op hp.2 none⟩
    · rw [hr.same p, hk] at hk'
      · cases hk'
        exact .inl ⟨rfl, fun h _ => h⟩
      · rintro hm ⟨k₀, hk₀, hop⟩
        cases hk.symm.trans hk₀
        exact hp ⟨hm, hop⟩
  stack := h.stack
  cert hl := by
    obtain ⟨D, hc⟩ := h.cert hl
    refine ⟨D, hc.retest hms hr ?_⟩
    intro p k hk hop
    have := h.bounds.testSet_lt hk hop
    have := h.stack
    omega

theorem aim {ms : List Nat} {l vt : Nat} {reg plain : Option Nat} {new : List (Nat × Nat)}
    {code' : Code} (h : Sound v late (.list ms l :: Q) none live)
    (ha : JumpList.Aimed v.code code' ms vt reg plain new)
    (hv : (∃ q, q + 1 ∈ ms ∧ IsOp v.code q .testSet) →
      ∃ lt, .target vt lt ∈ Q ∧ ∀ r < lt, r < l ∨ reg = some r)
    (hp : ∀ t, plain = some t → ∃ lt, .target t lt ∈ Q ∧ lt ≤ l)
    (hreg : ∀ ρ, reg = some ρ → ρ < v.maxStack) :
    Sound { v with code := code', aims := new ++ v.aims } late Q none live where
  shape := by
    refine h.shape.aim ha ?_ ?_
    · intro he
      obtain ⟨lt, hx, -⟩ := hv he
      exact h.shape.holds _ (List.mem_cons_of_mem _ hx)
    · intro t ht
      obtain ⟨lt, hx, -⟩ := hp t ht
      exact h.shape.holds _ (List.mem_cons_of_mem _ hx)
  bounds := by
    have hops : ∀ p ∈ ms, IsOp v.code p .jmp :=
      fun p hp => Chain.isOp (h.shape.holds _ (List.mem_cons_self ..)) hp
    refine h.bounds.update ha.size ?_ (fun _ _ _ _ h => List.mem_cons_of_mem _ h)
    intro p k k' hk hk'
    by_cases hm : p ∈ ms
    · right
      obtain ⟨k₀, hk₀, hop⟩ := hops p hm
      cases hk.symm.trans hk₀
      obtain ⟨t, -, ht, -⟩ := ha.jump p k hm hk
      cases hk'.symm.trans ht
      have hop' : (k.setSJ ((t : Int) - (p + 1))).opcode? = some .jmp := by simpa using hop
      refine ⟨?_, _, hop', rfl⟩
      intro r hr
      rw [Instruction.registers_eq hop'] at hr
      cases hr
    · by_cases hs : p + 1 ∈ ms ∧ k.opcode? = some .testSet
      · right
        rw [ha.test p k hs.1 hk hs.2] at hk'
        cases hk'
        exact ⟨registers_redirected hs.2 (h.bounds.testSet_lt hk hs.2) h.stack hreg,
          redirected_op hs.2 reg⟩
      · rw [ha.same p hm, hk] at hk'
        · cases hk'
          refine .inl ⟨rfl, ?_⟩
          rintro ⟨ms', l', hx, hm'⟩ hop
          rcases List.mem_cons.1 hx with hx | hx
          · cases hx
            exact absurd ⟨hm', hop⟩ hs
          · exact ⟨ms', l', hx, hm'⟩
        · rintro hm' ⟨k₀, hk₀, hop⟩
          cases hk.symm.trans hk₀
          exact hs ⟨hm', hop⟩
  stack := h.stack
  cert hl := by
    obtain ⟨D, hc⟩ := h.cert hl
    have hs := h.stack
    refine ⟨_, hc.aim h.shape ha hv hp ?_ ?_⟩
    · intro ρ hρ
      have := hreg ρ hρ
      omega
    · intro p k hk hop
      have := h.bounds.testSet_lt hk hop
      omega

/-! ### Changes of operands -/

theorem alike_of (hop : i.opcode? = some op) (hop' : j.opcode? = some op)
    (he : op.isEditable = true) (hd : j.demand = i.demand) (ha : op = .mmBinI → j.a = i.a) :
    Alike i j :=
  ⟨⟨op, op, hop, hop', he, he, fun h => ⟨h, ha h⟩⟩, hd⟩

theorem editNeutral {p : Nat} {f : Instruction → Instruction} (h : Sound v late P o live)
    (hi : v.code[p]? = some i) (hop : i.opcode? = some op) (hop' : (f i).opcode? = some op)
    (he : op.isEditable = true) (hd : (f i).demand = i.demand) (ha : (f i).a = i.a)
    (hreads : (f i).reads = i.reads) (hflow : (f i).flow p = i.flow p)
    (hregs : (f i).registers = i.registers) (hb : op = .testSet → (f i).b = i.b)
    (ho : ∀ pc, o = some pc → pc ≠ p) : Sound (v.modify p f) late P o live where
  shape := by
    refine h.shape.editAt hi (alike_of hop hop' he hd fun _ => ha) ?_
    intro pc hpc
    have hr := h.shape.reloc pc hpc
    refine ⟨?_, hr.last, ?_⟩
    · obtain ⟨k, op', hk, hrest⟩ := hr.op
      exact ⟨k, op', (JumpList.getElem?_modify_ne (Ne.symm (ho pc hpc)) f).trans hk, hrest⟩
    · intro q hq hqs
      simp only [Array.size_modify] at hqs
      obtain ⟨op', ho', hp'⟩ := hr.after q hq hqs
      by_cases hpq : p = q
      · subst hpq
        cases ho'.unique ⟨i, hi, hop⟩
        exact ⟨op, ⟨_, JumpList.getElem?_modify_self hi f, hop'⟩, hp'⟩
      · exact ⟨op', ho'.congr (JumpList.getElem?_modify_ne hpq f), hp'⟩
  bounds := by
    refine ⟨?_, h.bounds.loops, ?_⟩
    · intro q k hk r hr
      by_cases hpq : p = q
      · subst hpq
        rw [CodeView.modify, JumpList.getElem?_modify_self hi f] at hk
        cases hk
        rw [hregs] at hr
        refine (h.bounds.registers p i hi r hr).imp_right ?_
        rintro ⟨hts, hb', hl⟩
        cases hop.symm.trans hts
        exact ⟨hop', by rw [hb rfl]; exact hb', hl⟩
      · rw [CodeView.modify, JumpList.getElem?_modify_ne hpq] at hk
        exact h.bounds.registers q k hk r hr
    · intro q k hk
      by_cases hpq : p = q
      · subst hpq
        rw [CodeView.modify, JumpList.getElem?_modify_self hi f] at hk
        cases hk
        exact Instruction.returnForm_of hop' (by cases op <;> first | rfl | cases he)
      · rw [CodeView.modify, JumpList.getElem?_modify_ne hpq] at hk
        exact h.bounds.returns q k hk
  stack := h.stack
  cert hl := by
    obtain ⟨D, hc⟩ := h.cert hl
    exact ⟨D, hc.editAt hi (hop'.trans hop.symm) hd ha hreads (.inl hflow)⟩

theorem readsOf_setA (reg : Nat) (hr : op.isRelocatable = true) :
    (i.setAll [(.a, reg)]).readsOf op = i.readsOf op := by
  have hb : (i.setAll [(.a, reg)]).b = i.b := Instruction.get_setAll_apart .b _ i rfl
  have hc : (i.setAll [(.a, reg)]).c = i.c := Instruction.get_setAll_apart .c _ i rfl
  have h₁ : [(i.setAll [(.a, reg)]).b] = [i.b] := by rw [hb]
  have h₂ : [(i.setAll [(.a, reg)]).b, (i.setAll [(.a, reg)]).c] = [i.b, i.c] := by rw [hb, hc]
  cases op <;> first | rfl | exact h₁ | exact h₂ | exact absurd hr (by decide)

theorem a_setA {reg : Nat} (hreg : reg ≤ 255) : (i.setAll [(.a, reg)]).a = reg :=
  Instruction.get_set_fits i
    ((Instruction.Field.fits_iff _ _).2
      (by simp only [Instruction.Field.limit, Instruction.Field.a, Nat.pow_eq]; omega))
    (by decide) (by decide)

theorem registers_setA {reg : Nat} (hop : i.opcode? = some op) (hr : op.isRelocatable = true)
    (hv : op = .vararg → i.c = 2) (hreg : reg ≤ 255) :
    ∀ r ∈ (i.setAll [(.a, reg)]).registers, r = reg ∨ r ∈ i.registers := by
  have hop' : (i.setAll [(.a, reg)]).opcode? = some op :=
    (Instruction.opcode?_setAll _ _ rfl).trans hop
  have ha : (i.setAll [(.a, reg)]).a = reg := a_setA hreg
  have hc : (i.setAll [(.a, reg)]).c = i.c := Instruction.get_setAll_apart .c _ i rfl
  intro r hr'
  rw [Instruction.registers_eq hop'] at hr'
  rw [Instruction.registers_eq hop]
  by_cases hva : op = .vararg
  · subst hva
    rcases List.mem_cons.1 hr' with hr' | hr'
    · exact .inl (hr'.trans ha)
    · rw [hc, hv rfl, ha] at hr'
      exact .inl (List.mem_singleton.1 hr')
  · have hsplit : ∀ k : Instruction, k.registersOf op = k.readsOf op ++ [k.a] := by
      intro k
      cases op <;> first | rfl | exact absurd hr (by decide) | exact absurd rfl hva
    rw [hsplit, readsOf_setA reg hr] at hr'
    rw [hsplit]
    rcases List.mem_append.1 hr' with hr' | hr'
    · exact .inr (List.mem_append_left _ hr')
    · exact .inl ((List.mem_singleton.1 hr').trans ha)

theorem demand_setA {reg : Nat} (hop : i.opcode? = some op) (hr : op.isRelocatable = true) :
    (i.setAll [(.a, reg)]).demand = i.demand := by
  have hop' : (i.setAll [(.a, reg)]).opcode? = some op :=
    (Instruction.opcode?_setAll _ _ rfl).trans hop
  rw [Instruction.demand_eq hop, Instruction.demand_eq hop']
  have hb : (i.setAll [(.a, reg)]).b = i.b := Instruction.get_setAll_apart .b _ i rfl
  cases op <;> first
    | rfl
    | (exact absurd hr (by decide))
    | (simp only [Instruction.demandOf, hb])

theorem setOpen {pc reg : Nat} (h : Sound v late P (some pc) live) (hreg : reg < v.maxStack)
    (hlive : ∀ r, live' r → live r ∨ r = reg) :
    Sound (v.modify pc (·.setAll [(.a, reg)])) late P none live' where
  shape := by
    obtain ⟨i, op, hi, hop, hr, hv⟩ := (h.shape.reloc pc rfl).op
    refine h.shape.editAt (f := (·.setAll [(.a, reg)])) hi ?_ (by simp)
    have hop' : (i.setAll [(.a, reg)]).opcode? = some op :=
      (Instruction.opcode?_setAll _ _ rfl).trans hop
    refine alike_of hop hop' ?_ ?_ ?_
    · cases op <;> first | rfl | exact absurd hr (by decide)
    · exact demand_setA hop hr
    · rintro rfl
      cases hr
  bounds := by
    obtain ⟨i, op, hi, hop, hr, hv⟩ := (h.shape.reloc pc rfl).op
    refine h.bounds.editAt (f := (·.setAll [(.a, reg)])) hi ?_
      ((Instruction.opcode?_setAll _ _ rfl).trans hop) (by cases op <;> first | rfl | cases hr)
    have hs := h.stack
    intro r hr'
    rcases registers_setA hop hr hv (by omega) r hr' with rfl | hr'
    · exact hreg
    · refine h.bounds.lt hi ?_ r hr'
      apply Instruction.ne_of_opcode hop
      rintro rfl
      cases hr
  stack := h.stack
  cert hl := by
    obtain ⟨D, hc⟩ := h.cert hl
    obtain ⟨i, op, hi, hop, hr, hv⟩ := (h.shape.reloc pc rfl).op
    have hs := h.stack
    have hop' : (i.setAll [(.a, reg)]).opcode? = some op :=
      (Instruction.opcode?_setAll _ _ rfl).trans hop
    refine ⟨_, hc.setOpen (f := (·.setAll [(.a, reg)])) h.shape hi hop hr hv hop' ?_
      (a_setA (by omega))
      ?_ (demand_setA hop hr) (by omega) hlive⟩
    · intro hva
      rw [← hv hva]
      exact Instruction.get_setAll_apart .c _ i rfl
    · rw [Instruction.reads_eq hop', Instruction.reads_eq hop]
      exact readsOf_setA reg hr

theorem editLast {p : Nat} {f : Instruction → Instruction} (h : Sound v late P none live)
    (hp : p + 1 = v.code.size) (hL : v.lastTarget ≤ p) (hi : v.code[p]? = some i)
    (hop : i.opcode? = some op) (hop' : (f i).opcode? = some op)
    (hpl : op = .call ∨ op = .vararg ∨ op = .loadNil ∨ op = .concat)
    (hregs : ∀ r ∈ (f i).registers, r < v.maxStack)
    (hreads : ∀ r ∈ (f i).reads, r ∈ i.reads ∨ live r ∧ r ∉ i.writes)
    (hlive : ∀ r, live' r → live r ∧ r ∉ i.writes ∨ r ∈ i.reads ∨ r ∈ (f i).writes) :
    Sound (v.modify p f) late P none live' where
  shape := by
    refine h.shape.editAt hi (alike_of hop hop' ?_ ?_ ?_) (by simp)
    · rcases hpl with rfl | rfl | rfl | rfl <;> rfl
    · rw [Instruction.demand_eq hop, Instruction.demand_eq hop']
      rcases hpl with rfl | rfl | rfl | rfl <;> rfl
    · rintro rfl
      simp at hpl
  bounds := h.bounds.editAt hi hregs hop' (by rcases hpl with rfl | rfl | rfl | rfl <;> rfl)
  stack := h.stack
  cert hl := by
    obtain ⟨D, hc⟩ := h.cert hl
    have hpl' : op.isPlain = true := by rcases hpl with rfl | rfl | rfl | rfl <;> rfl
    have htab : ∀ q r, .table q r ∈ P → p ≠ q + 1 := by
      rintro q r hx rfl
      cases (h.shape.holds _ hx).2.unique ⟨i, hi, hop⟩
      simp at hpl
    -- what is assigned after the instruction and not by it is assigned before
    have hbefore : ∀ r, live r → r ∉ i.writes → D p r := by
      intro r hr hw
      refine (hc.step p (p + 1) i.writes ⟨i, hi, ?_, ?_⟩ r (hp ▸ hc.live r hr)).resolve_right hw
      · refine h.shape.not_owned ⟨i, hi, hop⟩ ?_
        rcases hpl with rfl | rfl | rfl | rfl <;> simp [Opcode.IsAimed]
      · rw [Instruction.flow_plain hop hpl']
        exact List.mem_singleton.2 rfl
    have hd : (f i).demand = i.demand := by
      rw [Instruction.demand_plain hop hpl', Instruction.demand_plain hop' hpl']
    have hlive' : ∀ r, live' r → D p r ∨ r ∈ (f i).writes := by
      intro r hr
      rcases hlive r hr with ⟨hr, hw⟩ | hr | hr
      · exact .inl (hbefore r hr hw)
      · exact .inl (hc.reads p i hi htab r hr)
      · exact .inr hr
    refine ⟨_, hc.editLast h.shape hL hp hi hop hpl ?_ ?_ hd ?_ ?_ (by simp)⟩
    · intro q ws hq
      rw [Instruction.flow_plain hop' hpl'] at hq
      cases List.mem_singleton.1 hq
      exact ⟨rfl, hlive'⟩
    · intro r hr
      rcases hreads r hr with hr | ⟨hr, hw⟩
      · exact hc.reads p i hi htab r hr
      · exact hbefore r hr hw
    · rw [hop']
      rcases hpl with rfl | rfl | rfl | rfl <;> simp
    · intro r hr
      rcases hlive' r hr with hr | hr
      · exact hc.small p r hr
      · have := hregs r (Instruction.writes_subset hr)
        have := h.stack
        omega

theorem editTail {p : Nat} {f : Instruction → Instruction} (h : Sound v late P none live)
    (hp : p + 1 = v.code.size) (hi : v.code[p]? = some i) (hop : i.opcode? = some .call)
    (hop' : (f i).opcode? = some .tailCall) (ha : (f i).a = i.a) (hb : (f i).b = i.b)
    (hlive : ∀ r, live' r → r < 255) (hL : v.lastTarget ≤ p) :
    Sound (v.modify p f) late P none live' where
  shape := by
    refine h.shape.editAt hi ⟨⟨_, _, hop, hop', rfl, rfl, by simp⟩, ?_⟩ (by simp)
    rw [Instruction.demand_eq hop, Instruction.demand_eq hop']
    rfl
  bounds := by
    refine h.bounds.editAt hi ?_ hop' rfl
    intro r hr
    refine h.bounds.lt hi (by simp [hop]) r ?_
    rw [Instruction.registers_eq hop'] at hr
    rw [Instruction.registers_eq hop]
    rw [show (f i).registersOf .tailCall = List.range' (f i).a (max (f i).b 1) ++ [] from rfl, ha,
      hb,
      List.append_nil] at hr
    exact List.mem_append_left _ hr
  stack := h.stack
  cert hl := by
    obtain ⟨D, hc⟩ := h.cert hl
    refine ⟨_, hc.editLast h.shape hL hp hi hop (.inl rfl) ?_ ?_ ?_ (by simp [hop']) hlive
      (by simp)⟩
    · intro q ws hq
      rw [Instruction.flow_eq hop'] at hq
      cases hq
    · intro r hr
      refine hc.reads p i hi ?_ r ?_
      · rintro q r hx rfl
        cases (h.shape.holds _ hx).2.unique ⟨i, hi, hop⟩
      · rw [Instruction.reads_eq hop'] at hr
        rw [Instruction.reads_eq hop]
        rw [show (f i).readsOf .tailCall = List.range' (f i).a (max (f i).b 1) from rfl, ha, hb]
          at hr
        exact hr
    · rw [Instruction.demand_eq hop, Instruction.demand_eq hop']
      rfl

theorem openVararg {p : Nat} {f : Instruction → Instruction} (h : Sound v late P none live)
    (hp : p + 1 = v.code.size) (hL : v.lastTarget ≤ p) (hi : v.code[p]? = some i)
    (hop : i.opcode? = some .vararg) (hc₁ : i.c = 1) (hop' : (f i).opcode? = some .vararg)
    (hc' : (f i).c = 2) (ha : (f i).a = i.a) : Sound (v.modify p f) late P (some p) live where
  shape := by
    refine h.shape.editAt hi (alike_of hop hop' rfl ?_ (by simp)) ?_
    · rw [Instruction.demand_eq hop, Instruction.demand_eq hop']
      rfl
    · rintro pc ⟨⟩
      refine ⟨⟨_, _, JumpList.getElem?_modify_self hi f, hop', rfl, fun _ => hc'⟩, hL, ?_⟩
      intro q hq hqs
      simp only [Array.size_modify] at hqs
      omega
  bounds := by
    refine h.bounds.editAt hi ?_ hop' rfl
    intro r hr
    refine h.bounds.lt hi (by simp [hop]) r ?_
    rw [Instruction.registers_eq hop'] at hr
    rw [Instruction.registers_eq hop]
    rw [show (f i).registersOf .vararg = (f i).a :: List.range' (f i).a ((f i).c - 1) from rfl, ha,
      hc'] at hr
    rcases List.mem_cons.1 hr with hr | hr
    · exact List.mem_cons.2 (.inl hr)
    · exact List.mem_cons.2 (.inl (List.mem_singleton.1 hr))
  stack := h.stack
  cert hl := by
    obtain ⟨D, hc⟩ := h.cert hl
    have hwrites : i.writes = [] := by
      rw [Instruction.writes_eq hop, show i.writesOf .vararg = List.range' i.a (i.c - 1) from rfl,
        hc₁]
      rfl
    have hbefore : ∀ r, live r → D p r := by
      intro r hr
      refine (hc.step p (p + 1) i.writes ⟨i, hi, ?_, ?_⟩ r (hp ▸ hc.live r hr)).resolve_right
        (by simp [hwrites])
      · exact h.shape.not_owned ⟨i, hi, hop⟩ (by simp [Opcode.IsAimed])
      · rw [Instruction.flow_plain hop rfl]
        exact List.mem_singleton.2 rfl
    refine ⟨_, hc.editLast h.shape hL hp hi hop (.inr (.inl rfl)) ?_ ?_ ?_ (by simp [hop']) ?_ ?_⟩
    · intro q ws hq
      rw [Instruction.flow_plain hop' rfl] at hq
      cases List.mem_singleton.1 hq
      exact ⟨rfl, fun r hr => .inl (hbefore r hr)⟩
    · intro r hr
      rw [Instruction.reads_eq hop'] at hr
      cases hr
    · rw [Instruction.demand_eq hop, Instruction.demand_eq hop']
      rfl
    · exact fun r hr => hc.small _ r (hc.live r hr)
    · rintro pc ⟨⟩
      exact ⟨rfl, hbefore⟩

theorem pop {pc : Nat} (h : Sound v late P (some pc) live) (hpc : pc + 1 = v.code.size)
    (hi : v.code[pc]? = some i) (hop : i.opcode? = some .not) :
    Sound { v with code := v.code.pop } late P none (fun r => live r ∨ r = i.b) where
  shape := h.shape.pop hpc ⟨i, hi, hop⟩
  bounds := by
    have hold : ∀ (p : Nat) (k : Instruction), v.code.pop[p]? = some k → v.code[p]? = some k := by
      intro p k hk
      rw [Array.getElem?_pop] at hk
      split at hk
      · exact hk
      · cases hk
    exact ⟨fun p k hk => h.bounds.registers p k (hold p k hk), h.bounds.loops,
      fun p k hk => h.bounds.returns p k (hold p k hk)⟩
  stack := h.stack
  cert hl := by
    obtain ⟨D, hc⟩ := h.cert hl
    refine ⟨D, hc.pop h.shape hpc hi hop ?_⟩
    intro r hr
    rw [Instruction.reads_eq hop]
    exact hr.imp_right List.mem_singleton.2

/-! ### Tables, gotos and loops -/

theorem fillTable {pc reg : Nat} {code' : Code} (h : Sound v late (.table pc reg :: Q) none live)
    (hi : i.opcode? = some .newTable) (ha : i.a = reg) (hj : j.opcode? = some .extraArg)
    (hreg : reg < v.maxStack) (hs : code'.size = v.code.size) (hci : code'[pc]? = some i)
    (hcj : code'[pc + 1]? = some j) (hc' : ∀ p, p ≠ pc → p ≠ pc + 1 → code'[p]? = v.code[p]?) :
    Sound { v with code := code' } late Q none live where
  shape := h.shape.fillTable hi hj hs hci hcj hc'
  bounds := by
    refine h.bounds.update hs ?_ (fun _ _ _ _ h => List.mem_cons_of_mem _ h)
    intro p k k' hk hk'
    by_cases hp : p = pc
    · subst hp
      cases hci.symm.trans hk'
      refine .inr ⟨?_, _, hi, rfl⟩
      intro r hr
      rw [Instruction.registers_eq hi] at hr
      have : r = reg := (List.mem_singleton.1 hr).trans ha
      exact this ▸ hreg
    · by_cases hp' : p = pc + 1
      · subst hp'
        cases hcj.symm.trans hk'
        refine .inr ⟨?_, _, hj, rfl⟩
        intro r hr
        rw [Instruction.registers_eq hj] at hr
        cases hr
      · rw [hc' p hp hp', hk] at hk'
        cases hk'
        refine .inl ⟨rfl, ?_⟩
        rintro ⟨ms, l, hx, hm⟩ -
        exact ⟨ms, l, by simpa using hx, hm⟩
  stack := h.stack
  cert hl := by
    obtain ⟨D, hc⟩ := h.cert hl
    obtain ⟨⟨t, ht, hopt⟩, ⟨u, hu, hopu⟩⟩ := h.shape.holds _ (List.mem_cons_self ..)
    have hstack := h.stack
    have hfree : ¬ (t.demand = .free ∨ t.demand = .loadTrue) := by
      rw [Instruction.demand_eq hopt]
      rintro (h | h) <;> cases h
    have hassigned := hc.assigned _ (List.mem_cons_self ..)
    refine ⟨_, hc.rewrite (X := []) (K := fun r => D pc r ∨ r = reg) h.shape rfl ⟨hs, hci, hcj, hc'⟩
      (Array.getElem?_eq_some_iff.1 hu).1 ?_ ?_ ?_ ?_ ?_ ?_ ?_ ?_ ?_ ?_ (by simp [hi])
        (by simp [hj])
      (by simp)⟩
    · rintro op ho
      exact .inl (ho.unique ⟨u, hu, hopu⟩)
    · intro p ws hst
      by_cases hp : p = pc
      · obtain ⟨k, -, hown, -⟩ := hst
        exact hown (Pending.mem_ownedBy (List.mem_cons_self ..) (by simp [Pending.owned, hp]))
      · exact hfree (hc.enters p _ ws hst (by omega) pc t rfl ht)
    · rintro t' l' hx rfl
      exact hfree ((h.shape.holds _ (List.mem_cons_of_mem _ hx)).2 pc t rfl ht)
    · rintro r (hr | rfl)
      · exact hc.small pc r hr
      · omega
    · intro q ws hq
      rw [Instruction.flow_eq hi] at hq
      cases List.mem_singleton.1 hq
      refine ⟨rfl, fun r hr => hr.imp_right ?_⟩
      rintro rfl
      rw [show i.writesOf .newTable = [i.a] from rfl, ha]
      exact List.mem_singleton.2 rfl
    · intro _ q ws hq
      rw [Instruction.flow_eq hj] at hq
      cases List.mem_singleton.1 hq
      exact ⟨rfl, fun r hr => .inl (hassigned r hr)⟩
    · rw [Instruction.reads_eq hi]
      rfl
    · rw [Instruction.reads_eq hj]
      rfl
    · intro k hk
      cases hk.symm.trans ht
      rw [Instruction.demand_eq hopt, Instruction.demand_eq hi]
      rfl
    · rw [Instruction.demand_eq hj]
      rfl

theorem splice {pc l : Nat} {code' : Code} (h : Sound v late (.goto pc l :: Q) none live)
    (hi : i.opcode? = some .close) (hj : v.code[pc]? = some j) (hs : code'.size = v.code.size)
    (hci : code'[pc]? = some i) (hcj : code'[pc + 1]? = some j)
    (hc' : ∀ p, p ≠ pc → p ≠ pc + 1 → code'[p]? = v.code[p]?) :
    Sound { v with code := code' } late (.list [pc + 1] l :: Q) none live where
  shape := h.shape.splice hi hj hs hci hcj hc'
  bounds := by
    have hopj : j.opcode? = some .jmp := by
      obtain ⟨⟨⟨j', hj', hopj⟩, -⟩, -⟩ := h.shape.holds _ (List.mem_cons_self ..)
      cases hj.symm.trans hj'
      exact hopj
    refine h.bounds.update hs ?_ (fun _ _ _ _ h => by simpa using h)
    intro p k k' hk hk'
    by_cases hp : p = pc
    · subst hp
      cases hci.symm.trans hk'
      refine .inr ⟨?_, _, hi, rfl⟩
      intro r hr
      rw [Instruction.registers_eq hi] at hr
      cases hr
    · by_cases hp' : p = pc + 1
      · subst hp'
        cases hcj.symm.trans hk'
        refine .inr ⟨?_, _, hopj, rfl⟩
        intro r hr
        rw [Instruction.registers_eq hopj] at hr
        cases hr
      · rw [hc' p hp hp', hk] at hk'
        cases hk'
        refine .inl ⟨rfl, ?_⟩
        rintro ⟨ms, l, hx, hm⟩ -
        exact ⟨ms, l, List.mem_cons_of_mem _ (by simpa using hx), hm⟩
  stack := h.stack
  cert hl := by
    obtain ⟨D, hc⟩ := h.cert hl
    obtain ⟨⟨⟨j', hj', hopj⟩, -⟩, ⟨u, hu, hopu⟩, -⟩ := h.shape.holds _ (List.mem_cons_self ..)
    cases hj.symm.trans hj'
    obtain ⟨hno, htg⟩ := hc.rooms pc l (List.mem_cons_self ..)
    refine ⟨_, hc.rewrite (X := [.list [pc + 1] l]) (K := D pc) h.shape rfl ⟨hs, hci, hcj, hc'⟩
      (Array.getElem?_eq_some_iff.1 hu).1 ?_ hno
        (fun t l' hx => htg t l' (List.mem_cons_of_mem _ hx))
      (hc.small pc) ?_ ?_ ?_ ?_ ?_ ?_ (by simp [hi]) (by simp [hopj]) ?_⟩
    · rintro op ho
      exact .inr (ho.unique ⟨u, hu, hopu⟩)
    · intro q ws hq
      rw [Instruction.flow_eq hi] at hq
      cases List.mem_singleton.1 hq
      exact ⟨rfl, fun r hr => .inl hr⟩
    · intro hown
      exact absurd (by simp [Pending.ownedBy, Pending.owned]) hown
    · rw [Instruction.reads_eq hi]
      rfl
    · rw [Instruction.reads_eq hopj]
      rfl
    · intro k hk
      cases hk.symm.trans hj
      rw [Instruction.demand_eq hopj, Instruction.demand_eq hi]
      rfl
    · rw [Instruction.demand_eq hopj]
      rfl
    · simp only [List.mem_singleton]
      rintro y rfl
      exact ⟨l, rfl, hc.assigned _ (List.mem_cons_self ..)⟩

theorem bounds_setLoop {pc base l n : Nat} {g : Bool} {code : Code} (d : Nat)
    (h : Bounds code n (.loop pc base l g :: Q)) (hi : code[pc]? = some i)
    (hop : i.opcode? = some (if g then .tforPrep else .forPrep)) :
    Bounds (code.modify pc (·.setAll [(.bx, d)])) n (.loop pc base l g :: Q) := by
  have hop' : (i.setAll [(.bx, d)]).opcode? = some (if g then .tforPrep else .forPrep) :=
    (Instruction.opcode?_setAll _ _ rfl).trans hop
  refine h.editAt hi ?_ hop' (by cases g <;> rfl)
  have ha : (i.setAll [(.bx, d)]).a = i.a := Instruction.get_setAll_apart .a _ i rfl
  intro r hr
  refine h.lt hi (by rw [hop]; cases g <;> simp) r ?_
  rw [Instruction.registers_eq hop'] at hr
  rw [Instruction.registers_eq hop]
  cases g <;> simp only [if_true, if_false, Bool.false_eq_true] at hr ⊢
  · rw [show i.registersOf .forPrep = List.range' i.a 4 from rfl, ← ha]
    exact hr
  · rw [show i.registersOf .tforPrep = List.range' i.a 4 from rfl, ← ha]
    exact hr

theorem cert_setLoop {pc base l n : Nat} {g : Bool} {D : Nat → Nat → Prop} {code : Code} (d : Nat)
    (h : Cert D code n (.loop pc base l g :: Q) none live) (hi : code[pc]? = some i)
    (hop : i.opcode? = some (if g then .tforPrep else .forPrep)) :
    Cert D (code.modify pc (·.setAll [(.bx, d)])) n (.loop pc base l g :: Q) none live := by
  have hop' : (i.setAll [(.bx, d)]).opcode? = some (if g then .tforPrep else .forPrep) :=
    (Instruction.opcode?_setAll _ _ rfl).trans hop
  have ha : (i.setAll [(.bx, d)]).a = i.a := Instruction.get_setAll_apart .a _ i rfl
  refine h.editAt hi (hop'.trans hop.symm) ?_ ha ?_
    (.inr (Pending.mem_ownedBy (List.mem_cons_self ..) (by simp [Pending.owned])))
  · rw [Instruction.demand_eq hop, Instruction.demand_eq hop']
    cases g <;> rfl
  · rw [Instruction.reads_eq hop, Instruction.reads_eq hop']
    cases g
    · exact congrArg (fun a => [a, a + 1, a + 2]) ha
    · exact congrArg (fun a => [a + 3]) ha

theorem goto_apart {pc base l pc' l' L : Nat} {g : Bool} {code : Code} {aims : List (Nat × Nat)}
    (h : Shape code aims L (.loop pc base l g :: Q) o) (hx : .goto pc' l' ∈ Q) :
    pc' + 1 < code.size ∧ pc' ≠ pc := by
  refine ⟨(h.holds _ (List.mem_cons_of_mem _ hx)).2.1.lt, ?_⟩
  rintro rfl
  have hp : pc' ∈ (Pending.goto pc' l').owned := by simp [Pending.owned]
  exact h.disjoint hx (List.mem_singleton.2 rfl) hp

theorem bx_set {d : Nat} (hd : d ≤ 131071) : (i.setAll [(.bx, d)]).bx = d :=
  Instruction.get_set_fits i ((Instruction.Field.fits_iff _ _).2
    (by simp only [Instruction.Field.limit, Instruction.Field.bx, Nat.pow_eq]; omega))
    (by decide) (by decide)

theorem closeNumeric {pc base l d : Nat} (h : Sound v late (.loop pc base l false :: Q) none live)
    (hd : pc + 1 + d = v.code.size) (hdm : d ≤ 131071) (hj : j.opcode? = some .forLoop)
    (ha : j.a = base) (hbx : j.bx = d + 1) (hl : l ≤ base + 4) (hbase : ∀ r < base + 3, live r)
    (hlive : ∀ r, live' r → r < base + 3) :
    Sound ((v.modify pc (·.setAll [(.bx, d)])).push j) late Q none live' where
  shape := by
    obtain ⟨i, hi, hia, hop⟩ := h.shape.holds _ (List.mem_cons_self ..)
    have hs : Shape ((v.code.modify pc (·.setAll [(.bx, d)])).push j) v.aims v.lastTarget
        ([] ++ .loop pc base l false :: Q) none := (h.shape.setLoop d hi).push ?_ (by simp [hj]) ?_
      (by simp [Pending.ownedBy]) (by simp [Pending.ownedBy]) (by simp) (by simp)
    · refine hs.closeLoop ?_
      have hlt := (Array.getElem?_eq_some_iff.1 hi).1
      refine ⟨i.setAll [(.bx, d)], j, ?_, ?_, hj, ?_, ?_⟩
      · exact grows_push _ _ _ _ (JumpList.getElem?_modify_self hi _)
      · rw [bx_set hdm, hd, Array.getElem?_push, if_pos (by simp)]
      · exact ha.trans ((Instruction.get_setAll_apart .a [(.bx, d)] i rfl).trans hia).symm
      · rw [bx_set hdm, hbx]
    · rw [Instruction.demand_eq hj]
      rfl
    · intro op' hop' hcase
      cases hj.symm.trans hop'
      rcases hcase with h | h | h <;> cases h
  bounds := by
    obtain ⟨i, hi, hia, hop⟩ := h.shape.holds _ (List.mem_cons_self ..)
    have hb := (bounds_setLoop d h.bounds hi hop).grow (X := []) (grows_push _ j) ?_ ?_ (by simp)
    · refine hb.reframe ?_ (fun _ _ _ _ h => List.mem_cons_of_mem _ h)
      rintro m ⟨ms, l, hx, hm⟩
      exact ⟨ms, l, by simpa using hx, hm⟩
    · intro p k hp' hk
      obtain ⟨-, rfl⟩ := Shape.getElem?_push_cases hp' hk
      exact Instruction.returnForm_of hj rfl
    · intro p k hp' hk r hr
      obtain ⟨-, rfl⟩ := Shape.getElem?_push_cases hp' hk
      have := h.bounds.loops pc base l false (List.mem_cons_self ..)
      rw [Instruction.registers_eq hj] at hr
      rw [show k.registersOf .forLoop = List.range' k.a 4 from rfl, ha, List.mem_range'_1] at hr
      rw [show loopSpan false = 4 from rfl] at this
      left
      omega
  stack := h.stack
  cert hl' := by
    obtain ⟨D, hc⟩ := h.cert hl'
    obtain ⟨i, hi, hia, hop⟩ := h.shape.holds _ (List.mem_cons_self ..)
    obtain ⟨hbody, hstate⟩ := hc.assigned _ (List.mem_cons_self ..)
    have hlt := (Array.getElem?_eq_some_iff.1 hi).1
    have hstack := h.bounds.loops pc base l false (List.mem_cons_self ..)
    simp only [loopSpan, Bool.false_eq_true, if_false] at hstack hstate
    have hsize := h.stack
    have hia' : (i.setAll [(.bx, d)]).a = base :=
      (Instruction.get_setAll_apart .a [(.bx, d)] i rfl).trans hia
    have hop' : (i.setAll [(.bx, d)]).opcode? = some .forPrep :=
      (Instruction.opcode?_setAll _ _ rfl).trans hop
    have hprep : ((v.code.modify pc (·.setAll [(.bx, d)])).push j)[pc]? =
        some (i.setAll [(.bx, d)]) :=
      grows_push _ _ _ _ (JumpList.getElem?_modify_self hi _)
    have hloop : ((v.code.modify pc (·.setAll [(.bx, d)])).push j)[v.code.size]? = some j := by
      rw [Array.getElem?_push, if_pos (by simp)]
    have hgoto : ∀ pc' l', .goto pc' l' ∈ Q → pc' + 1 < v.code.size ∧ pc' ≠ pc :=
      fun pc' l' hx => goto_apart h.shape hx
    have hp : Cert _ ((v.code.modify pc (·.setAll [(.bx, d)])).push j) v.numParams
        ([.list [v.code.size] 0] ++ .loop pc base l false :: Q) none live' :=
      (cert_setLoop d hc hi hop).push (h.shape.setLoop d hi) ?_ ?_ ?_ ?_ ?_ (by simp)
    · simp only [Array.size_modify] at hp
      have hD : ∀ p r, p ≤ v.code.size → (Cert.extend D v.code.size (fun _ => live') p r ↔ D p r) :=
        fun p r hp => Cert.extend_old hp
      have hend : ∀ r, Cert.extend D v.code.size (fun _ => live') (v.code.size + 1) r →
          r < base + 3 :=
        fun r hr => hlive r ((Cert.extend_new (by omega)).1 hr)
      have hback : ∀ r, D (pc + 1) r → r < base + 3 ∨ r = base + 3 := by
        intro r hr
        have := hbody r hr
        omega
      -- first the way back from the end of the loop, then the ways from its start
      refine ⟨_, (hp.release hloop rfl (by simp) ?_).release hprep rfl (by simp) ?_⟩
      · intro q ws hq
        rw [Instruction.flow_eq hj] at hq
        rcases List.mem_cons.1 hq with hq | hq
        · cases hq
          refine ⟨by simp, ?_, fun hne => absurd rfl hne, ?_⟩
          · intro r hr
            exact .inl ((hD _ r (by omega)).2 (hc.live r (hbase r (hend r hr))))
          · intro pc' l' hx
            have := hgoto pc' l' (by simpa using hx)
            omega
        · cases List.mem_singleton.1 hq
          rw [hbx, ha, show v.code.size + 1 - (d + 1) = pc + 1 by omega]
          refine ⟨by simp; omega, ?_, ?_, ?_⟩
          · intro r hr
            rcases hback r ((hD _ r (by omega)).1 hr) with hr | rfl
            · exact .inl ((hD _ r (by omega)).2 (hc.live r (hbase r hr)))
            · exact .inr (List.mem_singleton.2 rfl)
          · intro _ k m hk hm
            obtain rfl : k = pc := by omega
            cases hm.symm.trans hprep
            rw [Instruction.demand_eq hop']
            exact .inl rfl
          · intro pc' l' hx
            have := hgoto pc' l' (by simpa using hx)
            omega
      · intro q ws hq
        rw [Instruction.flow_eq hop'] at hq
        rcases List.mem_cons.1 hq with hq | hq
        · cases hq
          refine ⟨by simp; omega, ?_, fun hne => absurd rfl hne, ?_⟩
          · intro r hr
            rcases hback r ((hD _ r (by omega)).1 hr) with hr | rfl
            · exact .inl ((hD _ r (by omega)).2 (hstate r hr))
            · rw [hia']
              exact .inr (List.mem_singleton.2 rfl)
          · intro pc' l' hx
            have := hgoto pc' l' hx
            omega
        · cases List.mem_singleton.1 hq
          rw [bx_set hdm, show pc + 2 + d = v.code.size + 1 by omega]
          refine ⟨by simp, ?_, ?_, ?_⟩
          · intro r hr
            exact .inl ((hD _ r (by omega)).2 (hstate r (hend r hr)))
          · intro _ k m hk hm
            obtain rfl : k = v.code.size := by omega
            cases hm.symm.trans hloop
            rw [Instruction.demand_eq hj]
            exact .inl rfl
          · intro pc' l' hx
            have := hgoto pc' l' hx
            omega
    · intro r hr
      have := hlive r hr
      omega
    · intro r hr
      rw [Instruction.reads_eq hj, show j.readsOf .forLoop = [j.a, j.a + 1, j.a + 2] from rfl, ha]
        at hr
      simp only [List.mem_cons, List.not_mem_nil, or_false] at hr
      exact hbase r (by omega)
    · intro hown
      exact absurd (by simp [Pending.ownedBy, Pending.owned]) hown
    · simp only [List.mem_singleton]
      rintro x rfl
      refine ⟨?_, by simp, by simp⟩
      intro m _ r hr
      omega
    · rintro q k ⟨ms, l', hx, hm⟩ hk hopk
      cases List.mem_singleton.1 hx
      have hq := List.mem_singleton.1 hm
      have hd := (h.shape.setLoop d hi).demand_last (by simpa using hq)
        ((grows_push _ j).back (by simp; omega) hk)
      rw [Instruction.demand_eq hopk] at hd
      cases hd

theorem closeGeneric {pc base l d n : Nat} (h : Sound v late (.loop pc base l true :: Q) none live)
    (hd : pc + 1 + d = v.code.size) (hdm : d ≤ 131071) (hi : i.opcode? = some .tforCall)
    (hia : i.a = base) (hic : i.c = n) (hj : j.opcode? = some .tforLoop)
    (ha : j.a = base) (hbx : j.bx = d + 2) (hl : l ≤ base + 4 + n) (hn : base + 4 + n ≤ v.maxStack)
    (hbase : ∀ r < base + 4, live r) (hlive : ∀ r, live' r → r < base + 4)
    (ht : .target v.code.size (base + 4) ∈ Q) :
    Sound (((v.modify pc (·.setAll [(.bx, d)])).push i).push j) late Q none live' where
  shape := by
    obtain ⟨k, hk, hka, hop⟩ := h.shape.holds _ (List.mem_cons_self ..)
    have hs : Shape (((v.code.modify pc (·.setAll [(.bx, d)])).push i).push j) v.aims v.lastTarget
        ([] ++ .loop pc base l true :: Q) none := (h.shape.setLoop d hk).pushTwo (.inr ?_) ?_
      (by simp [hi]) ?_ (by simp [Pending.ownedBy]) (by simp [Pending.ownedBy]) (by simp) (by simp)
    · refine hs.closeLoop ?_
      have hsize : (v.code.modify pc (·.setAll [(.bx, d)])).size = v.code.size := by simp
      have hka' : (k.setAll [(.bx, d)]).a = base :=
        (Instruction.get_setAll_apart .a [(.bx, d)] k rfl).trans hka
      refine ⟨k.setAll [(.bx, d)], i, j, ?_, ?_, hi, hia.trans hka'.symm, ?_, hj,
        ha.trans hka'.symm,
        ?_⟩
      · exact grows_push _ _ _ _ (grows_push _ _ _ _ (JumpList.getElem?_modify_self hk _))
      · rw [bx_set hdm, hd]
        exact grows_push _ _ _ _ (by rw [Array.getElem?_push, if_pos hsize.symm])
      · rw [bx_set hdm, Array.getElem?_push, if_pos (by simp; omega)]
      · rw [bx_set hdm, hbx]
    · rw [Instruction.demand_eq hi]
      simp [Demand.Met, Instruction.demandOf, hj]
    · rw [Instruction.demand_eq hj]
      rfl
    · intro op' hcase
      constructor
      · intro hop'
        cases hi.symm.trans hop'
        rcases hcase with h | h | h <;> cases h
      · intro hop'
        cases hj.symm.trans hop'
        rcases hcase with h | h | h <;> cases h
  bounds := by
    obtain ⟨k, hk, hka, hop⟩ := h.shape.holds _ (List.mem_cons_self ..)
    have hb := (bounds_setLoop d h.bounds hk hop).grow (X := [])
      ((grows_push _ i).trans (grows_push _ j)) ?_ ?_ (by simp)
    · refine hb.reframe ?_ (fun _ _ _ _ h => List.mem_cons_of_mem _ h)
      rintro m ⟨ms, l, hx, hm⟩
      exact ⟨ms, l, by simpa using hx, hm⟩
    · intro p k' hp' hk'
      rcases Cert.getElem?_push_push hp' hk' with ⟨-, rfl⟩ | ⟨-, rfl⟩
      · exact Instruction.returnForm_of hi rfl
      · exact Instruction.returnForm_of hj rfl
    · intro p k' hp' hk' r hr
      have := h.bounds.loops pc base l true (List.mem_cons_self ..)
      simp only [loopSpan, if_true] at this
      left
      rcases Cert.getElem?_push_push hp' hk' with ⟨-, rfl⟩ | ⟨-, rfl⟩
      · rw [Instruction.registers_eq hi] at hr
        rw [show k'.registersOf .tforCall = List.range' k'.a 7 ++ List.range' (k'.a + 4) k'.c
          from rfl,
          hia, hic, List.mem_append, List.mem_range'_1, List.mem_range'_1] at hr
        omega
      · rw [Instruction.registers_eq hj] at hr
        rw [show k'.registersOf .tforLoop = [k'.a, k'.a + 2] from rfl, ha] at hr
        simp only [List.mem_cons, List.not_mem_nil, or_false] at hr
        omega
  stack := h.stack
  cert hl' := by
    obtain ⟨D, hc⟩ := h.cert hl'
    obtain ⟨k, hk, hka, hop⟩ := h.shape.holds _ (List.mem_cons_self ..)
    obtain ⟨hbody, hstate⟩ := hc.assigned _ (List.mem_cons_self ..)
    have hlt := (Array.getElem?_eq_some_iff.1 hk).1
    have hsize := h.stack
    simp only [if_true] at hstate
    have hop' : (k.setAll [(.bx, d)]).opcode? = some .tforPrep :=
      (Instruction.opcode?_setAll _ _ rfl).trans hop
    have hprep : (((v.code.modify pc (·.setAll [(.bx, d)])).push i).push j)[pc]?
        = some (k.setAll [(.bx, d)]) :=
      grows_push _ _ _ _ (grows_push _ _ _ _ (JumpList.getElem?_modify_self hk _))
    have hloop : (((v.code.modify pc (·.setAll [(.bx, d)])).push i).push j)[v.code.size + 1]?
        = some j := by
      rw [Array.getElem?_push, if_pos (by simp)]
    have hgoto : ∀ pc' l', .goto pc' l' ∈ Q → pc' + 1 < v.code.size ∧ pc' ≠ pc :=
      fun pc' l' hx => goto_apart h.shape hx
    have hp : Cert _ (((v.code.modify pc (·.setAll [(.bx, d)])).push i).push j) v.numParams
        ([.list [v.code.size + 1] 0] ++ .loop pc base l true :: Q) none live' :=
      (cert_setLoop d hc hk hop).pushTwo (M := (· < base + 4 + n)) (h.shape.setLoop d hk) ?_ ?_ ?_
      ?_ ?_ ?_ ?_ ?_ (by simp) (by simp) (by simp)
    · simp only [Array.size_modify] at hp
      generalize hE : Cert.extend D v.code.size
        (Cert.between v.code.size (· < base + 4 + n) live') = E
        at hp
      have hD : ∀ p r, p ≤ v.code.size → (E p r ↔ D p r) := by
        intro p r hp
        rw [← hE]
        exact Cert.extend_old hp
      have hmid : ∀ r, E (v.code.size + 1) r ↔ r < base + 4 + n := by
        intro r
        rw [← hE, Cert.extend_new (by omega)]
        simp [Cert.between]
      have hend : ∀ r, E (v.code.size + 2) r → r < base + 4 := by
        intro r hr
        rw [← hE, Cert.extend_new (by omega)] at hr
        exact hlive r (by simpa [Cert.between] using hr)
      refine ⟨_, (hp.release hloop rfl (by simp) ?_).release hprep rfl (by simp) ?_⟩
      · intro q ws hq
        rw [Instruction.flow_eq hj] at hq
        rcases List.mem_cons.1 hq with hq | hq
        · cases hq
          refine ⟨by simp, ?_, fun hne => absurd rfl hne, ?_⟩
          · intro r hr
            have := hend r hr
            exact .inl ((hmid r).2 (by omega))
          · intro pc' l' hx
            have := hgoto pc' l' (by simpa using hx)
            omega
        · cases List.mem_singleton.1 hq
          rw [hbx, show v.code.size + 1 + 1 - (d + 2) = pc + 1 by omega]
          refine ⟨by simp; omega, ?_, ?_, ?_⟩
          · intro r hr
            have := hbody r ((hD _ r (by omega)).1 hr)
            exact .inl ((hmid r).2 (by omega))
          · intro _ m k' hm hk'
            obtain rfl : m = pc := by omega
            cases hk'.symm.trans hprep
            rw [Instruction.demand_eq hop']
            exact .inl rfl
          · intro pc' l' hx
            have := hgoto pc' l' (by simpa using hx)
            omega
      · intro q ws hq
        rw [Instruction.flow_eq hop'] at hq
        cases List.mem_singleton.1 hq
        rw [bx_set hdm, hd]
        refine ⟨by simp; omega, ?_, ?_, ?_⟩
        · intro r hr
          have := hc.assigned _ (List.mem_cons_of_mem _ ht) r ((hD _ r (by omega)).1 hr)
          exact .inl ((hD _ r (by omega)).2 (hstate r this))
        · intro _ m k' hm hk'
          have hg := (grows_push (v.code.modify pc (·.setAll [(.bx, d)])) i).trans (grows_push _ j)
          exact .inl ((h.shape.setLoop d hk).demand_last (by simpa using hm)
            (hg.back (by simp; omega) hk'))
        · intro pc' l' hx
          have := hgoto pc' l' hx
          omega
    · intro r hr
      omega
    · intro r hr
      have := hlive r hr
      omega
    · intro r hr
      rw [Instruction.reads_eq hi, show i.readsOf .tforCall = [i.a, i.a + 1, i.a + 2] from rfl,
        hia] at hr
      simp only [List.mem_cons, List.not_mem_nil, or_false] at hr
      exact hbase r (by omega)
    · intro _ r hr
      rw [Instruction.reads_eq hj, show j.readsOf .tforLoop = [j.a + 2] from rfl, ha] at hr
      simp only [List.mem_cons, List.not_mem_nil, or_false] at hr
      omega
    · intro _ q ws hq
      rw [Instruction.flow_eq hi] at hq
      cases List.mem_singleton.1 hq
      refine .inl ⟨rfl, ?_⟩
      intro r hr
      rw [show i.writesOf .tforCall = List.range' (i.a + 4) i.c from rfl, hia, hic,
        List.mem_range'_1]
      by_cases hb : r < base + 4
      · exact .inl (hbase r hb)
      · exact .inr ⟨by omega, by omega⟩
    · intro hown
      exact absurd (by simp [Pending.ownedBy, Pending.owned]) hown
    · simp only [List.mem_singleton]
      rintro x rfl m _ r hr
      omega
    · rintro q k' ⟨ms, l', hx, hm⟩ hk' hopk
      cases List.mem_singleton.1 hx
      obtain rfl : q = v.code.size := by simpa using hm
      rcases Cert.getElem?_push_push (by simp) hk' with ⟨-, rfl⟩ | ⟨h', -⟩
      · cases hi.symm.trans hopk
      · simp at h'

end Sound

end LuaChunk
