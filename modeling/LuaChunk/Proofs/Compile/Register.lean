import LuaChunk.Proofs.Compile.Value

set_option autoImplicit false

namespace LuaChunk

open JumpList (Code IsOp Chain)

namespace Compile

variable {F P : List Pending} {base r reg m : Nat} {e : Exp} {s : State} {live : Nat → Prop}
  {T E : List Nat}

/-- The jumps of both lists are sent to the end of the code, where the value is in the register. -/
theorem patchBoth_spec {ifFalse ifTrue : Option Nat}
    (h : Inv (.list T base :: .list E base :: P) none live s) (hlive : ∀ r < m, live r)
    (hr : reg < s.fn.maxStack) (hm : ∀ r < m, r < base ∨ r = reg)
    (hf : ifFalse = none → Valued s.fn.code E) (ht : ifTrue = none → Valued s.fn.code T)
    (hf' : ∀ t, ifFalse = some t → .target t base ∈ P)
    (ht' : ∀ t, ifTrue = some t → .target t base ∈ P) :
    Via Coded (do
      let final ← markTarget
      patchValues E.head? final reg ifFalse
      patchValues T.head? final reg ifTrue) s fun _ s' =>
        Inv P none (· < m) s' ∧ ∀ q, s'.ConcatAt q := by
  have hcT : Chain s.fn.code T := h.chain (List.mem_cons_self ..)
  have hcE : Chain s.fn.code E := h.chain (List.mem_cons_of_mem _ (List.mem_cons_self ..))
  have hn := h.nodup
  simp only [Pending.ownedBy_cons, Pending.owned] at hn
  have happart : ∀ p ∈ T, p ∉ E := fun p hp hp' =>
    (List.nodup_append.1 hn).2.2 p hp p (List.mem_append_left _ hp') rfl
  refine Via.next (Via.markTarget ?_)
  have hp : List.Perm (.list E base :: .list T base :: .target s.fn.code.size m :: P)
      (.target s.fn.code.size m :: .list T base :: .list E base :: P) :=
    (List.Perm.swap ..).trans (((List.Perm.swap ..).cons _).trans (List.Perm.swap ..))
  have hmark := (h.mark hlive).perm hp
  refine Via.bind (patchValues_spec hmark hf (by simp) hm ?_ hr) ?_
  · exact fun t h => ⟨base, by simp [hf' t h], Nat.le_refl _⟩
  rintro _ s₁ hc₁ ⟨h₁, hs₁, hL₁, hsame⟩
  refine Via.mono (patchValues_spec h₁ ?_ (by simp) hm ?_ (hc₁.maxStack ▸ hr)) ?_
  · intro hnone p hp
    obtain ⟨q, rfl, hq⟩ := ht hnone p hp
    refine ⟨q, rfl, hq.congr (hsame q (fun hqE => ?_) (happart _ hp))⟩
    exact absurd (hq.unique (hcE.isOp hqE)) (by simp)
  · exact fun t h => ⟨base, by simp [ht' t h], Nat.le_refl _⟩
  · rintro _ s₂ hc₂ ⟨h₂, hs₂, hL₂, -⟩
    refine ⟨h₂.dropTarget, fun q hlt => ?_⟩
    rw [hL₂, hL₁, hs₂, hs₁] at hlt
    exact absurd hlt (Nat.lt_irrefl _)

/-- A value whose jumps are settled. A comparison is not there unless one of its jumps asks for
it. -/
theorem settleJumps_spec (hT : e.whenTrue = T.head?) (hE : e.whenFalse = E.head?)
    (h : Inv (.list T base :: .list E base :: F) none live s) (hr : reg < s.fn.maxStack)
    (hl : ∀ r < base, live r) (hb : base ≤ 255) (hm : ∀ r < m, r < base ∨ r = reg)
    (hlive : (∀ pc, e.kind ≠ .jump pc) → ∀ r < m, live r)
    (hjump : ∀ pc, e.kind = .jump pc → ¬ Valued s.fn.code T) :
    Via Coded (do
      if e.hasJumps then
        let (ifFalse, ifTrue) ← loadBools e reg
        let final ← markTarget
        patchValues e.whenFalse final reg ifFalse
        patchValues e.whenTrue final reg ifTrue) s fun _ s' =>
      Inv F none (· < m) s' ∧ (s.ConcatAt reg ∨ (∃ pc, e.kind = .jump pc) → s'.ConcatAt reg) := by
  by_cases hj : e.hasJumps = true
  · rw [if_pos hj]
    refine Via.bind (loadBools_spec hT hE h (by simp) (by simp) hr hl hb hm hlive) ?_
    rintro ⟨ifFalse, ifTrue⟩ s₁ hc₁ hbools
    rw [hT, hE]
    cases hbools with
    | unneeded h₁ hcode hvT hvE =>
      have hk : ∀ pc, e.kind ≠ .jump pc := fun pc he => hjump pc he hvT
      rw [← hcode] at hvT hvE
      refine Via.mono (patchBoth_spec h₁ (hlive hk) (hc₁.maxStack ▸ hr) hm (fun _ => hvE)
        (fun _ => hvT)
        (by simp) (by simp)) ?_
      exact fun _ _ _ ⟨h, hq⟩ => ⟨h, fun _ => hq reg⟩
    | @loaded _ f t h₁ =>
      have hp : List.Perm (.list T base :: .list E base :: .target t base :: .target f base :: F)
          (.target t base :: .target f base :: .list T base :: .list E base :: F) :=
        @List.perm_append_comm_assoc _ [_, _] [_, _] F
      refine Via.mono (patchBoth_spec (h₁.perm hp) (fun r hr => hr) (hc₁.maxStack ▸ hr) hm (by simp)
        (by simp) ?_ ?_) ?_
      · rintro _ ⟨⟩
        simp
      · rintro _ ⟨⟩
        simp
      · exact fun _ _ _ ⟨h, hq⟩ => ⟨h.dropTarget.dropTarget, fun _ => hq reg⟩
  · rw [if_neg hj]
    have heq : T.head? = E.head? := by
      rw [← hT, ← hE]
      simpa [Exp.hasJumps] using hj
    obtain ⟨rfl, rfl⟩ := h.lists_nil heq
    have hk : ∀ pc, e.kind ≠ .jump pc := fun pc he => hjump pc he fun m hm => by cases hm
    refine Via.pure ⟨h.dropNil.dropNil.weaken (hlive hk), ?_⟩
    rintro (hc | ⟨pc, he⟩)
    · exact hc
    · exact absurd he (hk pc)

theorem dischargeVars_settled (h : e.kind.isSettled = true) : dischargeVars e = Pure.pure e := by
  unfold dischargeVars
  cases hk : e.kind <;> rw [hk] at h <;> first | rfl | cases h

theorem Via.toRegister_of {R : State → State → Prop} [Frame R] {Q : Unit → State → Prop}
    (h : Via R (dischargeVars e) s fun e' s' =>
      e'.kind.isSettled = true ∧ Via R (toRegister e' reg) s' Q) :
        Via R (toRegister e reg) s Q := by
  unfold toRegister dischargeTo
  rw [bind_assoc]
  refine Via.bind h ?_
  rintro e' s' - ⟨hs, hv⟩
  unfold toRegister dischargeTo at hv
  rw [dischargeVars_settled hs, pure_bind] at hv
  exact hv

theorem toRegister_settled (hT : e.whenTrue = T.head?) (hE : e.whenFalse = E.head?)
    (h : Inv (.list T base :: .list E base :: (e.kind.ownJump base ++ F)) e.kind.opened live s)
    (hk : s.Loads live e.kind ∨ ∃ pc, e.kind = .jump pc ∧ s.Compares pc)
    (hr : reg < s.fn.maxStack) (hl : ∀ r < base, live r) (hb : base ≤ 255)
    (hm : ∀ r < m, r < base ∨ r = reg) :
    Via Coded (toRegister e reg) s fun _ s' => Inv F none (· < m) s' ∧
      ((e.kind = .inReg reg → s.ConcatAt reg) → s'.ConcatAt reg) := by
  obtain ⟨kind, whenTrue, whenFalse⟩ := e
  simp only at hT hE h hk
  subst hT hE
  unfold toRegister
  rcases hk with hk | ⟨pc, rfl, q, op, rfl, hq, htest, hne⟩
  · have hown : kind.ownJump base = [] := by
      cases kind <;> first | rfl | cases hk
    rw [hown, List.nil_append] at h
    refine Via.bind (@dischargeTo_spec _ _ _ live (fun r => live r ∨ r = reg) reg h hk hr
      fun r hr => hr) ?_
    rintro e' s₁ hc₁ ⟨rfl, h₁⟩
    refine Via.next (Via.pure ?_)
    refine Via.mono (settleJumps_spec rfl rfl h₁.inv (hc₁.maxStack ▸ hr)
      (fun r hr => .inl (hl r hr)) hb
      hm ?_ ?_) ?_
    · exact fun _ r hr => (hm r hr).imp_left (hl r)
    · rintro pc ⟨⟩
    · rintro _ s₂ - ⟨h₂, hq⟩
      exact ⟨h₂, fun hc => hq (.inl (h₁.concatAt hc))⟩
  · -- a comparison: its own jump is the last of those that are taken when it is true
    have hd : dischargeTo ⟨.jump (q + 1), T.head?, E.head?⟩ reg
        = Pure.pure ⟨.jump (q + 1), T.head?, E.head?⟩ := rfl
    rw [hd, pure_bind]
    have hp : List.Perm (.list T base :: .list [q + 1] base :: .list E base :: F)
        (.list T base :: .list E base :: ([.list [q + 1] base] ++ F)) :=
      (List.Perm.swap ..).cons _
    refine Via.bind (appendJumps_spec (h.perm hp)) ?_
    rintro first s₁ hc₁ ⟨rfl, h₁, hs₁, hL₁, -, hops⟩
    refine Via.mono (@settleJumps_spec _ _ _ _ _ _ _ (T ++ [q + 1]) E rfl rfl h₁ (hc₁.maxStack ▸ hr)
      hl hb hm
      (fun hne => absurd rfl (hne _)) ?_) ?_
    · intro _ _ hv
      obtain ⟨q', heq, hq'⟩ := hv (q + 1) (by simp)
      cases heq
      have hnj : op ≠ .jmp := by
        rintro rfl
        cases htest
      exact hne ((hops q op hq hnj).unique hq')
    · rintro _ s₂ - ⟨h₂, hc⟩
      exact ⟨h₂, fun _ => hc (.inr ⟨_, rfl⟩)⟩

theorem State.setFree_self (h : s.fn.freeReg = base) : s.setFree base = s := by
  subst h
  rfl

namespace Val

theorem settledFree (h : Val F base e s) (hs : e.kind.isSettled = true)
    (hr : ∀ r, e.kind ≠ .inReg r) : s.fn.freeReg = base := by
  have hp := h.place
  cases hk : e.kind <;> rw [hk] at hp hs <;>
    first
    | exact hp
    | exact hp.1
    | exact absurd hk (hr _)
    | cases hs

theorem loads (h : Val F base e s) (hs : e.kind.isSettled = true) :
    s.Loads (· < s.fn.freeReg) e.kind ∨ ∃ pc, e.kind = .jump pc ∧ s.Compares pc := by
  have hp := h.place
  have hroom := h.room
  cases hk : e.kind with
  | inReg r =>
    rw [hk] at hp
    have hlt := hp.1.lt h.low
    exact .inl ⟨hlt, by omega⟩
  | jump pc =>
    rw [hk] at hp
    exact .inr ⟨pc, rfl, hp.2⟩
  | konst k =>
    rw [hk] at hp
    exact .inl hp.2
  | nil | true_ | false_ | float | int | str | relocatable => exact .inl trivial
  | _ =>
    rw [hk] at hs
    cases hs

theorem toTop (h : Val F base e s) (hs : e.kind.isSettled = true) {n : Nat} (hn : s.fn.maxStack ≤ n)
    (hbn : base < n) (hn' : n ≤ 254) :
    Via Coded (toRegister e base) ((s.raise n).setFree (base + 1)) fun _ s' =>
      s'.fn.freeReg = base + 1 ∧ Val F base (.inReg base) s' := by
  obtain ⟨T, E, hT, hE, hi⟩ := h.jumps
  have hle := h.base_le
  have hloads := h.loads hs
  have hconcat : e.kind = .inReg base → s.ConcatAt base := by
    intro he
    have hp := h.place
    rw [he] at hp
    exact hp.2 h.low
  refine Via.mono (@toRegister_settled _ base base (base + 1) e _ _ T E hT hE
    ((hi.raise hn hn').setFree hbn) ?_ hbn ?_ ?_ ?_) ?_
  · rcases hloads with hl | hl
    · left
      cases hk : e.kind <;> rw [hk] at hl <;>
        first | exact hl | exact ⟨hl.1, Nat.lt_of_lt_of_le hl.2 hn⟩
    · exact .inr hl
  · exact fun r hr => Nat.lt_of_lt_of_le hr hle
  · omega
  · intro r hr
    omega
  · rintro _ s' hc ⟨hinv, hcat⟩
    have hf : s'.fn.freeReg = base + 1 := hc.freeReg
    have hlevel : s'.level = s.level := hc.level
    exact ⟨hf, .inReg (hlevel ▸ h.low) (hf ▸ hinv) (.inr ⟨rfl, hf⟩) fun _ => hcat hconcat⟩

end Val

theorem freeExp_spec (h : Val F base e s) (hs : e.kind.isSettled = true) :
    Via Keeps (freeExp e) s fun _ s' => s' = s.setFree base := by
  unfold freeExp
  by_cases hr : ∃ r, e.kind = .inReg r
  · obtain ⟨r, hr⟩ := hr
    have hp := h.place
    rw [hr] at hp
    simp only [Exp.register?, hr]
    exact Via.freeSlot h.toBase h.low hp.1 rfl
  · have hf := h.settledFree hs fun r he => hr ⟨r, he⟩
    have hn : e.register? = none := by
      unfold Exp.register?
      split
      · rename_i r he
        exact absurd ⟨r, he⟩ hr
      · rfl
    rw [hn]
    exact Via.pure (State.setFree_self hf).symm

theorem freeReg_spec (h : Val F base (.inReg r) s) :
    Via Keeps (freeExp (.inReg r)) s fun _ s' => s' = s.setFree base :=
  freeExp_spec h rfl

theorem toNextRegister_spec (h : Val F base e s) :
    Via Keeps (toNextRegister e) s fun r s' =>
      r = base ∧ s'.fn.freeReg = base + 1 ∧ Val F base (.inReg base) s' := by
  unfold toNextRegister
  refine Via.bind (dischargeVars_spec h) ?_
  rintro e₁ s₁ - ⟨h₁, hs, -⟩
  refine Via.bind (freeExp_spec h₁ hs) ?_
  rintro _ _ - rfl
  refine Via.next (Via.reserve h₁.maxStack_le fun n hn hbn hn' => ?_)
  refine Via.next (Via.freeReg ?_)
  refine Via.bind ((h₁.toTop hs hn hbn hn').weaken fun _ h => h.toKeeps) ?_
  rintro _ s₂ - ⟨hf, h₂⟩
  exact Via.pure ⟨rfl, hf, h₂⟩

theorem toAnyRegister_inReg : toAnyRegister (.inReg r) = Pure.pure r := rfl

theorem toAnyRegister_indexed (h : Val F base e s) (he : e.isIndexed = true) :
    Via Keeps (toAnyRegister e) s fun r s' => Val F base (.inReg r) s' ∧ 0 < s'.fn.code.size := by
  unfold toAnyRegister
  refine Via.bind (dischargeVars_spec h) fun e₁ s₁ _ h₁ => ?_
  obtain ⟨pc, hk⟩ := h₁.emitted he
  obtain ⟨T, E, -, -, hinv⟩ := h₁.val.jumps
  rw [hk] at hinv ⊢
  refine (toNextRegister_spec h₁.val).mono ?_
  rintro r s₂ hk₂ ⟨rfl, -, hv⟩
  exact ⟨hv, hk₂.code (Nat.lt_of_le_of_lt (Nat.zero_le pc) hinv.openLt)⟩

theorem toAnyRegister_spec (h : Val F base e s) :
    Via Keeps (toAnyRegister e) s fun r s' => Val F base (.inReg r) s' := by
  have hnext : ∀ {e : Exp} {s : State}, Val F base e s →
      Via Keeps (toNextRegister e) s fun r s' => Val F base (.inReg r) s' := by
    intro e s h
    refine Via.mono (toNextRegister_spec h) ?_
    rintro r s' - ⟨rfl, -, hv⟩
    exact hv
  unfold toAnyRegister
  refine Via.bind (dischargeVars_spec h) ?_
  rintro ⟨kind, T, E⟩ s₁ - ⟨h₁, hs, -⟩
  cases kind with
  | inReg r =>
    refine Via.ite (fun hj => ?_) fun _ => ?_
    · obtain ⟨rfl, rfl⟩ := h₁.noJumps (by simpa using hj)
      exact Via.pure h₁
    · refine Via.next (Via.activeRegisters h₁.toBase ?_)
      refine Via.ite (fun hge => ?_) fun _ => hnext h₁
      rcases h₁.place.1 with ⟨hlt, -⟩ | ⟨rfl, hf⟩
      · omega
      · have htop := h₁.toTop rfl (Nat.le_refl _) (by have := h₁.room; omega) h₁.maxStack_le
        rw [show (s₁.raise s₁.fn.maxStack).setFree (r + 1) = s₁ from State.setFree_self hf] at htop
        refine Via.bind (htop.weaken fun _ h => h.toKeeps) ?_
        rintro _ s₂ - ⟨-, h₂⟩
        exact Via.pure h₂
  | _ => exact hnext h₁

namespace Exp

/-- A table that can be accessed: in a register, or an upvalue. -/
inductive IsTable : Exp → Prop
  | inReg (r : Nat) : IsTable (.inReg r)
  | upvalue (i : Nat) : IsTable ⟨.upvalue i, none, none⟩

/-- A value without jumps for which nothing has to be read. -/
structure IsPlain (e : Exp) : Prop where
  settled : e.kind.isSettled = true
  noTrue : e.whenTrue = none
  noFalse : e.whenFalse = none

end Exp

theorem toRegisterOrUpvalue_spec (h : Val F base e s) :
    Via Keeps (toRegisterOrUpvalue e) s fun t s' => Val F base t s' ∧ t.IsTable := by
  have hreg : Via Keeps (do return .inReg (← toAnyRegister e)) s fun t s' =>
      Val F base t s' ∧ t.IsTable := by
    refine Via.bind (toAnyRegister_spec h) ?_
    intro r s' _ hv
    exact Via.pure ⟨hv, .inReg r⟩
  unfold toRegisterOrUpvalue
  cases hk : e.kind with
  | upvalue i =>
    refine Via.ite (fun _ => hreg) fun _ => Via.pure ⟨h, ?_⟩
    have he := h.eta (by rw [hk]; rfl)
    rw [he, hk]
    exact .upvalue i
  | _ => exact hreg

theorem toValue_spec (h : Val F base e s) :
    Via Keeps (toValue e) s fun e' s' => Val F base e' s' ∧ e'.IsPlain := by
  unfold toValue
  refine Via.ite (fun _ => ?_) fun hj => ?_
  · refine Via.bind (toAnyRegister_spec h) ?_
    intro r s' _ hv
    exact Via.pure ⟨hv, rfl, rfl, rfl⟩
  · obtain ⟨hT, hE⟩ := h.noJumps (by simpa using hj)
    refine Via.mono (dischargeVars_spec h) ?_
    rintro e' s' - ⟨hv, hs, ⟨hT', hE'⟩, -⟩
    exact ⟨hv, hs, hT'.trans hT, hE'.trans hE⟩

end Compile

end LuaChunk
