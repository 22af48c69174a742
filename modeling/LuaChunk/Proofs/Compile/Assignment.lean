import LuaChunk.Proofs.Compile.Control

set_option autoImplicit false

namespace LuaChunk

open JumpList (Code IsOp Chain)

namespace Compile

variable {F : List Pending} {base n count copy line : Nat} {e target v : Exp} {earlier : List Exp}
  {s s' : State}
  {r : Nested}

theorem withCopy_same (h : (target.withCopy v copy).2 = false) :
    (target.withCopy v copy).1 = target := by
  obtain ⟨kind, T, E⟩ := target
  unfold Exp.withCopy at h ⊢
  split at h
  · split at h <;> simp_all
  · split at h <;> simp_all
  · split at h <;> simp_all
  · simp_all
  · rfl

theorem withCopy_target {base' : Nat} (h : s.Target base target.kind) (hb : base ≤ base')
    (hc : copy < base') :
    s.Target base' (target.withCopy v copy).1.kind := by
  obtain ⟨kind, T, E⟩ := target
  unfold Exp.withCopy
  split
  · rename_i i _ hk _
    simp only at hk
    subst hk
    split
    · exact ⟨hc, h.2⟩
    · exact h
  · rename_i hk _
    simp only at hk
    subst hk
    split
    · exact ⟨hc, h.2⟩
    · exact ⟨Nat.lt_of_lt_of_le h.1 hb, h.2⟩
  · rename_i hk _
    simp only at hk
    subst hk
    split
    · exact ⟨hc, h.2⟩
    · exact ⟨Nat.lt_of_lt_of_le h.1 hb, h.2⟩
  · rename_i hk _
    simp only at hk
    subst hk
    refine ⟨?_, ?_⟩
    · split
      · exact hc
      · exact Nat.lt_of_lt_of_le h.1 hb
    · split
      · exact hc
      · exact Nat.lt_of_lt_of_le h.2 hb
  · exact h.mono (Keeps.refl s) hb

theorem withCopy_variable (h : (target.withCopy v copy).2 = true) :
    (∃ q i, v.kind = .localVar q i) ∨ ∃ i, v.kind = .upvalue i := by
  unfold Exp.withCopy at h
  split at h
  · exact .inr ⟨_, ‹_›⟩
  · exact .inl ⟨_, _, ‹_›⟩
  · exact .inl ⟨_, _, ‹_›⟩
  · exact .inl ⟨_, _, ‹_›⟩
  · cases h

theorem Inv.pushCopy {op : Opcode} {b k : Nat} (h : Inv F none (· < s.fn.freeReg) s)
    (hk : s.fn.maxStack ≤ k)
    (hfree : s.fn.freeReg + 1 ≤ k) (hk' : k ≤ 254) (hb : b ≤ 255) (hp : op.isPlain = true)
    (hw : ∀ w : Instruction, w.a = s.fn.freeReg → w.b = b →
      (∀ r ∈ w.registersOf op, r < k) ∧ (∀ r ∈ w.readsOf op, r < s.fn.freeReg) ∧
        w.writesOf op = [s.fn.freeReg])
    (hx : ∀ w : Instruction, w.b = b → w.Serves s.fn.references op []) :
    Inv F none (· < s.fn.freeReg + 1)
      (((s.emit (.abck op s.fn.freeReg b 0 0)).raise k).setFree (s.fn.freeReg + 1)) := by
  have hi : Inv F none (· < s.fn.freeReg + 1) ((s.raise k).emit (.abck op s.fn.freeReg b 0 0)) := by
    refine (h.raise hk hk').pushABC (by omega) hp (.inl rfl) (fun w ha hb _ _ => ?_)
      fun w _ hb _ _ => hx w hb
    obtain ⟨h₁, h₂, h₃⟩ := hw w ha hb
    refine ⟨h₁, h₂, fun q hq => ?_⟩
    rw [h₃, List.mem_singleton]
    omega
  exact hi.setFree hfree

theorem Read.above (h : Read F base v s)
    (hv : (∃ q i, v.kind = .localVar q i) ∨ ∃ i, v.kind = .upvalue i)
    (hk : Keeps s s') (hi : Inv F none (· < s'.fn.freeReg) s') (hl : s.level ≤ s'.fn.freeReg) :
    Read F s'.fn.freeReg v s' := by
  have hplace := h.place
  rcases hv with ⟨q, i, hv⟩ | ⟨i, hv⟩
  · rw [h.eta (by rw [hv]; rfl), hv]
    rw [hv] at hplace
    refine ⟨.ofKind (by rw [hk.level]; exact hl) hi ⟨rfl, ?_, ?_⟩, .of_ne fun _ he => nomatch he⟩
    · rw [hk.level]
      exact hplace.2.1
    · rw [hk.active]
      exact hplace.2.2
  · rw [h.eta (by rw [hv]; rfl), hv]
    rw [hv] at hplace
    refine ⟨.ofKind (by rw [hk.level]; exact hl) hi ⟨rfl, ?_⟩, .of_ne fun _ he => nomatch he⟩
    exact Nat.lt_of_lt_of_le hplace.2 hk.upvalues

theorem copyConflicts_spec (h : Read F base v s) (hl : s.Lawful v)
    (hall : ∀ t ∈ earlier, s.Target s.fn.freeReg t.kind) :
    Via Keeps (copyConflicts v earlier) s fun targets s' => targets.length = earlier.length ∧
      (∀ t ∈ targets, s'.Target s'.fn.freeReg t.kind) ∧ s'.Lawful v ∧
        ∃ base', Read F base' v s' := by
  refine Via.next (Via.freeReg ?_)
  have hstep : ∀ s', Keeps s s' → s'.target = s.target → s.fn.freeReg < s'.fn.freeReg →
      (∃ base', Read F base' v s') →
      Via Keeps (pure ((earlier.map fun t => t.withCopy v s.fn.freeReg).map (·.1)) : M (List Exp))
        s'
        fun targets s' => targets.length = earlier.length ∧
          (∀ t ∈ targets, s'.Target s'.fn.freeReg t.kind) ∧ s'.Lawful v ∧
            ∃ base', Read F base' v s' := by
    intro s' hk htarget hlt hv
    refine Via.pure ⟨by simp, fun t ht => ?_, h.toVal.lawful hl hk htarget, hv⟩
    simp only [List.map_map, List.mem_map, Function.comp_apply] at ht
    obtain ⟨u, hu, rfl⟩ := ht
    exact withCopy_target ((hall u hu).mono hk (Nat.le_refl _)) (Nat.le_of_lt hlt) hlt
  refine Via.ite (fun hany => ?_) fun hnone => ?_
  · obtain ⟨p, hp, hchanged⟩ := List.any_eq_true.1 hany
    obtain ⟨t, -, rfl⟩ := List.mem_map.1 hp
    have hvar := withCopy_variable hchanged
    have hmax := h.maxStack_le
    have hinv := h.bareInv (by rcases hvar with ⟨q, i, hk⟩ | ⟨i, hk⟩ <;> rw [hk] <;> rfl)
    have hlow : s.level ≤ s.fn.freeReg := Nat.le_trans h.low h.base_le
    have hcopied : ∀ (d : Draft), (∀ k, s.fn.maxStack ≤ k → s.fn.freeReg + 1 ≤ k → k ≤ 254 →
        Inv F none (· < s.fn.freeReg + 1) (((s.emit d).raise k).setFree (s.fn.freeReg + 1))) →
        Via Keeps (do
          reserve 1
          return (earlier.map fun t => t.withCopy v s.fn.freeReg).map (·.1)) (s.emit d)
            fun targets s' =>
            targets.length = earlier.length ∧ (∀ t ∈ targets, s'.Target s'.fn.freeReg t.kind) ∧
              s'.Lawful v ∧ ∃ base', Read F base' v s' := by
      intro d hd
      refine Via.next (Via.reserve (s := s.emit d) hmax fun k hk hfree hk' => ?_)
      have hkeep : Keeps s (((s.emit d).raise k).setFree (s.fn.freeReg + 1)) :=
        (Coded.emit s d).toKeeps.trans ((Keeps.raise _ hk).trans (Keeps.setFree _ _))
      exact hstep _ hkeep rfl (Nat.lt_succ_self _)
        ⟨_, h.above hvar hkeep (hd k hk hfree hk') (Nat.le_succ_of_le hlow)⟩
    rcases hvar with ⟨q, i, hk⟩ | ⟨i, hk⟩
    · rw [hk]
      have hq : q < s.level := by
        have hplace := h.place
        rw [hk] at hplace
        exact hplace.2.1
      refine Via.next (Via.discard (Via.emit (hcopied _ fun k hk hfree hk' => ?_)))
      have hle : q ≤ 255 := by omega
      refine hinv.pushCopy hk hfree hk' hle rfl (fun w ha hb => ?_) fun _ _ =>
        Instruction.serves_of_free rfl
      rw [show w.registersOf .move = [w.b, w.a] from rfl, show w.readsOf .move = [w.b] from rfl,
        show w.writesOf .move = [w.a] from rfl, ha, hb]
      simp only [List.mem_cons, List.not_mem_nil, or_false, forall_eq_or_imp, forall_eq, and_true]
      omega
    · rw [hk]
      have hi : i < s.fn.upvalues.size := by
        have hplace := h.place
        rw [hk] at hplace
        exact hplace.2
      have hu := h.toBase.upvalues_le
      refine Via.next (Via.discard (Via.emit (hcopied _ fun k hk hfree hk' => ?_)))
      have hle : i ≤ 255 := by omega
      refine hinv.pushCopy hk hfree hk' hle rfl (fun w ha hb => ?_)
        fun w hb => ⟨Nat.lt_of_le_of_lt (Nat.le_of_eq hb) hi, .nil⟩
      rw [show w.registersOf .getUpval = [w.a] from rfl, show w.readsOf .getUpval = [] from rfl,
        show w.writesOf .getUpval = [w.a] from rfl, ha]
      simp only [List.mem_cons, List.not_mem_nil, or_false, forall_eq, and_true, false_implies,
        implies_true]
      omega
  · refine Via.pure ⟨by simp, fun t ht => ?_, hl, base, h⟩
    simp only [List.map_map, List.mem_map, Function.comp_apply] at ht
    obtain ⟨u, hu, rfl⟩ := ht
    rw [withCopy_same]
    · exact hall u hu
    · simp only [List.any_map, List.any_eq_true, Function.comp_apply, not_exists, not_and,
        Bool.not_eq_true] at hnone
      exact hnone u hu

theorem storeTop_spec {rest : List Exp} (h : Assigns F base (target :: rest) s) :
    Via Keeps (storeTop target) s fun _ s' => Assigns F base rest s' := by
  obtain ⟨hl, hall, hf, hi⟩ := h
  rw [List.length_cons] at hf hi
  refine Via.next (Via.freeReg ?_)
  have hr : s.fn.freeReg - 1 = base + rest.length := by omega
  rw [hr]
  have htarget : s.Target (base + rest.length) target.kind :=
    (hall target (List.mem_cons_self ..)).mono (Keeps.refl s) (Nat.le_add_right ..)
  have hfree : s.fn.freeReg = base + rest.length + 1 := hf
  refine (storeRegister_spec htarget (by omega) (by rw [hfree]; exact hi) (.inr ⟨rfl, hfree⟩)).mono
    ?_
  rintro _ s' hk ⟨hf', hi'⟩
  refine ⟨by rw [hk.level]; exact hl, fun t ht => ?_, hf', hi'⟩
  exact (hall t (List.mem_cons_of_mem _ ht)).mono hk (Nat.le_refl _)

theorem assignValues_spec (ok : NestedOk r) (h : Ready F s) (ht : s.Target s.fn.freeReg target.kind)
    (hall : ∀ t ∈ earlier, s.Target s.fn.freeReg t.kind) :
    Via Keeps (do
      let (n, e) ← expressionList r
      let count := earlier.length + 1
      if n = count then storeTo target (← setOneReturn e)
      else
        adjustValues count (n, e)
        storeTop target
      return earlier) s fun rest s' => rest.length = earlier.length ∧
        ∃ base', Assigns F base' rest s' := by
  refine Via.bind (expressionList_spec ok h) ?_
  rintro ⟨n, e⟩ s₁ hk₁ ⟨hlist, -⟩
  have hall₁ : ∀ t ∈ target :: earlier, s₁.Target s.fn.freeReg t.kind := by
    intro t hmem
    rcases List.mem_cons.1 hmem with rfl | hmem
    · exact ht.mono hk₁ (Nat.le_refl _)
    · exact (hall t hmem).mono hk₁ (Nat.le_refl _)
  have hlisted : Listed F s.fn.freeReg n e s₁ := hlist.listed
  obtain ⟨k, hn, hread, hlow⟩ := hlist
  change n = k + 1 at hn
  change Read F (s.fn.freeReg + k) e s₁ at hread
  refine Via.ite (fun heq => ?_) fun _ => ?_
  · obtain rfl : k = earlier.length := by omega
    refine Via.bind (setOneReturn_spec hread.toVal).widen fun e' s₂ _ ⟨hk₂, h₂⟩ => ?_
    have htarget : s₂.Target (s.fn.freeReg + earlier.length) target.kind :=
      (hall₁ target (List.mem_cons_self ..)).mono hk₂.toKeeps (Nat.le_add_right ..)
    refine Via.bind (storeTo_spec htarget h₂.val) ?_
    rintro _ s₃ hk₃ ⟨hi, hf, -⟩
    have hk := hk₂.toKeeps.trans hk₃
    refine Via.pure
      ⟨rfl, s.fn.freeReg, by rw [hk.level]; exact hlow, fun t hmem => ?_, hf h₂.single, hi⟩
    exact (hall₁ t (List.mem_cons_of_mem _ hmem)).mono hk (Nat.le_refl _)
  · refine Via.bind (adjustValues_spec (earlier.length + 1) hlisted) fun _ s₂ hk₂ h₂ => ?_
    have hassigns : Assigns F s.fn.freeReg (target :: earlier) s₂ :=
      ⟨by rw [hk₂.level]; exact hlow, fun t hmem => (hall₁ t hmem).mono hk₂ (Nat.le_refl _), h₂⟩
    exact Via.bind (storeTop_spec hassigns) fun _ s₃ _ h₃ => Via.pure ⟨rfl, _, h₃⟩

theorem assignLater_spec {later : Exp} {targets : List Exp} {n : Nat} (ok : NestedOk r)
    (hlen : targets.length = n + 1)
    (htargets : ∀ t ∈ targets, s.Target s.fn.freeReg t.kind) (h : Read F base later s)
    (hl : s.Lawful later) :
    Via Keeps (do
      match ← r.assign later targets with
      | target :: earlier =>
        storeTop target
        return earlier
      | [] => broken .indexInRange) s fun rest s' =>
        rest.length = n ∧ ∃ base', Assigns F base' rest s' := by
  refine Via.bind (ok.assign h hl htargets) ?_
  rintro rest s₁ - ⟨hrest, base', hassigns⟩
  cases rest with
  | nil =>
    rw [hlen] at hrest
    cases hrest
  | cons first rest =>
    refine Via.bind (storeTop_spec hassigns) fun _ s₂ _ h₂ => Via.pure ⟨?_, _, h₂⟩
    rw [hlen] at hrest
    exact Nat.succ.inj hrest

theorem assignRest_spec (ok : NestedOk r) (h : Read F base target s) (hl : s.Lawful target)
    (hall : ∀ t ∈ earlier, s.Target s.fn.freeReg t.kind) :
    Via Keeps (assignRest r target earlier) s fun rest s' =>
      rest.length = earlier.length ∧ ∃ base', Assigns F base' rest s' := by
  refine Via.ite (fun _ => Via.next Via.syntaxError) fun hvar => ?_
  have hvar' : target.isVariable = true := by simpa using hvar
  rw [checked_eq]
  refine Via.bind (checkReadOnly_spec h.toVal hl hvar') ?_
  rintro _ s₁ hk₁ ⟨⟨writes, hs₁⟩, hconst⟩
  have h₁ : Read F base target s₁ := hs₁ ▸ h.relog
  have ht := h₁.toVal.target hvar' hconst
  have hfree : s₁.fn.freeReg = s.fn.freeReg := hs₁ ▸ rfl
  have hall₁ : ∀ t ∈ target :: earlier, s₁.Target s₁.fn.freeReg t.kind := by
    intro t hmem
    rcases List.mem_cons.1 hmem with rfl | hmem
    · exact ht
    · exact (hall t hmem).mono hk₁ (Nat.le_of_eq hfree.symm)
  have hready : Ready F s₁ := ⟨h₁.bareInv (Exp.unsettled hvar'), Nat.le_trans h₁.low h₁.base_le⟩
  refine Via.next (Via.testNext hready.inv.base (by simp) (fun _ x hx => ?_) ?_)
  · refine Via.bind (suffixed_spec ok (hready.setLexer hx.toPasses)) fun later s₂ hk₂ ⟨h₂, hl₂⟩ =>
      ?_
    have hk : Keeps s₁ s₂ := (Coded.setLexer hx.toPasses).toKeeps.trans hk₂
    have hall₂ : ∀ t ∈ target :: earlier, s₂.Target s₂.fn.freeReg t.kind :=
      fun t hmem => (hall₁ t hmem).mono hk h₂.read.base_le
    refine Via.ite (fun _ => Via.next (Via.pure (assignLater_spec ok rfl hall₂ h₂.read hl₂)))
      fun _ => ?_
    refine Via.bind (copyConflicts_spec h₂.read hl₂ hall₂) ?_
    rintro targets s₃ - ⟨hlen, htargets, hl₃, base', hlater⟩
    exact assignLater_spec ok hlen htargets hlater hl₃
  · refine Via.next (Via.checkNext hready.inv.base (by simp) fun x hx => ?_)
    have hk : Keeps s₁ (s₁.setLexer x) := (Coded.setLexer hx.toPasses).toKeeps
    exact assignValues_spec ok (hready.setLexer hx.toPasses) (ht.mono hk (Nat.le_refl _))
      fun t hmem => (hall₁ t (List.mem_cons_of_mem _ hmem)).mono hk (Nat.le_refl _)

theorem Exp.Named.isIndexed {name : Bytes} (h : e.Named s name) : e.isIndexed = true := by
  obtain ⟨a, n, ⟨t, k, he⟩ | ⟨t, k, he⟩ | ⟨t, k, he⟩, -⟩ := h <;> simp [Exp.isIndexed, he]

theorem Exp.Named.ne_constVar {name : Bytes} (h : e.Named s name) (i : Nat) :
    e.kind ≠ .constVar i := by
  obtain ⟨a, n, ⟨t, k, he⟩ | ⟨t, k, he⟩ | ⟨t, k, he⟩, -⟩ := h <;> simp [he]

theorem Read.ready {name : Bytes} (h : Read F base e s) (hn : e.Named s' name) : Ready F s :=
  ⟨h.bareInv (Exp.unsettled hn.isVariable), Nat.le_trans h.low h.base_le⟩

/-- The operand of a check: the name of a global, unless its index is too large. -/
def State.Checks (s : State) (k : Nat) (meant : List Value) : Prop :=
  k = 0 ∧ meant = [] ∨ ∃ n : PoolEntry, k = n.index + 1 ∧ meant = [n.value] ∧
    s.fn.references.Holds Value.isText n.index ∧ s.fn.pool.Holds n

theorem State.Checks.serves {k : Nat} {meant : List Value} {w : Instruction} (h : s.Checks k meant)
    (hw : w.bx = k) :
    w.Serves s.fn.references .errNNil meant := by
  obtain ⟨rfl, rfl⟩ | ⟨n, rfl, rfl, htext, hholds⟩ := h
  · have hnone : w.constantsOf .errNNil = [] := if_pos hw
    exact ⟨.inl hw, hnone ▸ .nil⟩
  · have hindex : w.bx - 1 = n.index := by rw [hw, Nat.add_sub_cancel]
    have hone : w.constantsOf .errNNil = [w.bx - 1] := if_neg (by omega)
    refine ⟨.inr (hindex.symm ▸ htext), ?_⟩
    rw [hone]
    exact hholds.stand hindex

theorem pushCheck_spec {q k : Nat} {meant : List Value} (h : Val F base (.inReg q) s)
    (hs : 0 < s.fn.code.size)
    (hk : k ≤ Instruction.maxBx) (hname : s.Checks k meant) :
    Via Keeps (do
      fixLine line
      discard (emitABx .errNNil q k meant)
      fixLine line
      freeExp (.inReg q)) s fun _ s' => s'.fn.freeReg = base ∧ Inv F none (· < base) s' := by
  have hmax := h.maxStack_le
  have hroom := h.room
  have hq : q < s.fn.freeReg := h.slot.lt h.low
  have hd : (Draft.abx .errNNil q k).fits = true := Draft.fits_abx.2 ⟨by omega, hk⟩
  have hop : (Draft.abx .errNNil q k).word.opcode? = some .errNNil := Draft.opcode?_word _
  obtain ⟨ha, hbx⟩ := Draft.get_abx hd
  refine Via.next (Via.fixLine h.toBase hs (Via.next (Via.discard (Via.emit ?_))))
  have hi : Inv F none (· < s.fn.freeReg) ((s.fixLine line).emit (.abx .errNNil q k) meant) := by
    refine (h.inv_inReg.fixLine hs).push hd rfl (.inl rfl) ?_ ?_ (fun r hr => .inl hr)
      (hname.serves hbx)
    · rw [Instruction.registers_eq hop, show (Draft.abx .errNNil q k).word.registersOf .errNNil =
        [_] from rfl, ha]
      simp only [List.mem_singleton, forall_eq]
      exact Nat.lt_of_lt_of_le hq hroom
    · rw [Instruction.reads_eq hop, show (Draft.abx .errNNil q k).word.readsOf .errNNil =
        [_] from rfl, ha]
      simp only [List.mem_singleton, forall_eq]
      exact hq
  have hpos : 0 < ((s.fixLine line).emit (.abx .errNNil q k) meant).fn.code.size := by
    simp [State.emit]
  refine Via.next (Via.fixLine hi.base hpos ?_)
  have hkeep : Coded s (((s.fixLine line).emit (.abx .errNNil q k) meant).fixLine line) :=
    (Coded.fixLine s line).trans ((Coded.emit _ _ meant).trans (Coded.fixLine _ _))
  have hcat : ((s.fixLine line).emit (.abx .errNNil q k) meant).ConcatAt q :=
    State.concatAt_emit (by simp [Draft.opcode]) q
  have hv : Val F base (.inReg q)
      (((s.fixLine line).emit (.abx .errNNil q k) meant).fixLine line) :=
    .inReg (by rw [hkeep.level]; exact h.low) (hi.fixLine hpos) (h.slot.coded hkeep) fun _ =>
      hcat.fixLine
  refine (freeReg_spec hv).mono ?_
  rintro _ s' - rfl
  exact ⟨rfl, (hv.inv_inReg.setFree (Nat.le_trans hv.base_le hv.room)).weaken fun r hr =>
    Nat.lt_of_lt_of_le hr h.base_le⟩

theorem checkUndefined_spec {name : Bytes} (h : Ready F s) :
    Via Keeps (checkUndefined name line) s fun _ s' =>
      s'.fn.freeReg = s.fn.freeReg ∧ Inv F none (· < s.fn.freeReg) s' := by
  refine Via.bind (globalAccess_spec h.inv h.low) ?_
  rintro e s₁ - ⟨h₁, -, hn⟩
  have hrest : ∀ k : PoolEntry,
      (∃ t, k.value = .str t ∧ s₁.fn.pool.values[k.index]? = some (.str t)) → Via Keeps (do
      let r ← toAnyRegister e
      fixLine line
      if Instruction.maxBx ≤ k.index then discard (emitABx .errNNil r 0)
      else discard (emitABx .errNNil r (k.index + 1) [k.value])
      fixLine line
      freeExp (.inReg r)) s₁ fun _ s' => s'.fn.freeReg = s.fn.freeReg ∧
        Inv F none (· < s.fn.freeReg) s' := by
    rintro k ⟨t, hv, ht⟩
    refine Via.bind (toAnyRegister_indexed h₁.toVal hn.isIndexed) fun q s₂ hk₂ ⟨h₂, hs⟩ => ?_
    by_cases hbig : Instruction.maxBx ≤ k.index
    · simp only [if_pos hbig]
      exact pushCheck_spec h₂ hs (Nat.zero_le _) (.inl ⟨rfl, rfl⟩)
    · simp only [if_neg hbig]
      have ht₂ := hk₂.pool _ _ ht
      exact pushCheck_spec h₂ hs (Nat.lt_of_not_le hbig)
        (.inr ⟨k, rfl, rfl, ⟨_, ht₂, rfl⟩, _, ht₂, .inl hv.symm⟩)
  obtain ⟨⟨_, readOnly⟩, k, ha, rfl, -⟩ := hn
  rcases ha with ⟨t, q, he⟩ | ⟨t, q, he⟩ | ⟨t, q, he⟩
  all_goals
    have hp := h₁.toVal.place
    rw [he] at hp ⊢
    refine Via.next (Via.pure (hrest k ?_))
  · exact hp.2.text k rfl
  · exact hp.2.2.2.text k rfl
  · exact hp.2.2.text k rfl

theorem initGlobals_spec {names : List Bytes} (ok : NestedOk r) (h : Ready F s)
    (hc : names.length ≤ count) :
    Via Keeps (initGlobals r count line names) s fun _ s' =>
      ∃ base, s.fn.freeReg ≤ base ∧ s'.Holds F base (count - names.length) := by
  cases names with
  | nil =>
    refine Via.bind (expressionList_spec ok h) ?_
    rintro list s₁ - ⟨hlist, -⟩
    exact (adjustValues_spec count hlist.listed).mono fun _ s₂ _ h₂ => ⟨_, Nat.le_refl _, h₂⟩
  | cons name rest =>
    rw [List.length_cons] at hc
    refine Via.bind (globalAccess_spec h.inv h.low) fun target s₁ hk₁ ⟨h₁, _, hn⟩ => ?_
    have hready := h₁.ready hn
    have htarget := h₁.toVal.target hn.isVariable hn.ne_constVar
    have hinit : Via Keeps (r.initGlobals count line rest) s₁ _ :=
      ok.initGlobals hready (Nat.le_of_succ_le hc)
    refine Via.bind hinit ?_
    rintro _ s₂ hk₂ ⟨base, hle, hf₂, hi₂⟩
    have hl₂ : s₂.level ≤ base := by
      rw [hk₂.level]
      exact Nat.le_trans hready.low hle
    have hready₂ : Ready F s₂ := ⟨by rw [hf₂]; exact hi₂, by omega⟩
    refine Via.bind (checkUndefined_spec hready₂) ?_
    rintro _ s₃ hk₃ ⟨hf₃, hi₃⟩
    rw [hf₂] at hf₃ hi₃
    refine Via.next (Via.freeReg ?_)
    have hlast : s₃.fn.freeReg = base + (count - (rest.length + 1)) + 1 := by omega
    have hbase : base ≤ base + (count - (rest.length + 1)) := Nat.le_add_right ..
    have ht : s₃.Target (base + (count - (rest.length + 1))) target.kind :=
      htarget.mono (hk₂.trans hk₃) (Nat.le_trans hle hbase)
    refine (storeRegister_spec (F := F) ht ?_ ?_ (.inr ⟨?_, hlast⟩)).mono ?_
    · rw [hk₃.level]
      exact Nat.le_trans hl₂ hbase
    · rw [hf₃]
      exact hi₃
    · omega
    · rintro _ s₄ - ⟨hf₄, hi₄⟩
      exact ⟨base, Nat.le_trans h₁.base_le hle, hf₄, hi₄⟩

end Compile

end LuaChunk
