import LuaChunk.Proofs.Compile.Function
import LuaChunk.Compile.Statement

/-!
Expressions with any number of values, and lists of expressions that are made to have a given number
of values. An operand may be written before it is known that its registers are there: then the
registers are asked for next, and if there are not enough of them nothing more happens.
-/

set_option autoImplicit false

namespace LuaChunk

open JumpList (Code IsOp Chain)

namespace Compile

variable {F : List Pending} {base n count c m pc : Nat} {e : Exp} {s s' : State} {live : Nat → Prop}

/-- The state in which a call or vararg expression has `c - 1` values, or any number if `c` is 0. -/
def State.setReturns (s : State) (e : Exp) (c : Nat) : State :=
  match e.kind with
  | .call pc => s.setAt pc [(.c, c)]
  | .vararg pc => s.setAt pc [(.c, c), (.a, s.fn.freeReg)]
  | _ => s

theorem Exp.isMulti_iff : e.isMulti = true ↔ (∃ pc, e.kind = .call pc) ∨
    ∃ pc, e.kind = .vararg pc := by
  unfold Exp.isMulti
  split <;> simp_all

theorem Inv.setCall {live : Nat → Prop} (h : Inv F none (· < base + 1) s)
    (hend : s.EndsWith pc .call base 2) (hc : c ≤ 255)
    (hm : base + (c - 1) ≤ s.fn.maxStack) (hlive : ∀ r, live r → r < base + (c - 1)) :
    Inv F none live (s.setAt pc [(.c, c)]) ∧ (s.setAt pc [(.c, c)]).EndsWith pc .call base c := by
  obtain ⟨hpc, hL, i, hi, hop, ha, hc₂⟩ := hend
  have hf : Instruction.Field.c.fits c = true := (Instruction.Field.fits_iff _ _).2 hc
  have hop' : (i.setAll [(.c, c)]).opcode? = some .call := by
    rw [Instruction.opcode?_setAll _ _ rfl, hop]
  have ha' : (i.setAll [(.c, c)]).a = base := (Instruction.get_setAll_apart .a _ i rfl).trans ha
  have hb' : (i.setAll [(.c, c)]).b = i.b := Instruction.get_setAll_apart .b _ i rfl
  have hc' : (i.setAll [(.c, c)]).c = c := Instruction.get_set_fits i hf (by decide) (by decide)
  have hreads : (i.setAll [(.c, c)]).reads = i.reads := by
    rw [Instruction.reads_eq hop', Instruction.reads_eq hop]
    show List.range' (Instruction.a _) (max (Instruction.b _) 1) = List.range' i.a (max i.b 1)
    rw [ha', hb', ha]
  have hwrites : (i.setAll [(.c, c)]).writes = List.range' base (c - 1) := by
    rw [Instruction.writes_eq hop']
    show List.range' (Instruction.a _) (Instruction.c _ - 1) = _
    rw [ha', hc']
  have hold : i.writes = [base] := by
    rw [Instruction.writes_eq hop]
    show List.range' i.a (i.c - 1) = _
    rw [ha, hc₂]
    rfl
  refine ⟨Inv.setAt h.base (by simp [hf]) (h.sound.editLast hpc hL hi hop hop' (.inl rfl) ?_ ?_ ?_)
    (.modify_free hi hop hop' rfl rfl) h.held, ?_⟩
  · intro r hr
    rw [Instruction.registers_eq hop'] at hr
    change r ∈ List.range' (Instruction.a _) (max (Instruction.b _) 1) ++
      List.range' (Instruction.a _) (Instruction.c _ - 1) at hr
    rw [ha', hb', hc'] at hr
    rcases List.mem_append.1 hr with hr | hr
    · refine h.sound.bounds.lt hi (Instruction.ne_of_opcode hop (by simp)) r ?_
      rw [Instruction.registers_eq hop]
      refine List.mem_append_left _ ?_
      rwa [ha]
    · have := List.mem_range'_1.1 hr
      show r < s.fn.maxStack
      omega
  · intro r hr
    rw [hreads] at hr
    exact .inl hr
  · intro r hr
    have := hlive r hr
    rw [hwrites, hold]
    by_cases hrb : r < base
    · exact .inl ⟨by omega, by simp; omega⟩
    · exact .inr (.inr (List.mem_range'_1.2 (by omega)))
  · refine ⟨by simpa [State.setAt] using hpc, hL, _, ?_, hop', ha', hc'⟩
    show (s.fn.code.modify pc _)[pc]? = _
    rw [Array.getElem?_modify, if_pos rfl]
    exact congrArg (Option.map _) hi

theorem Inv.setVararg' {live : Nat → Prop} (h : Inv F none (· < base) s)
    (hend : s.EndsWith pc .vararg 0 1) (hc : c ≤ 255)
    (hb : base < s.fn.maxStack) (hm : base + (c - 1) ≤ s.fn.maxStack)
    (hlive : ∀ r, live r → r < base + (c - 1)) :
    Inv F none live (s.setAt pc [(.c, c), (.a, base)]) := by
  obtain ⟨hpc, hL, i, hi, hop, ha, hc₂⟩ := hend
  have hstack := h.maxStack_le
  have hfc : Instruction.Field.c.fits c = true := (Instruction.Field.fits_iff _ _).2 hc
  have hfa : Instruction.Field.a.fits base = true :=
    (Instruction.Field.fits_iff _ _).2 (show base ≤ 255 by omega)
  obtain ⟨hc', ha'⟩ := Instruction.get_setAll_two i hfc hfa rfl rfl
  have hop' : (i.setAll [(.c, c), (.a, base)]).opcode? = some .vararg := by
    rw [Instruction.opcode?_setAll _ _ rfl, hop]
  have hwrites : (i.setAll [(.c, c), (.a, base)]).writes = List.range' base (c - 1) := by
    rw [Instruction.writes_eq hop']
    show List.range' (Instruction.get _ .a) (Instruction.get _ .c - 1) = _
    rw [ha', hc']
  have hold : i.writes = [] := by
    rw [Instruction.writes_eq hop]
    show List.range' i.a (i.c - 1) = _
    rw [hc₂]
    rfl
  refine Inv.setAt h.base (by simp [hfc, hfa])
    (h.sound.editLast hpc hL hi hop hop' (.inr (.inl rfl)) ?_ ?_ ?_)
    (.modify_free hi hop hop' rfl rfl) h.held
  · intro r hr
    rw [Instruction.registers_eq hop'] at hr
    change r ∈ Instruction.get _ .a :: List.range' (Instruction.get _ .a) (Instruction.get _ .c - 1)
      at hr
    rw [ha', hc'] at hr
    show r < s.fn.maxStack
    rcases List.mem_cons.1 hr with rfl | hr
    · exact hb
    · have := List.mem_range'_1.1 hr
      omega
  · intro r hr
    rw [Instruction.reads_eq hop'] at hr
    exact nomatch hr
  · intro r hr
    have := hlive r hr
    rw [hwrites, hold]
    by_cases hrb : r < base
    · exact .inl ⟨hrb, by simp⟩
    · exact .inr (.inr (List.mem_range'_1.2 (by omega)))

theorem Inv.setReturns (h : Val F base e s) (he : e.isMulti = true) (hm : s.fn.maxStack ≤ m)
    (hb : base + 1 ≤ m)
    (hc : base + (c - 1) ≤ m) (hm' : m ≤ 254) : Inv F none (· < base + (c - 1))
    ((s.setReturns e c).raise m) := by
  rcases Exp.isMulti_iff.1 he with ⟨pc, hk⟩ | ⟨pc, hk⟩
  · have hi := h.bareInv (by rw [hk]; rfl)
    have hp := h.place
    rw [hk] at hp
    rw [hp.1] at hi
    have := (Inv.setCall (s := s.raise m) (hi.raise hm hm') hp.2 (by omega) hc fun r hr => hr).1
    unfold State.setReturns
    rw [hk]
    exact this
  · have hi := h.bareInv (by rw [hk]; rfl)
    have hp := h.place
    rw [hk] at hp
    rw [hp.1] at hi
    have := Inv.setVararg' (s := s.raise m) (hi.raise hm hm') hp.2 (by omega) hb hc fun r hr => hr
    unfold State.setReturns
    rw [hk, hp.1]
    exact this

theorem Via.setReturns {count : Option Nat} {Q : Unit → State → Prop} (h : Val F base e s)
    (he : e.isMulti = true)
    (hc : c = match count with
      | some n => n + 1
      | none => 0)
    (hq : ∀ m, s.fn.maxStack ≤ m → base + 1 ≤ m → m ≤ 254 →
      Q () (((s.setReturns e c).raise m).setFree (base + 1))) :
    Via Keeps (Compile.setReturns e count) s Q := by
  subst hc
  have hp := h.place
  have hroom := h.room
  have hstack := h.maxStack_le
  unfold Compile.setReturns
  unfold State.setReturns at hq
  rcases Exp.isMulti_iff.1 he with ⟨pc, hk⟩ | ⟨pc, hk⟩
  · rw [hk] at hp hq ⊢
    have hlt : pc < s.fn.code.size := by have := hp.2.1; omega
    refine Via.setAt hlt ?_
    have := hq s.fn.maxStack (Nat.le_refl _) (by rw [← hp.1]; exact hroom) hstack
    rw [← hp.1] at this
    exact this
  · rw [hk] at hp hq ⊢
    have hlt : pc < s.fn.code.size := by have := hp.2.1; omega
    refine Via.next (Via.freeReg (Via.next (Via.setAt hlt ?_)))
    refine Via.reserve hstack fun m h₁ h₂ h₃ => ?_
    change s.fn.freeReg + 1 ≤ m at h₂
    have := hq m h₁ (by rw [← hp.1]; exact h₂) h₃
    rw [← hp.1] at this
    exact this

theorem setOpenReturns_spec (h : Val F base e s) (he : e.isMulti = true) :
    Via Keeps (setReturns e none) s fun _ s' => Inv F none (· < base) s' ∧
      s'.fn.freeReg = base + 1 ∧
      ∀ pc, e.kind = .call pc → s'.EndsWith pc .call base 0 := by
  refine Via.setReturns (c := 0) h he rfl fun m h₁ h₂ h₃ => ⟨?_, rfl, fun pc hk => ?_⟩
  · exact (Inv.setReturns (c := 0) h he h₁ h₂ (by omega) h₃).setFree h₂
  · have hi := h.bareInv (by rw [hk]; rfl)
    have hp := h.place
    rw [hk] at hp
    rw [hp.1] at hi
    have := (Inv.setCall (s := s.raise m) (c := 0) (hi.raise h₁ h₃) hp.2 (Nat.zero_le _)
      (show base + (0 - 1) ≤ m by omega)
      fun r hr => hr).2
    unfold State.setReturns
    rw [hk]
    exact this

/-- A list of `n` expressions from register `base` on, the last of which is `e`; the others are in
registers. -/
inductive Listed (F : List Pending) (base : Nat) : Nat → Exp → State → Prop
  | empty {s : State} (hl : s.level ≤ base) (hf : s.fn.freeReg = base)
    (h : Inv F none (· < s.fn.freeReg) s) :
    Listed F base 0 .void s
  | cons {n : Nat} {e : Exp} {s : State} (hl : s.level ≤ base) (h : Val F (base + n) e s) : Listed F
    base (n + 1) e s

/-- What has been asked for: `count` values from register `base` on. -/
def State.Holds (F : List Pending) (base count : Nat) (s : State) : Prop :=
  s.fn.freeReg = base + count ∧ Inv F none (· < base + count) s

theorem State.raise_loadNil {start : Nat} :
    (s.loadNil start n).raise m = (s.raise m).loadNil start n := by
  unfold State.loadNil
  rw [show (s.raise m).previous = s.previous from rfl]
  split <;> rfl

theorem State.loadNil_fn (s : State) (start n : Nat) :
    (s.loadNil start n).fn.freeReg = s.fn.freeReg ∧
      (s.loadNil start n).fn.maxStack = s.fn.maxStack := by
  unfold State.loadNil
  split <;> exact ⟨rfl, rfl⟩

theorem fillNil_spec (h : Inv F none (· < base + n) s) (hf : s.fn.freeReg = base + n)
    (hn : n < count) :
    Via Keeps (do
      loadNil (← freeReg) (count - n)
      if n < count then reserve (count - n)
      else modifyFn fun f => { f with freeReg := f.freeReg - (n - count) }) s fun _ s' =>
        s'.Holds F base count := by
  refine Via.next (Via.freeReg (Via.next (Via.loadNil ?_)))
  rw [if_pos hn]
  obtain ⟨hfree, hstack⟩ := s.loadNil_fn s.fn.freeReg (count - n)
  refine Via.reserve (by rw [hstack]; exact h.maxStack_le) fun m h₁ h₂ h₃ => ?_
  rw [hstack] at h₁
  rw [hfree] at h₂ ⊢
  have hi : Inv F none (· < base + count) ((s.raise m).loadNil s.fn.freeReg (count - n)) :=
    (h.raise h₁ h₃).loadNil (by omega) h₂ fun r hr => by omega
  rw [← State.raise_loadNil] at hi
  exact ⟨by show s.fn.freeReg + (count - n) = _; omega, hi.setFree h₂⟩

theorem trim_spec (h : Inv F none (· < base + n) s) (hf : s.fn.freeReg = base + n)
    (hn : ¬ n < count) :
    Via Keeps (if n < count then reserve (count - n)
      else modifyFn fun f => { f with freeReg := f.freeReg - (n - count) }) s fun _ s' =>
        s'.Holds F base count := by
  have hroom := h.room
  rw [if_neg hn]
  refine ⟨Keeps.setFree s (s.fn.freeReg - (n - count)), ?_, ?_⟩
  · show s.fn.freeReg - (n - count) = _
    omega
  · exact (h.weaken fun r hr => by omega).setFree (r := s.fn.freeReg - (n - count)) (by omega)

theorem Val.isVoid (h : Val F base e s) : e.isVoid = false := by
  obtain ⟨kind, T, E⟩ := e
  cases kind <;> first | rfl | exact h.place.elim

theorem adjustMulti_spec {k : Nat} (h : Val F (base + k) e s) (he : e.isMulti = true) :
    Via Keeps (do
      setReturns e (some (count + 1 - (k + 1)))
      if k + 1 < count then reserve (count - (k + 1))
      else modifyFn fun f => { f with freeReg := f.freeReg - (k + 1 - count) }) s fun _ s' =>
        s'.Holds F base count := by
  have hinv := fun m => Inv.setReturns (m := m) (c := count + 1 - (k + 1) + 1) h he
  refine Via.next (Via.setReturns h he rfl fun m h₁ h₂ h₃ => ?_)
  refine Via.ite (fun hlt => ?_) fun hge => ?_
  · refine Via.reserve h₃ fun m' h₁' h₂' h₃' => ?_
    change m ≤ m' at h₁'
    change base + k + 1 + (count - (k + 1)) ≤ m' at h₂'
    have hi := hinv m' (by omega) (by omega) (by omega) h₃'
    refine ⟨?_, (hi.weaken fun r hr => ?_).setFree h₂'⟩
    · show base + k + 1 + (count - (k + 1)) = _
      omega
    · omega
  · have hi := hinv m h₁ h₂ (by omega) h₃
    refine ⟨Keeps.setFree _ (base + k + 1 - (k + 1 - count)), ?_, ?_⟩
    · show base + k + 1 - (k + 1 - count) = _
      omega
    · refine (hi.weaken fun r hr => ?_).setFree (r := base + k + 1 - (k + 1 - count)) ?_
      · omega
      · show _ ≤ m
        omega

theorem adjustValues_spec (count : Nat) (h : Listed F base n e s) :
    Via Keeps (adjustValues count (n, e)) s fun _ s' => s'.Holds F base count := by
  unfold adjustValues
  cases h with
  | empty hl hf hi =>
    refine Via.ite (fun hm => nomatch hm) fun _ => Via.ite (fun hv => nomatch hv) fun _ => ?_
    rw [hf] at hi
    refine Via.ite (fun hn => ?_) fun hn => ?_
    · exact fillNil_spec hi hf hn
    · exact trim_spec hi hf hn
  | cons hl h =>
    rename_i k
    refine Via.ite (fun hm => adjustMulti_spec h hm) fun hm => ?_
    refine Via.ite (fun _ => ?_) fun hv => ?_
    · refine Via.next (Via.discard ((toNextRegister_spec h).mono fun r s₁ _ ⟨_, hf, hv⟩ => ?_))
      have hi := hv.inv_inReg
      rw [hf] at hi
      refine Via.ite (fun hn => ?_) fun hn => ?_
      · exact fillNil_spec hi hf hn
      · exact trim_spec hi hf hn
    · rw [h.isVoid] at hv
      exact absurd rfl hv

end Compile

end LuaChunk
