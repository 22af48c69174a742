import LuaChunk.Proofs.Compile.Expression

set_option autoImplicit false

namespace LuaChunk

open JumpList (Code IsOp Chain)

namespace Compile

variable {F P : List Pending} {base n m count pc line limit table stored list records : Nat}
  {e key : Exp}
  {s s' : State} {r : Nested} {live live' : Nat → Prop} {c : Constructor}

theorem Inv.pushTable {reg : Nat} (live' : Nat → Prop) (h : Inv F none live s) (hreg : reg < 255)
    (hlive : ∀ r, live' r → live r ∨ r = reg) :
    Inv (.table s.fn.code.size reg :: F) none live'
      ((s.emit (.vabck .newTable 0 0 0 0)).emit (.abck .move 0 0 0 0)) := by
  have hd : (Draft.vabck .newTable 0 0 0 0).fits = true := by decide
  have hd' : (Draft.abck .move 0 0 0 0).fits = true := by decide
  have hop := Draft.opcode?_word (.vabck .newTable 0 0 0 0)
  have hop' := Draft.opcode?_word (.abck .move 0 0 0 0)
  have hpos : 0 < s.fn.maxStack := Nat.lt_of_lt_of_le Nat.two_pos h.base.stack
  refine ⟨(h.base.emit hd (Draft.refers_of_free rfl)).emit hd' (Draft.refers_of_free rfl),
    h.sound.pushTable hop hop' ?_ ?_ hreg hlive, h.held⟩
  · intro q hq
    rw [Instruction.registers_eq hop] at hq
    cases List.mem_singleton.1 (show q ∈ [(Draft.vabck .newTable 0 0 0 0).word.a] from hq)
    rw [(Draft.get_vabck hd).1]
    exact hpos
  · intro q hq
    rw [Instruction.registers_eq hop'] at hq
    change q ∈ [(Draft.abck .move 0 0 0 0).word.b, (Draft.abck .move 0 0 0 0).word.a] at hq
    rw [(Draft.get_abck hd').1, (Draft.get_abck hd').2.1] at hq
    have : q = 0 := by simpa using hq
    rw [this]
    exact hpos

theorem setList_effect {i : Instruction} : i.readsOf .setList = List.range' i.a (i.vb + 1) ∧
    i.registersOf .setList = List.range' i.a (i.vb + 1) := ⟨rfl, List.append_nil _⟩

theorem emitSetList_spec {items : Option Nat} (hi : Inv P none (· < m) s)
    (hm : table + items.getD 0 < m)
    (hroom : m ≤ s.fn.maxStack) (hn : items.getD 0 ≤ 63) (hs : stored ≤ 1073741823) :
    Via Keeps (emitSetList table stored items) s fun _ s' =>
      s'.fn.freeReg = table + 1 ∧ Inv P none (· < table + 1) s' ∧ ∀ q, s'.ConcatAt q := by
  have hstack := hi.maxStack_le
  unfold emitSetList
  generalize items.getD 0 = count at hm hn ⊢
  have hregs : ∀ w : Instruction, w.a = table → w.vb = count → ∀ q ∈ List.range' w.a (w.vb + 1),
      q < m := by
    intro w ha hb q hq
    have := List.mem_range'_1.1 hq
    omega
  refine Via.ite (fun hle => ?_) fun hgt => ?_
  · have hd : (Draft.vabck .setList table count stored 0).fits = true :=
      Draft.fits_vabck.2 ⟨by omega, by omega, hle, Nat.zero_le _⟩
    obtain ⟨ha, hb, -, hk⟩ := Draft.get_vabck hd
    have hop := Draft.opcode?_word (.vabck .setList table count stored 0)
    refine Via.next (Via.discard (Via.emit (Via.setFreeReg
      ⟨rfl, ?_, @State.concatAt_emit s _ [] (by simp [Draft.opcode])⟩)))
    have hinv : Inv P none (· < m) (s.emit (.vabck .setList table count stored 0)) := by
      refine ⟨hi.base.emit hd (Draft.refers_of_free rfl), hi.sound.pushSetList hop hk ?_ ?_,
        hi.held⟩
      · rw [Instruction.registers_eq hop]
        exact fun q hq => Nat.lt_of_lt_of_le (hregs _ ha hb q (setList_effect.2 ▸ hq)) hroom
      · rw [Instruction.reads_eq hop]
        exact fun q hq => hregs _ ha hb q (setList_effect.1 ▸ hq)
    exact (hinv.weaken fun q hq => by omega).setFree (show table + 1 ≤ s.fn.maxStack by omega)
  · have hd : (Draft.vabck .setList table count (stored % (Instruction.maxVC + 1)) 1).fits = true :=
      Draft.fits_vabck.2
        ⟨by omega, by omega, Nat.le_of_lt_succ (Nat.mod_lt _ (Nat.succ_pos _)), Nat.le_refl _⟩
    have hd' : (Draft.ax .extraArg (stored / (Instruction.maxVC + 1))).fits = true := by
      refine Draft.fits_ax.2 ?_
      simp only [Instruction.maxVC]
      omega
    obtain ⟨ha, hb, -, hk⟩ := Draft.get_vabck hd
    have hop := Draft.opcode?_word
      (.vabck .setList table count (stored % (Instruction.maxVC + 1)) 1)
    refine Via.next (Via.discard (Via.emit (Via.next (Via.discard (Via.emit (Via.setFreeReg
      ⟨rfl, ?_, @State.concatAt_emit (s.emit _) _ [] (by simp [Draft.opcode])⟩))))))
    have hinv : Inv P none (· < m)
        ((s.emit (.vabck .setList table count (stored % (Instruction.maxVC + 1)) 1)).emit
        (.ax .extraArg (stored / (Instruction.maxVC + 1)))) := by
      refine ⟨(hi.base.emit hd (Draft.refers_of_free rfl)).emit hd'
        ⟨⟨trivial, .nil⟩, by simp [Draft.opcode]⟩,
        hi.sound.pushExtra hop (.inr ⟨rfl, hk⟩) (Draft.opcode?_word _) ?_ ?_
        fun q hq => .inl hq, hi.held⟩
      · rw [Instruction.registers_eq hop]
        exact fun q hq => Nat.lt_of_lt_of_le (hregs _ ha hb q (setList_effect.2 ▸ hq)) hroom
      · rw [Instruction.reads_eq hop]
        exact fun q hq => hregs _ ha hb q (setList_effect.1 ▸ hq)
    exact (hinv.weaken fun q hq => by omega).setFree (show table + 1 ≤ s.fn.maxStack by omega)

theorem ceilLog2_le (h : n ≤ 1073741823) : ceilLog2 n ≤ 30 := by
  unfold ceilLog2
  split
  · omega
  · have : (n - 1).log2 < 30 := (Nat.log2_lt (by omega)).2 (by omega)
    omega

theorem modify_two {code : Code} (h : pc + 1 < code.size) (i j : Instruction) :
    ((code.modify pc fun _ => i).modify (pc + 1) fun _ => j).size = code.size ∧
      ((code.modify pc fun _ => i).modify (pc + 1) fun _ => j)[pc]? = some i ∧
      ((code.modify pc fun _ => i).modify (pc + 1) fun _ => j)[pc + 1]? = some j ∧
      ∀ p, p ≠ pc → p ≠ pc + 1 → ((code.modify pc fun _ => i).modify (pc + 1) fun _ => j)[p]? =
        code[p]? := by
  refine ⟨by rw [Array.size_modify, Array.size_modify], ?_, ?_, fun p h₁ h₂ => ?_⟩
  · rw [Array.getElem?_modify, if_neg (by omega), Array.getElem?_modify, if_pos rfl,
      Array.getElem?_eq_getElem (by omega)]
    rfl
  · rw [Array.getElem?_modify, if_pos rfl, Array.getElem?_modify, if_neg (by omega),
      Array.getElem?_eq_getElem h]
    rfl
  · rw [Array.getElem?_modify, if_neg (Ne.symm h₂), Array.getElem?_modify, if_neg (Ne.symm h₁)]

theorem setTableSize_spec (h : Inv (.table pc table :: F) none live s) (ht : table < s.fn.maxStack)
    (hc : ∀ q, s.ConcatAt q) (hl : list ≤ 1073741823) (hr : records ≤ 1073741823) :
    Via Coded (setTableSize pc table list records) s fun _ s' => Inv F none live s' ∧
      ∀ q, s'.ConcatAt q := by
  have hstack := h.maxStack_le
  have hlog := ceilLog2_le hr
  obtain ⟨⟨i, hi, hiop⟩, ⟨j, hj, hjop⟩⟩ := h.sound.shape.holds _ List.mem_cons_self
  have hsize : pc + 1 < s.fn.code.size := (Array.getElem?_eq_some_iff.1 hj).1
  show Via Coded (do
    replaceAt pc (.vabck .newTable table (if records = 0 then 0 else ceilLog2 records + 1)
      (list % (Instruction.maxVC + 1)) (if 0 < list / (Instruction.maxVC + 1) then 1 else 0))
    replaceAt (pc + 1) (.ax .extraArg (list / (Instruction.maxVC + 1)))) s _
  generalize hsz : (if records = 0 then 0 else ceilLog2 records + 1) = size
  have hsize63 : size ≤ 63 := by
    rw [← hsz]
    split <;> omega
  have hk : (if 0 < list / (Instruction.maxVC + 1) then 1 else 0) ≤ 1 := by split <;> omega
  generalize (if 0 < list / (Instruction.maxVC + 1) then 1 else 0) = k at hk
  have hd : (Draft.vabck .newTable table size (list % (Instruction.maxVC + 1)) k).fits = true :=
    Draft.fits_vabck.2 ⟨by omega, hsize63, Nat.le_of_lt_succ (Nat.mod_lt _ (Nat.succ_pos _)), hk⟩
  have hd' : (Draft.ax .extraArg (list / (Instruction.maxVC + 1))).fits = true := by
    refine Draft.fits_ax.2 ?_
    simp only [Instruction.maxVC]
    omega
  generalize hdr : Draft.vabck .newTable table size (list % (Instruction.maxVC + 1)) k = d at hd
  generalize hdr' : Draft.ax .extraArg (list / (Instruction.maxVC + 1)) = d' at hd'
  refine Via.next (Via.replaceAt (by omega) (Via.replaceAt ?_ ?_))
  · show pc + 1 < (s.fn.code.modify pc _).size
    rw [Array.size_modify]
    exact hsize
  have hcode : ((s.replaceAt pc d).replaceAt (pc + 1) d').fn.code =
      (s.fn.code.modify pc fun _ => d.word).modify (pc + 1) fun _ => d'.word := rfl
  obtain ⟨hsize', hfill, hextra, hsame⟩ := modify_two hsize d.word d'.word
  rw [← hcode] at hsize' hfill hextra hsame
  have hop : d.word.opcode? = some .newTable := by
    rw [← hdr]
    exact Draft.opcode?_word _
  have hop' : d'.word.opcode? = some .extraArg := by
    rw [← hdr']
    exact Draft.opcode?_word _
  have hj' : (s.replaceAt pc d).fn.code[pc + 1]? = some j := by
    show (s.fn.code.modify pc fun _ => d.word)[pc + 1]? = _
    rw [Array.getElem?_modify, if_neg (by omega)]
    exact hj
  have hrefers : Instruction.RefersOf d'.word (s.replaceAt pc d).fn.references .extraArg := trivial
  refine ⟨⟨(h.base.replaceAt hd (.modify_free hi hiop hop rfl rfl)).replaceAt hd'
    (.modify_at hj' (Instruction.becomes_of hjop hop' rfl hrefers (by simp) rfl)),
      h.sound.fillTable hop ?_ hop' ht hsize' hfill hextra hsame, h.held⟩, ?_⟩
  · rw [← hdr] at hd ⊢
    exact (Draft.get_vabck hd).1
  · intro q hlt i hi hic
    rw [Array.back?_eq_getElem?, hsize'] at hi
    by_cases h₁ : s.fn.code.size - 1 = pc + 1
    · rw [h₁, hextra] at hi
      cases hi
      cases hop'.symm.trans hic
    · rw [hsame _ (by omega) h₁] at hi
      refine hc q (hsize' ▸ hlt) i ?_ hic
      rw [Array.back?_eq_getElem?]
      exact hi

/-- The list items of a constructor whose table is in register `base`: those that wait are in the
registers after it, but the last one may still be an expression. -/
inductive Constructor.Items (P : List Pending) (base limit : Nat) (c : Constructor) (s : State) :
    Prop
  | waiting (hv : c.item = .void) (hp : c.pending < limit) (h : s.Holds P (base + 1) c.pending)
    (hc : c.pending = 0 → ∀ q, s.ConcatAt q)
  | last (k : Nat) (hp : c.pending = k + 1) (hk : k < limit) (h : Val P (base + 1 + k) c.item s)

structure Building (P : List Pending) (base limit : Nat) (c : Constructor) (s : State) : Prop where
  table : c.table = base
  low : s.level ≤ base
  records : c.records ≤ 1073741823
  listed : c.stored + c.pending ≤ 1073741823
  items : c.Items P base limit s

structure Between (P : List Pending) (base limit : Nat) (c : Constructor) (s : State) : Prop
    extends Building P base limit c s where
  empty : c.item = .void

theorem Between.holds (h : Between P base limit c s) :
    c.pending < limit ∧ s.Holds P (base + 1) c.pending ∧ (c.pending = 0 → ∀ q, s.ConcatAt q) := by
  cases h.items with
  | waiting _ hp h hc => exact ⟨hp, h, hc⟩
  | last k _ _ hv =>
    rw [h.empty] at hv
    exact hv.place.elim

theorem Between.ready (h : Between P base limit c s) : Ready P s := by
  obtain ⟨-, ⟨hf, hi⟩, -⟩ := h.holds
  refine ⟨by rw [hf]; exact hi, ?_⟩
  have := h.low
  omega

theorem closeItem_spec (h : Building P base limit c s) (hlim : limit ≤ 51) (hpos : 0 < limit) :
    Via Keeps (closeItem c limit) s fun c' s' => Between P base limit c' s' := by
  unfold closeItem
  cases h.items with
  | waiting hv _ _ _ =>
    refine Via.ite (fun _ => Via.pure ⟨h, hv⟩) fun hn => ?_
    rw [hv] at hn
    exact absurd rfl hn
  | last k hp hk hv =>
    refine Via.ite (fun hn => ?_) fun _ => ?_
    · rw [hv.isVoid] at hn
      cases hn
    refine Via.next (Via.discard ((toNextRegister_spec hv).mono ?_))
    rintro _ s₁ hk₁ ⟨-, hf, hv₁⟩
    have hi := hv₁.inv_inReg
    rw [hf] at hi
    have hroom := hv₁.room
    have hlow := h.low
    have hlisted := h.listed
    refine Via.ite (fun hle => ?_) fun hlt => Via.pure ?_
    · refine Via.bind (emitSetList_spec (m := base + 1 + k + 1) hi ?_ (by omega) ?_ (by omega)) ?_
      · rw [h.table]
        show base + c.pending < _
        omega
      · show c.pending ≤ 63
        omega
      · rintro _ s₂ hk₂ ⟨hf₂, hi₂, hc₂⟩
        rw [h.table] at hf₂ hi₂
        refine Via.pure ⟨⟨h.table, ?_, h.records, hlisted, .waiting rfl hpos ⟨hf₂, hi₂⟩ fun _ =>
          hc₂⟩, rfl⟩
        rw [hk₂.level, hk₁.level]
        exact hlow
    · refine ⟨⟨h.table, ?_, h.records, hlisted, .waiting rfl ?_ ⟨?_, ?_⟩ ?_⟩, rfl⟩
      · rw [hk₁.level]
        exact hlow
      · exact Nat.lt_of_not_le hlt
      · show _ = base + 1 + c.pending
        rw [hp]
        exact hf
      · show Inv P none (· < base + 1 + c.pending) s₁
        rw [hp]
        exact hi
      · intro h₀
        change c.pending = 0 at h₀
        omega

theorem closeItems_spec (h : Building P base limit c s) (hlim : limit ≤ 51) :
    Via Keeps (closeItems c) s fun n s' => n ≤ 1073741823 ∧ s'.fn.freeReg = base + 1 ∧
      Inv P none (· < base + 1) s' ∧ ∀ q, s'.ConcatAt q := by
  have hlisted := h.listed
  unfold closeItems
  cases h.items with
  | waiting hv hp hh hc =>
    refine Via.ite (fun h₀ => Via.pure ⟨by omega, ?_⟩) fun hn => ?_
    · obtain ⟨hf, hi⟩ := hh
      rw [h₀] at hf hi
      exact ⟨hf, hi, hc h₀⟩
    rw [hv]
    refine Via.ite (fun hm => nomatch hm) fun _ => Via.ite (fun hm => nomatch hm) fun _ => ?_
    obtain ⟨hf, hi⟩ := hh
    have hroom := hi.room
    refine Via.bind (emitSetList_spec (m := base + 1 + c.pending) hi ?_ (by omega) ?_ (by omega)) ?_
    · rw [h.table]
      show base + c.pending < _
      omega
    · show c.pending ≤ 63
      omega
    · rintro _ s₁ - ⟨hf₁, hi₁, hc₁⟩
      rw [h.table] at hf₁ hi₁
      exact Via.pure ⟨hlisted, hf₁, hi₁, hc₁⟩
  | last k hp hk hv =>
    refine Via.ite (fun h₀ => by omega) fun _ => Via.ite (fun hm => ?_) fun _ => ?_
    · refine Via.bind (setOpenReturns_spec hv hm) ?_
      rintro _ s₁ - ⟨hi, hf, -⟩
      have hroom := hi.room
      refine Via.bind (emitSetList_spec (m := base + 1 + k) hi ?_ (by omega) (Nat.zero_le _)
        (by omega)) ?_
      · rw [h.table]
        show base + 0 < _
        omega
      · rintro _ s₂ - ⟨hf₂, hi₂, hc₂⟩
        rw [h.table] at hf₂ hi₂
        exact Via.pure ⟨by omega, hf₂, hi₂, hc₂⟩
    · refine Via.ite (fun _ => ?_) fun hm => ?_
      · refine Via.next (Via.discard ((toNextRegister_spec hv).mono ?_))
        rintro _ s₁ - ⟨-, hf, hv₁⟩
        have hi := hv₁.inv_inReg
        rw [hf] at hi
        have hroom := hv₁.room
        refine Via.bind (emitSetList_spec (m := base + 1 + k + 1) hi ?_ (by omega) ?_ (by omega)) ?_
        · rw [h.table]
          show base + c.pending < _
          omega
        · show c.pending ≤ 63
          omega
        · rintro _ s₂ - ⟨hf₂, hi₂, hc₂⟩
          rw [h.table] at hf₂ hi₂
          exact Via.pure ⟨hlisted, hf₂, hi₂, hc₂⟩
      · rw [hv.isVoid] at hm
        exact absurd rfl hm

theorem Via.checkItems {R : State → State → Prop} [Steps R] {n : Nat} {Q : Unit → State → Prop}
    (hb : Base s)
    (h : n ≤ 1073741823 → Q () s) : Via R (Compile.checkItems n) s Q := by
  have hitems := hb.items
  refine Via.next (Via.get (Via.ite (fun _ => Via.limitError) fun hn => Via.pure (h ?_)))
  omega

theorem listItem_spec (ok : NestedOk r) (h : Between P base limit c s) :
    Via Keeps (listItem r c) s fun c' s' => Building P base limit c' s' ∧
      s'.lexer.measure < s.lexer.measure := by
  obtain ⟨hp, ⟨hf, -⟩, -⟩ := h.holds
  refine Via.bind (expression_spec ok h.ready) fun e s₁ hk h₁ => ?_
  refine Via.next (Via.checkItems h₁.read.toBase fun hn =>
    Via.pure ⟨⟨h.table, ?_, h.records, hn, ?_⟩, h₁.progress⟩)
  · rw [hk.level]
    exact h.low
  · have hv := h₁.read.toVal
    rw [hf] at hv
    exact .last c.pending rfl hp hv

theorem bracketed_spec (ok : NestedOk r) (h : Ready F s) :
    Via Keeps (bracketed r) s fun e s' => Val F s.fn.freeReg e s' ∧ e.IsPlain ∧
      s'.lexer.measure < s.lexer.measure := by
  refine Via.next (Via.pass h.inv.base fun l hl => ?_)
  refine Via.bind (expression_spec ok (h.setLexer hl)) fun e s₁ _ h₁ => ?_
  refine Via.bind (toValue_spec h₁.read.toVal) fun e' s₂ hk₂ ⟨h₂, hp⟩ => ?_
  refine Via.next (Via.checkNext h₂.toBase (by simp) fun l' hl' =>
    Via.pure ⟨h₂.setLexer hl'.toPasses, hp, ?_⟩)
  exact Nat.lt_of_le_of_lt (Nat.le_trans hl'.measure hk₂.measure)
    (Nat.lt_of_lt_of_le h₁.progress hl.measure)

theorem storeField_spec {α : Type} {a : α} (ok : NestedOk r) (hl : s.level ≤ base) (hb : base < n)
    (h : Val P n key s)
    (hp : key.IsPlain) :
    Via Keeps (do
      let target ← index (.inReg base) key
      let value ← expression r
      storeTo target value
      setFreeReg n
      return a) s fun a' s' =>
        a' = a ∧ s'.fn.freeReg = n ∧ Inv P none (· < n) s' ∧ ∀ q, s'.ConcatAt q := by
  refine Via.bind (index_inReg_spec h hp) fun target s₁ hk₁ ⟨h₁, _⟩ => ?_
  obtain ⟨ht, hi, hn⟩ := h₁.toTarget hb
  have hready : Ready P s₁ := ⟨hi, by rw [hk₁.level]; omega⟩
  refine Via.bind (expression_spec ok hready) fun value s₂ hk₂ h₂ => ?_
  refine Via.bind (storeTo_spec (ht.mono hk₂ (Nat.le_refl _)) h₂.read.toVal)
    fun _ s₃ hk₃ ⟨hi₃, _, hc⟩ => ?_
  have hroom := hi.room
  have hstack := (hk₂.trans hk₃).stack
  exact Via.next (Via.setFreeReg (Via.pure
    ⟨rfl, rfl, (hi₃.weaken fun q hq => by omega).setFree (by omega), hc h₁.isIndexed⟩))

theorem recordItem_spec (ok : NestedOk r) (h : Between P base limit c s) :
    Via Keeps (recordItem r c) s fun c' s' => Building P base limit c' s' ∧
      s'.lexer.measure < s.lexer.measure := by
  obtain ⟨hp, ⟨hf, hi⟩, -⟩ := h.holds
  have hready := h.ready
  have hlow := h.low
  -- what is left to do once the key is there
  have hrest : ∀ key s₁, Keeps s s₁ → Val P s.fn.freeReg key s₁ → key.IsPlain →
      s₁.lexer.measure < s.lexer.measure →
      Via Keeps (do
        checkItems (c.records + 1)
        checkNext (.char '=')
        let target ← index (.inReg c.table) key
        let value ← expression r
        storeTo target value
        setFreeReg s.fn.freeReg
        return { c with records := c.records + 1 }) s₁ fun c' s' =>
          Building P base limit c' s' ∧ s'.lexer.measure < s.lexer.measure := by
    intro key s₁ hk₁ hv hpl hm
    refine Via.next (Via.checkItems hv.toBase fun hn => ?_)
    refine Via.next (Via.checkNext hv.toBase (by simp) fun l hl => ?_)
    show Via Keeps (do
        let target ← index (.inReg c.table) key
        let value ← expression r
        storeTo target value
        setFreeReg s.fn.freeReg
        return { c with records := c.records + 1 }) (s₁.setLexer l) _
    rw [h.table]
    have hl₁ : (s₁.setLexer l).level ≤ base := Nat.le_trans (Nat.le_of_eq hk₁.level) hlow
    refine (storeField_spec ok hl₁ (by omega) (hv.setLexer hl.toPasses) hpl).mono ?_
    rintro _ s₂ hk₂ ⟨rfl, hf₂, hi₂, hc₂⟩
    refine ⟨⟨rfl, ?_, hn, h.listed, .waiting h.empty hp ⟨hf₂.trans hf, ?_⟩ fun _ => hc₂⟩, ?_⟩
    · rw [hk₂.level]
      exact hl₁
    · rw [hf] at hi₂
      exact hi₂
    · exact Nat.lt_of_le_of_lt (Nat.le_trans hk₂.measure hl.measure) hm
  unfold recordItem
  refine Via.next (Via.freeReg (Via.next (Via.currentToken ?_)))
  split
  · refine Via.next (Via.takeName hready.inv.base fun text l hl => Via.next (Via.pure ?_))
    have hv := Val.text (s := s.setLexer l) hready.low (hready.inv.setLexer hl.toPasses) text
    exact (hrest _ _ (Coded.setLexer hl.toPasses).toKeeps hv ⟨rfl, rfl, rfl⟩ hl.progress)
  · refine Via.bind (bracketed_spec ok hready) ?_
    rintro key s₁ hk₁ ⟨hv, hpl, hm⟩
    exact hrest key s₁ hk₁ hv hpl hm

theorem constructorItem_spec (ok : NestedOk r) (h : Between P base limit c s) :
    Via Keeps (constructorItem r c) s fun c' s' => Building P base limit c' s' ∧
      s'.lexer.measure < s.lexer.measure := by
  refine Via.next (Via.currentKind ?_)
  split
  · refine Via.next (Via.lookahead h.ready.inv.base fun k l hl _ => ?_)
    have h' : Between P base limit c (s.setLexer l) := by
      obtain ⟨hp, ⟨hf, hi⟩, hc⟩ := h.holds
      exact ⟨⟨h.table, h.low, h.records, h.listed, .waiting h.empty hp ⟨hf, hi.setLexer hl⟩ hc⟩,
        h.empty⟩
    have hfrom : ∀ c' s', Building P base limit c' s' ∧ s'.lexer.measure < l.measure →
        Building P base limit c' s' ∧ s'.lexer.measure < s.lexer.measure :=
      fun _ _ hb => ⟨hb.1, Nat.lt_of_lt_of_le hb.2 hl.measure⟩
    exact Via.ite (fun _ => (recordItem_spec ok h').mono fun c' s' _ => hfrom c' s')
      fun _ => (listItem_spec ok h').mono fun c' s' _ => hfrom c' s'
  · exact Via.ite (fun _ => recordItem_spec ok h) fun _ => listItem_spec ok h

theorem maxPending_le (n : Nat) : 0 < maxPending n ∧ maxPending n ≤ 51 := by
  have h : maxPending n =
      if 160 ≤ 255 - n then (255 - n) / 5 else if 80 ≤ 255 - n then 10 else 1 := rfl
  rw [h]
  split
  · omega
  · split <;> omega

theorem Building.setLexer {l : Lexer} (h : Building P base limit c s) (hl : s.Passes l) :
    Building P base limit c (s.setLexer l) := by
  refine ⟨h.table, h.low, h.records, h.listed, ?_⟩
  cases h.items with
  | waiting hv hp hh hc => exact .waiting hv hp ⟨hh.1, hh.2.setLexer hl⟩ hc
  | last k hp hk hv => exact .last k hp hk (hv.setLexer hl)

theorem Building.toBase (h : Building P base limit c s) : Base s := by
  cases h.items with
  | waiting _ _ hh _ => exact hh.2.base
  | last _ _ _ hv => exact hv.toBase

theorem Building.start (h : Inv P none (· < base + 1) s) (hf : s.fn.freeReg = base + 1)
    (hl : s.level ≤ base)
    (hc : ∀ q, s.ConcatAt q) (hlim : 0 < limit) : Building P base limit { table := base } s :=
  ⟨rfl, hl, Nat.zero_le _, Nat.zero_le _, .waiting rfl hlim ⟨hf, h⟩ fun _ => hc⟩

theorem items_turn (ok : NestedOk r) (hlim : 0 < limit ∧ limit ≤ 51)
    (h : Building P base limit c s) :
    Via Keeps (do
      if (← currentKind) = .byte 125 then return .done c
      let c ← closeItem c limit
      let c ← constructorItem r c
      if ← testNext (.char ',') then return .again c
      else if ← testNext (.char ';') then return .again c
      else return .done c : M (Turn Constructor Constructor)) s fun t s' =>
      match t with
      | .again c' => Building P base limit c' s' ∧ s'.lexer.measure < s.lexer.measure
      | .done c' => Building P base limit c' s' := by
  refine Via.next (Via.currentKind (Via.ite (fun _ => Via.pure h) fun _ => ?_))
  refine Via.bind (closeItem_spec h hlim.2 hlim.1) fun c₁ s₁ hk₁ h₁ => ?_
  refine Via.bind (constructorItem_spec ok h₁) fun c₂ s₂ hk₂ ⟨h₂, hm⟩ => ?_
  have hagain : ∀ l, s₂.Takes l → Building P base limit c₂ (s₂.setLexer l) ∧
      l.measure < s.lexer.measure := fun l hl =>
    ⟨h₂.setLexer hl.toPasses, Nat.lt_of_le_of_lt hl.measure (Nat.lt_of_lt_of_le hm hk₁.measure)⟩
  refine Via.next (Via.testNext h₂.toBase (by simp) (fun _ l hl => Via.pure (hagain l hl)) ?_)
  exact Via.next (Via.testNext h₂.toBase (by simp) (fun _ l hl => Via.pure (hagain l hl))
    (Via.pure h₂))

theorem constructorRest_spec {Q : Exp → State → Prop} (ok : NestedOk r)
    (hlim : 0 < limit ∧ limit ≤ 51)
    (h : Building (.table pc base :: F) base limit { table := base } s)
    (hq : ∀ s', Keeps s s' → s'.fn.freeReg = base + 1 → Inv F none (· < base + 1) s' →
    (∀ q, s'.ConcatAt q) →
      Q (.inReg base) s') :
    Via Keeps (do
      let c ← repeatTurn (fun (c : Constructor) => do
        if (← currentKind) = .byte 125 then return .done c
        let c ← closeItem c limit
        let c ← constructorItem r c
        if ← testNext (.char ',') then return .again c
        else if ← testNext (.char ';') then return .again c
        else return .done c) { table := base }
      checkMatch (.byte 125) (.byte 123) line
      let list ← closeItems c
      setTableSize pc base list c.records
      return .inReg base) s Q := by
  refine Via.bind (Via.repeatTurn (Q := fun c s' => Building (.table pc base :: F) base limit c s')
    _ h h.toBase.progress
    fun c s₁ h₁ => (items_turn ok hlim h₁).mono fun t s' _ ht => by cases t <;> exact ht)
      fun c s₁ hk₁ h₁ => ?_
  refine Via.next (Via.checkMatch h₁.toBase (by simp) fun _ l hl => ?_)
  have hkl := (Coded.setLexer hl.toPasses).toKeeps
  refine Via.bind (closeItems_spec (h₁.setLexer hl.toPasses) hlim.2)
    fun n s₂ hk₂ ⟨hn, hf, hi, hc⟩ => ?_
  have hroom := hi.room
  refine Via.bind (Via.widen (setTableSize_spec hi (by omega) hc hn h₁.records))
    fun _ s₃ hk₃ ⟨hc₃, hi₃, hq₃⟩ => ?_
  exact Via.pure (hq s₃ (hk₁.trans (hkl.trans (hk₂.trans hk₃))) (hc₃.freeReg.trans hf) hi₃ hq₃)

theorem constructor_spec (ok : NestedOk r) (h : Ready F s) :
    Via Keeps (constructor r) s fun e s' => e = .inReg s.fn.freeReg ∧ Reads F s e s' := by
  have hi := h.inv
  have hroom := hi.room
  have hstack := hi.maxStack_le
  refine Via.next (Via.currentLine (Via.next (Via.emit (Via.next (Via.discard (Via.emit ?_))))))
  refine Via.next (Via.freeReg (Via.next (Via.reserve hstack fun m h₁ h₂ h₃ => ?_)))
  change s.fn.maxStack ≤ m at h₁
  change s.fn.freeReg + 1 ≤ m at h₂
  have hi₁ := ((hi.pushTable (· < s.fn.freeReg + 1) (show s.fn.freeReg < 255 by omega)
    fun q hq => by omega).raise h₁ h₃).setFree h₂
  have hc₁ := @State.concatAt_emit (s.emit (.vabck .newTable 0 0 0 0)) (.abck .move 0 0 0 0) []
    (by simp [Draft.opcode])
  refine Via.next (Via.checkNext hi₁.base (by simp) fun l hl => Via.next (Via.freeReg ?_))
  have hb₁ := Building.start (hi₁.setLexer hl.toPasses) rfl h.low hc₁
    (maxPending_le (s.fn.freeReg + 1)).1
  refine constructorRest_spec ok (maxPending_le (s.fn.freeReg + 1)) hb₁ fun s' hk hf hi' hc =>
    ⟨rfl, ⟨?_, ?_⟩, ?_⟩
  · exact Val.inReg (Nat.le_trans (Nat.le_of_eq hk.level) h.low) (by rw [hf]; exact hi')
      (.inr ⟨rfl, hf⟩) fun _ => hc _
  · exact State.Fresh.of_ne (by simp)
  · exact Nat.lt_of_le_of_lt hk.measure hl.progress

end Compile

end LuaChunk
