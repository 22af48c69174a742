import LuaChunk.Proofs.Machine.Execution
import LuaChunk.Proofs.Compile.Statement

set_option autoImplicit false

namespace LuaChunk

open JumpList (Code)
open Machine (exec step constant)

theorem World.const_of_same {V H : Type} (W : World V H) {w v : Value} (h : w.SameAs v) :
    W.const w = W.const v := by
  obtain rfl | ⟨x, y, rfl, rfl, hxy⟩ := h
  · rfl
  · exact W.const_of_beq hxy

namespace Compile

/-- The constants `K` go on with those of the function. -/
def State.PoolIn (s : State) (K : Array Value) : Prop :=
  ∀ (k : Nat) (v : Value), s.fn.pool.values[k]? = some v → K[k]? = some v

/-- A position from which code can be added: none that a load of nil at the end of the code before
it would be extended at. -/
structure State.From (s : State) (p : Nat) : Prop where
  le : p ≤ s.fn.code.size
  whole : Whole (s.fn.code.toList.drop p)
  fresh : p = s.fn.code.size → ∀ i, s.previous = some i → i.opcode? ≠ some .loadNil

structure Effect {V H : Type} (W : World V H) (s₀ s : State)
    (g : Machine V H → Option (Machine V H)) : Prop where
  pool : ∀ (k : Nat) (v : Value), s₀.fn.pool.values[k]? = some v → s.fn.pool.values[k]? = some v
  start : ∀ p, s₀.From p → s.From p
  run : ∀ (K : Array Value) (p : Nat) (m : Machine V H), s.PoolIn K → s₀.From p →
    exec W K (s.fn.code.toList.drop p) m = (exec W K (s₀.fn.code.toList.drop p) m).bind g

variable {V H : Type} {W : World V H} {s₀ s₁ s s' : State}
  {g g' : Machine V H → Option (Machine V H)}

theorem State.PoolIn.constant {K : Array Value} {k : Nat} {v : Value} (h : s.PoolIn K)
    (hk : s.fn.pool.values[k]? = some v) :
    constant W K k = some (W.const v) := by
  unfold Machine.constant
  rw [h k v hk]
  rfl

theorem State.PoolIn.of {K : Array Value} (h : s'.PoolIn K)
    (hp : ∀ (k : Nat) (v : Value), s.fn.pool.values[k]? = some v →
    s'.fn.pool.values[k]? = some v) : s.PoolIn K :=
  fun k v hk => h k v (hp k v hk)

namespace Effect

theorem refl : Effect W s s some :=
  ⟨fun _ _ h => h, fun _ h => h, fun _ _ _ _ _ => (Option.bind_fun_some _).symm⟩

theorem trans (h : Effect W s₀ s₁ g) (h' : Effect W s₁ s g') :
    Effect W s₀ s fun m => (g m).bind g' := by
  refine ⟨fun k v hk => h'.pool k v (h.pool k v hk), fun p hp => h'.start p (h.start p hp),
    fun K p m hK hp => ?_⟩
  rw [h'.run K p m hK (h.start p hp), h.run K p m (hK.of h'.pool) hp, Option.bind_assoc]

theorem congr (h : Effect W s₀ s g) (hg : ∀ m, g m = g' m) : Effect W s₀ s g' := by
  rw [← funext hg]
  exact h

theorem still (hc : s'.fn.code = s.fn.code) (hl : s'.fn.lastTarget = s.fn.lastTarget)
    (hp : ∀ (k : Nat) (v : Value), s.fn.pool.values[k]? = some v → s'.fn.pool.values[k]? = some v) :
    Effect W s s' some := by
  have hprev : s'.previous = s.previous := by
    unfold State.previous
    rw [hc, hl]
  refine ⟨hp, fun p h => ?_, fun K p m _ _ => ?_⟩
  · exact ⟨hc ▸ h.le, hc ▸ h.whole, by rw [hc, hprev]; exact h.fresh⟩
  · rw [hc, Option.bind_fun_some]

theorem andStill (h : Effect W s₀ s g) (hc : s'.fn.code = s.fn.code)
    (hl : s'.fn.lastTarget = s.fn.lastTarget)
    (hp : ∀ (k : Nat) (v : Value), s.fn.pool.values[k]? = some v → s'.fn.pool.values[k]? = some v) :
    Effect W s₀ s' g := (h.trans (still hc hl hp)).congr fun _ => Option.bind_fun_some _

theorem append {l : List Instruction} (hc : s'.fn.code.toList = s.fn.code.toList ++ l) (hl : l ≠ [])
    (hw : Whole l)
    (hp : s'.fn.pool = s.fn.pool) (hg : ∀ K m, s.PoolIn K → exec W K l m = g m) : Effect W s s'
    g := by
  have hsize : s'.fn.code.size = s.fn.code.size + l.length := by
    rw [← Array.length_toList, hc, List.length_append, Array.length_toList]
  have hpos := List.length_pos_of_ne_nil hl
  have hdrop : ∀ p, p ≤ s.fn.code.size →
      s'.fn.code.toList.drop p = s.fn.code.toList.drop p ++ l := by
    intro p hle
    rw [hc, List.drop_append_of_le_length (by simpa using hle)]
  refine ⟨fun k v
    hk => by rw [hp]; exact hk, fun p h => ⟨?_, ?_, fun he => ?_⟩, fun K p m hK h => ?_⟩
  · exact Nat.le_trans h.le (by omega)
  · rw [hdrop p h.le]
    exact h.whole.append hw
  · have := h.le
    omega
  · rw [hdrop p h.le, Machine.exec_append h.whole]
    exact Option.bind_congr fun m' _ => hg K m' (hK.of fun k v hk => by rw [hp]; exact hk)

theorem push {w : Instruction} (hc : s'.fn.code = s.fn.code.push w) (hw : w.opcode? ≠ some .loadKX)
    (hp : s'.fn.pool = s.fn.pool) (hg : ∀ K m, s.PoolIn K → step W K m w none = g m) : Effect W s s'
    g := by
  refine append (l := [w]) (by rw [hc, Array.toList_push]) (by simp) (.single hw) hp fun K m hK =>
    ?_
  rw [Machine.exec_single, hg K m hK]

theorem emitABC {op : Opcode} {a b c k : Nat} {meant : List Value}
    (hf : a ≤ 255 ∧ b ≤ 255 ∧ c ≤ 255 ∧ k ≤ 1) (hop : op ≠ .loadKX)
    (hg : ∀ (K : Array Value) (w : Instruction) (m : Machine V H), s.PoolIn K →
    w.opcode? = some op → w.a = a → w.b = b →
      w.c = c → w.k = k → step W K m w none = g m) : Effect W s (s.emit (.abck op a b c k) meant)
        g := by
  obtain ⟨ha, hb, hc, hk⟩ := @Draft.get_abck op _ _ _ _ (Draft.fits_abck.2 hf)
  have hw := Draft.opcode?_word (.abck op a b c k)
  exact push rfl (by rw [hw]; exact fun he => hop (Option.some.inj he)) rfl fun K m hK =>
    hg K _ m hK hw ha hb hc hk

theorem emitOpen {op : Opcode} {b c q : Nat} {meant : List Value} (hf : b ≤ 255 ∧ c ≤ 255)
    (hq : q ≤ 255) (hop : op ≠ .loadKX)
    (hg : ∀ (K : Array Value) (w : Instruction) (m : Machine V H), s.PoolIn K →
    w.opcode? = some op → w.a = q → w.b = b →
      w.c = c → step W K m w none = g m) :
    Effect W s ((s.emit (.abck op 0 b c 0) meant).setAt s.fn.code.size [(.a, q)]) g := by
  obtain ⟨-, hb, hc, -⟩ := @Draft.get_abck op 0 b c 0
    (Draft.fits_abck.2 ⟨by omega, hf.1, hf.2, by omega⟩)
  have hw : ((Draft.abck op 0 b c 0).word.setAll [(.a, q)]).opcode? = some op := by
    rw [Instruction.opcode?_setAll _ _ rfl]
    exact Draft.opcode?_word _
  have hcode : ((s.emit (.abck op 0 b c 0) meant).setAt s.fn.code.size [(.a, q)]).fn.code
      = s.fn.code.push ((Draft.abck op 0 b c 0).word.setAll [(.a, q)]) :=
    modify_push s.fn.code (Draft.abck op 0 b c 0).word (·.setAll [(.a, q)])
  refine push hcode (by rw [hw]; exact fun he => hop (Option.some.inj he)) rfl fun K m hK =>
    hg K _ m hK hw ?_ ?_ ?_
  · exact Instruction.get_set_fits _ ((Instruction.Field.fits_iff _ _).2 hq) (by decide) (by decide)
  · exact (Instruction.get_setAll_apart .b _ _ rfl).trans hb
  · exact (Instruction.get_setAll_apart .c _ _ rfl).trans hc

theorem replaceLast {code : Code} {i w : Instruction} (hs : s.fn.code = code.push i)
    (hs' : s'.fn.code = code.push w)
    (hi : s.previous = some i) (hop : i.opcode? = some .loadNil) (hw : w.opcode? = some .loadNil)
    (hp : s'.fn.pool = s.fn.pool)
    (hg : ∀ K m, step W K m w none = (step W K m i none).bind g) : Effect W s s' g := by
  have hsize : s.fn.code.size = code.size + 1 := by rw [hs, Array.size_push]
  have hlt : ∀ {p : Nat}, s.From p → p ≤ code.size := by
    intro p h
    have hne : p ≠ s.fn.code.size := fun he => h.fresh he i hi hop
    have := h.le
    omega
  have hdrop : ∀ (x : Instruction) {p : Nat}, s.From p →
      (code.push x).toList.drop p = code.toList.drop p ++ [x] := by
    intro x p h
    rw [Array.toList_push, List.drop_append_of_le_length (by simpa using hlt h)]
  have hwhole : ∀ {p : Nat}, s.From p → Whole (code.toList.drop p) := by
    intro p h
    have hall := h.whole
    rw [hs, hdrop i h] at hall
    exact hall.init (by rw [hop]; simp)
  refine ⟨fun k v
    hk => by rw [hp]; exact hk, fun p h => ⟨?_, ?_, fun he => ?_⟩, fun K p m _ h => ?_⟩
  · rw [hs', Array.size_push]
    exact Nat.le_succ_of_le (hlt h)
  · rw [hs', hdrop w h]
    exact (hwhole h).append (.single (by rw [hw]; simp))
  · rw [hs', Array.size_push] at he
    have := hlt h
    omega
  · rw [hs', hdrop w h, hs, hdrop i h, Machine.exec_concat (hwhole h),
      Machine.exec_concat (hwhole h), Option.bind_assoc]
    exact Option.bind_congr fun m' _ => hg K m'

theorem loadNil {start n : Nat} (h : (s.loadNil start n).spilled = false) (hn : 0 < n)
    (hf : start + n ≤ 255) :
    Effect W s (s.loadNil start n) fun m => some (m.fill start (start + n - 1) (W.const .nil)) := by
  unfold State.loadNil at h ⊢
  cases he : s.previous.bind (extendNil? start n) with
  | none =>
    refine emitABC (by omega) (by simp) fun K w m _ hw ha hb _ _ => ?_
    simp only [step, hw, ha, hb]
    congr 3
    omega
  | some ab =>
    obtain ⟨a, b⟩ := ab
    rw [he] at h
    obtain ⟨i, hi, hx⟩ := Option.bind_eq_some_iff.1 he
    obtain ⟨hop, hstart, ha, hend, hcover⟩ := extendNil?_spec hx hn
    obtain ⟨-, hlast⟩ := State.previous_eq hi
    have hfits : ([(Instruction.Field.a, a), (.b, b)].all fun p => p.1.fits p.2) = true := by
      simpa using (Bool.or_eq_false_iff.1 h).2
    simp only [List.all_cons, List.all_nil, Bool.and_true, Bool.and_eq_true] at hfits
    obtain ⟨ha', hb'⟩ := Instruction.get_setAll_two i hfits.1 hfits.2 rfl rfl
    have hop' : (i.setAll [(.a, a), (.b, b)]).opcode? = some .loadNil :=
      (Instruction.opcode?_setAll _ _ rfl).trans hop
    -- the code without its last instruction
    obtain ⟨code, hcode⟩ : ∃ code : Code, s.fn.code = code.push i := by
      have hback : s.fn.code.back? = some i := by rw [Array.back?_eq_getElem?, hlast]
      exact Array.back?_eq_some_iff.1 hback
    refine replaceLast (w := i.setAll [(.a, a), (.b, b)]) hcode ?_ hi hop hop' rfl fun K m => ?_
    · refine Eq.trans ?_ (modify_push code i (·.setAll [(.a, a), (.b, b)]))
      simp only [State.setAt, hcode, Array.size_push, Nat.add_sub_cancel]
    · have ha₂ : (i.setAll [(.a, a), (.b, b)]).a = a := ha'
      have hb₂ : (i.setAll [(.a, a), (.b, b)]).b = b := hb'
      simp only [step, hop, hop', ha₂, hb₂, Option.bind_some]
      congr 1
      ext x
      · have hx := hcover x
        simp only [Machine.fill]
        split <;> split <;> first | rfl | (split <;> first | rfl | omega) | omega
      · rfl
      · rfl

end Effect

theorem emitK_effect {reg : Nat} {k : PoolEntry} {v : Value} (hr : reg ≤ 255)
    (hk : s.fn.pool.values[k.index]? = some v)
    (hpool : s.fn.pool.values.size ≤ Instruction.maxAx) :
    Via Coded (emitK reg k) s fun _ s' => Effect W s s' fun m =>
      some (m.setReg reg (W.const v)) := by
  have hlt := (Array.getElem?_eq_some_iff.1 hk).1
  simp only [Instruction.maxAx] at hpool
  unfold emitK
  refine Via.ite (fun hle => ?_) fun _ => ?_
  · simp only [Instruction.maxBx] at hle
    have hd : (Draft.abx .loadK reg k.index).fits = true := Draft.fits_abx.2 ⟨by omega, hle⟩
    obtain ⟨ha, hbx⟩ := Draft.get_abx hd
    have hw : (Draft.abx .loadK reg k.index).word.opcode? = some .loadK := Draft.opcode?_word _
    refine Via.discard (Via.emit (.push rfl (by rw [hw]; simp) rfl fun K m hK => ?_))
    simp only [step, hw, ha, hbx, hK.constant hk, Option.map_some]
  · have hd : (Draft.abx .loadKX reg 0).fits = true := Draft.fits_abx.2 ⟨by omega, by omega⟩
    have hx : (Draft.ax .extraArg k.index).fits = true := Draft.fits_ax.2 (by omega)
    have ha := (Draft.get_abx hd).1
    have hw : (Draft.abx .loadKX reg 0).word.opcode? = some .loadKX := Draft.opcode?_word _
    have hw' : (Draft.ax .extraArg k.index).word.opcode? = some .extraArg := Draft.opcode?_word _
    refine Via.next (Via.discard (Via.emit (Via.discard (Via.emit ?_))))
    refine .append (l := [(Draft.abx .loadKX reg 0).word, (Draft.ax .extraArg k.index).word]) ?_
      (by simp) ?_ rfl fun K m hK => ?_
    · show ((s.fn.code.push _).push _).toList = _
      rw [Array.toList_push, Array.toList_push, List.append_assoc]
      rfl
    · exact ⟨fun _ => ⟨_, rfl, hw'⟩, Whole.single (by rw [hw']; simp)⟩
    · simp only [exec, step, hw, hw', ha, List.head?_cons, Option.bind_some, Draft.get_ax hx,
        hK.constant hk, Option.map_some]

end Compile

end LuaChunk
