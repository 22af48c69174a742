import LuaChunk.Proofs.Compile.Invariant

set_option autoImplicit false

namespace LuaChunk

open JumpList (Code IsOp Chain)

/-! ### Lines -/

namespace LineTable

variable {t : LineTable} {n : Nat}

theorem difference_ne_marker {d : Int} (h : d.natAbs < differenceLimit) :
    Int8.ofInt d ≠ lineMarker := by
  intro he
  have h₁ := congrArg Int8.toInt he
  have h₂ : (Int8.ofInt d).toInt = d := by
    apply Int8.toInt_ofInt_of_le <;> simp only [differenceLimit] at h <;> omega
  rw [h₂] at h₁
  have h₃ : lineMarker.toInt = -128 := by decide
  simp only [differenceLimit] at h
  omega

theorem Fits.record (h : t.Fits n) (line : Int) : (t.record line).Fits (n + 1) := by
  refine ⟨by simp [h.size], ?_⟩
  unfold LineTable.record
  simp only
  split
  · simp [List.count_append, h.absolute]
  · rename_i hd
    simp only [Bool.or_eq_true, decide_eq_true_eq, not_or, Nat.not_le] at hd
    have hne := difference_ne_marker hd.1
    generalize Int8.ofInt (line - t.previous) = d at hne
    simp only [Array.toList_push, List.count_append, h.absolute]
    rw [List.count_eq_zero_of_not_mem, Nat.add_zero]
    intro hm
    exact hne (List.mem_singleton.1 hm).symm

theorem Fits.split (h : t.Fits (n + 1)) :
    ∃ d, t.info.back? = some d ∧ t.info.toList = t.info.pop.toList ++ [d] := by
  cases hb : t.info.back? with
  | none =>
    have hsize := h.size
    simp [Array.back?_eq_none_iff.1 hb] at hsize
  | some d =>
    obtain ⟨ys, hys⟩ := Array.back?_eq_some_iff.1 hb
    exact ⟨d, rfl, by simp [hys]⟩

theorem Fits.canRemove (h : t.Fits (n + 1)) : t.canRemove = true := by
  obtain ⟨d, hb, hsplit⟩ := h.split
  have hcount := h.absolute
  rw [hsplit, List.count_append] at hcount
  unfold LineTable.canRemove
  rw [hb]
  simp only [Bool.or_eq_true, bne_iff_ne, Bool.not_eq_true']
  by_cases hd : d = lineMarker
  · subst hd
    right
    rw [List.count_singleton_self] at hcount
    rw [Array.isEmpty_eq_false_iff]
    rintro he
    simp [he] at hcount
  · exact .inl hd

theorem Fits.removeLast (h : t.Fits (n + 1)) : t.removeLast.Fits n := by
  obtain ⟨d, hb, hsplit⟩ := h.split
  have hcount := h.absolute
  rw [hsplit, List.count_append] at hcount
  have hsize := h.size
  unfold LineTable.removeLast
  rw [hb]
  simp only
  split
  · rename_i hd
    subst hd
    rw [List.count_singleton_self] at hcount
    refine ⟨by simp [hsize], ?_⟩
    simp only [Array.size_pop]
    omega
  · rename_i hd
    rw [List.count_eq_zero_of_not_mem fun hm => hd (List.mem_singleton.1 hm).symm] at hcount
    exact ⟨by simp [hsize], hcount⟩

theorem Fits.fixLast (h : t.Fits (n + 1)) (line : Int) : (t.fixLast line).Fits (n + 1) :=
  h.removeLast.record line

end LineTable

namespace ConstantPool

def Has (p : ConstantPool) (k : Nat) (v : Value) : Prop := ∃ w, p.values[k]? = some w ∧ w.SameAs v

variable {p : ConstantPool} {k : Nat}

theorem Has.lt {v : Value} (h : p.Has k v) : k < p.values.size := by
  obtain ⟨w, hw, -⟩ := h
  exact (Array.getElem?_eq_some_iff.1 hw).1

theorem Has.text {t : Bytes} (h : p.Has k (.str t)) : p.values[k]? = some (.str t) := by
  obtain ⟨w, hw, hs⟩ := h
  rw [hw, hs.text]

def Holds (p : ConstantPool) (e : PoolEntry) : Prop := p.Has e.index e.value

theorem Holds.lt {e : PoolEntry} (h : p.Holds e) : e.index < p.values.size := Has.lt h

theorem Holds.stand {e : PoolEntry} {n : Nat} (h : p.Holds e) (hn : n = e.index) :
    Stand p.values [n] [e.value] := by
  rw [hn]
  exact .cons h .nil

theorem Holds.mono {p' : ConstantPool} {e : PoolEntry} (h : p.Holds e)
    (hg : ∀ (k : Nat) (v : Value), p.values[k]? = some v → p'.values[k]? = some v) : p'.Holds
    e := by
  obtain ⟨w, hw, hs⟩ := h
  exact ⟨w, hg _ _ hw, hs⟩

end ConstantPool

namespace Compile

/-! ### What the actions do to the state -/

namespace State

def note (s : State) (fits : Bool) : State := { s with spilled := s.spilled || !fits }

def emit (s : State) (d : Draft) (meant : List Value := []) : State :=
  { s with
    spilled := s.spilled || !d.fits
    fn := { s.fn with
      code := s.fn.code.push d.word
      lines := s.fn.lines.record s.lexer.lastLine
      scopes := s.fn.scopes.push s.places
      meant := s.fn.meant.push meant } }

def fixLine (s : State) (line : Nat) : State :=
  { s with fn := { s.fn with lines := s.fn.lines.fixLast line } }

def dropLast (s : State) : State :=
  { s with fn := { s.fn with
      code := s.fn.code.pop, lines := s.fn.lines.removeLast, scopes := s.fn.scopes.pop,
      meant := s.fn.meant.pop } }

def setCode (s : State) (code : Code) (aims : List (Nat × Nat)) : State :=
  { s with fn := { s.fn with code, aims } }

def setAt (s : State) (pc : Nat) (changes : List (Instruction.Field × Nat)) : State :=
  { s with
    spilled := s.spilled || !(changes.all fun (f, v) => f.fits v)
    fn := { s.fn with code := s.fn.code.modify pc (·.setAll changes) } }

def replaceAt (s : State) (pc : Nat) (d : Draft) : State :=
  { s with
    spilled := s.spilled || !d.fits
    fn := { s.fn with code := s.fn.code.modify pc fun _ => d.word } }

def mark (s : State) : State := { s with fn := { s.fn with lastTarget := s.fn.code.size } }

def setHeld (s : State) (held : Nat → Prop) : State :=
  { s with fn := { s.fn with openLists := held } }

def use (s : State) (used : List (Option Nat)) : State :=
  { s with moments := fun m => s.moments m ∨ m = s.moment used }

def jump (s : State) : State :=
  (s.emit (.sj .jmp JumpList.endOfList)).setHeld fun p => s.fn.openLists p ∨ p = s.fn.code.size

def setFree (s : State) (r : Nat) : State := { s with fn := { s.fn with freeReg := r } }

def raise (s : State) (n : Nat) : State := { s with fn := { s.fn with maxStack := n } }

/-- If the last instruction is a concatenation that may be extended, its value is in this
register. -/
def ConcatAt (s : State) (r : Nat) : Prop :=
  s.fn.lastTarget < s.fn.code.size → ∀ i, s.fn.code.back? = some i → i.opcode? = some .concat →
    i.a = r

end State

namespace Coded

variable (s : State)

theorem note (fits : Bool) : Coded s (s.note fits) := { Coded.refl s with }

theorem emit (d : Draft) (meant : List Value := []) : Coded s (s.emit d meant) :=
  { Coded.refl s with code := fun _ => by simp [State.emit] }

theorem fixLine (line : Nat) : Coded s (s.fixLine line) := { Coded.refl s with }

theorem setCode {code : Code} (aims : List (Nat × Nat)) (h : code.size = s.fn.code.size) :
    Coded s (s.setCode code aims) :=
  { Coded.refl s with code := fun hs => h ▸ hs }

theorem setAt (pc : Nat) (changes : List (Instruction.Field × Nat)) :
    Coded s (s.setAt pc changes) :=
  { Coded.refl s with code := fun hs => by simpa [State.setAt] using hs }

theorem replaceAt (pc : Nat) (d : Draft) : Coded s (s.replaceAt pc d) :=
  { Coded.refl s with code := fun hs => by simpa [State.replaceAt] using hs }

theorem mark : Coded s s.mark := { Coded.refl s with }

theorem setHeld (held : Nat → Prop) : Coded s (s.setHeld held) := { Coded.refl s with }

theorem use {used : List (Option Nat)} (h : (s.moment used).Sound) : Coded s (s.use used) :=
  { Coded.refl s with
    moments := fun m hm => Or.imp_right (fun he : m = s.moment used => he ▸ h) hm }

theorem jump : Coded s s.jump := { Coded.emit s (.sj .jmp JumpList.endOfList) with }

end Coded

/-! ### The parts of the state that the invariant speaks of -/

namespace State

variable (s : State) (d : Draft) {meant : List Value}

theorem waiting_emit : (s.emit d meant).waiting = s.waiting := (Coded.emit s d meant).waiting

theorem waiting_mark : s.mark.waiting = s.waiting := (Coded.mark s).waiting

theorem view_emit : (s.emit d meant).fn.view = s.fn.view.push d.word := rfl

theorem view_mark : s.mark.fn.view = s.fn.view.mark := rfl

theorem lateLoad_emit : (s.emit d meant).lateLoad = s.lateLoad := rfl

theorem lateLoad_mark : s.mark.lateLoad = s.lateLoad := rfl

theorem openLists_emit : (s.emit d meant).fn.openLists = s.fn.openLists := rfl

theorem openLists_mark : s.mark.fn.openLists = s.fn.openLists := rfl

theorem waiting_jump : s.jump.waiting = s.waiting := (Coded.jump s).waiting

theorem view_jump : s.jump.fn.view = s.fn.view.push (Draft.sj .jmp JumpList.endOfList).word := rfl

theorem lateLoad_jump : s.jump.lateLoad = s.lateLoad := rfl

theorem openLists_jump : s.jump.fn.openLists = fun p => s.fn.openLists p ∨ p = s.fn.code.size := rfl

theorem size_emit : (s.emit d meant).fn.code.size = s.fn.code.size + 1 := Array.size_push ..

end State

namespace Keeps

variable (s : State)

theorem setFree (r : Nat) : Keeps s (s.setFree r) := { Keeps.refl s with }

theorem raise {n : Nat} (h : s.fn.maxStack ≤ n) : Keeps s (s.raise n) :=
  { Keeps.refl s with stack := h }

end Keeps

theorem jump_eq {s : State} : jump s = .ok s.fn.code.size s.jump := rfl

namespace Via

variable {R : State → State → Prop} {α β : Type} {m : M α} {s : State} {Q : α → State → Prop}

theorem next [Steps R] {f : α → M β} {Q : β → State → Prop}
    (h : Via R m s fun a s' => Via R (f a) s' Q) : Via R (m >>= f) s Q :=
  Via.bind h fun _ _ _ h => h

theorem widen [Wide R] (h : Via Coded m s Q) : Via R m s fun a s' => Coded s s' ∧ Q a s' :=
  (h.mono (Q := fun a s' => Coded s s' ∧ Q a s') fun _ _ hc hq => ⟨hc, hq⟩).weaken
    fun _ hc => Wide.keeps hc.toKeeps

theorem emit [Frame R] {d : Draft} {meant : List Value} {Q : Nat → State → Prop}
    (h : Q s.fn.code.size (s.emit d meant)) :
    Via R (Compile.emit d meant) s Q :=
  ⟨Frame.coded (.emit s d meant), h⟩

theorem jump [Frame R] {Q : Nat → State → Prop} (h : Q s.fn.code.size s.jump) :
    Via R Compile.jump s Q :=
  ⟨Frame.coded (.jump s), h⟩

theorem hold [Frame R] {pc : Nat} {Q : Unit → State → Prop}
    (h : Q () (s.setHeld fun p => s.fn.openLists p ∨ p = pc)) :
    Via R (Compile.hold pc) s Q :=
  ⟨Frame.coded (.setHeld s _), h⟩

theorem giveUp [Frame R] {list : Option Nat} {Q : Unit → State → Prop}
    (h : Q () (s.setHeld fun p => s.fn.openLists p ∧ list ≠ some p)) : Via R (Compile.giveUp list) s
    Q :=
  ⟨Frame.coded (.setHeld s _), h⟩

theorem noteLists [Frame R] {used : List (Option Nat)} {Q : Unit → State → Prop}
    (hs : (s.moment used).Sound)
    (h : Q () (s.use used)) : Via R (Compile.noteLists used) s Q :=
  ⟨Frame.coded (.use s hs), h⟩

theorem here [Steps R] {Q : Nat → State → Prop} (h : Q s.fn.code.size s) : Via R Compile.here s Q :=
  Via.ofFn h

theorem freeReg [Steps R] {Q : Nat → State → Prop} (h : Q s.fn.freeReg s) :
    Via R Compile.freeReg s Q :=
  Via.ofFn h

theorem setFreeReg [Wide R] {r : Nat} {Q : Unit → State → Prop} (h : Q () (s.setFree r)) :
    Via R (Compile.setFreeReg r) s Q :=
  ⟨Wide.keeps (.setFree s r), h⟩

theorem markTarget [Frame R] {Q : Nat → State → Prop} (h : Q s.fn.code.size s.mark) :
    Via R Compile.markTarget s Q :=
  ⟨Frame.coded (.mark s), h⟩

theorem noteFits [Frame R] {fits : Bool} {Q : Unit → State → Prop} (h : Q () (s.note fits)) :
    Via R (Compile.noteFits fits) s Q :=
  ⟨Frame.coded (.note s fits), h⟩

theorem instructionAt [Steps R] {pc : Nat} {i : Instruction} {Q : Instruction → State → Prop}
    (hi : s.fn.code[pc]? = some i) (h : Q i s) : Via R (Compile.instructionAt pc) s Q := by
  unfold Compile.instructionAt
  refine Via.next (Via.ofFn ?_)
  rw [hi]
  exact Via.pure h

theorem modifyAt {pc : Nat} {change : Instruction → Instruction} {Q : Unit → State → Prop}
    (hpc : pc < s.fn.code.size)
    (h : R s (s.setCode (s.fn.code.modify pc change) s.fn.aims) ∧
      Q () (s.setCode (s.fn.code.modify pc change) s.fn.aims)) :
    Via R (Compile.modifyAt pc change) s Q := by
  unfold Compile.modifyAt
  refine Via.of_eq ?_ h.1 h.2
  show (if pc < s.fn.code.size then _ else _ : M Unit) s = _
  rw [if_pos hpc]
  rfl

theorem setAt [Frame R] {pc : Nat} {changes : List (Instruction.Field × Nat)}
    {Q : Unit → State → Prop} (hpc : pc < s.fn.code.size) (h : Q () (s.setAt pc changes)) :
    Via R (Compile.setAt pc changes) s Q := by
  unfold Compile.setAt
  refine Via.next (Via.noteFits ?_)
  refine Via.modifyAt hpc ⟨Frame.coded ?_, h⟩
  exact .setCode _ _ (by simp)

theorem replaceAt [Frame R] {pc : Nat} {d : Draft} {Q : Unit → State → Prop}
    (hpc : pc < s.fn.code.size) (h : Q () (s.replaceAt pc d)) :
    Via R (Compile.replaceAt pc d) s Q := by
  unfold Compile.replaceAt
  refine Via.next (Via.noteFits ?_)
  refine Via.modifyAt hpc ⟨Frame.coded ?_, h⟩
  exact .setCode _ _ (by simp)

theorem fixLine [Frame R] {line : Nat} {Q : Unit → State → Prop} (hb : Base s)
    (hs : 0 < s.fn.code.size) (h : Q () (s.fixLine line)) : Via R (Compile.fixLine line) s Q := by
  unfold Compile.fixLine
  refine Via.next (Via.ofFn ?_)
  obtain ⟨n, hn⟩ : ∃ n, s.fn.code.size = n + 1 := ⟨s.fn.code.size - 1, by omega⟩
  rw [LineTable.Fits.canRemove (hn ▸ hb.lines)]
  exact ⟨Frame.coded (.fixLine s line), h⟩

theorem onCode [Frame R] {act : Code → Except JumpList.Fault (Code × α)}
    (h : act s.fn.code = .error .tooLong ∨ ∃ code a, act s.fn.code = .ok (code, a) ∧
      code.size = s.fn.code.size ∧ Q a (s.setCode code s.fn.aims)) :
    Via R (Compile.onCode act) s Q := by
  unfold Compile.onCode Via
  rw [bind_eq (m := modifyGet _) (a := s.fn.code) (t := { s with fn := { s.fn with code := #[] } })
    rfl]
  rcases h with h | ⟨code, a, h, hs, hq⟩
  · rw [h]
    exact Aborts.of_same trivial rfl rfl rfl rfl
  · rw [h]
    exact ⟨Frame.coded (.setCode s _ hs), hq⟩

end Via

/-! ### The invariant -/

namespace Base

variable {s : State}

theorem note {fits : Bool} (h : Base s) (hf : fits = true) : Base (s.note fits) :=
  { h with fits := by simp [State.note, h.fits, hf] }

theorem emit {d : Draft} {meant : List Value} (h : Base s) (hd : d.fits = true)
    (hr : d.Refers s.fn.references meant) : Base (s.emit d meant) :=
  { h with
    tracked := h.tracked.emit h.scopes.placed (Array.size_push ..)
    lines := by simpa [State.emit] using h.lines.record _
    refers := h.refers.pushDraft hr
    meaning := h.meaning.pushDraft hr
    fits := by simp [State.emit, h.fits, hd] }

theorem emitLarge {reg k : Nat} {v : Value} (h : Base s)
    (hd : (Draft.abx .loadKX reg 0).fits = true)
    (hx : (Draft.ax .extraArg k).fits = true) (hk : s.fn.pool.Has k v) :
    Base ((s.emit (.abx .loadKX reg 0) [v]).emit (.ax .extraArg k)) :=
  { h with
    tracked :=
      (h.tracked.emit h.scopes.placed (Array.size_push ..)).emit h.scopes.placed
        (Array.size_push ..)
    lines := by simpa [State.emit] using (h.lines.record _).record _
    refers :=
      h.refers.pushLarge (Draft.opcode?_word _) (Draft.opcode?_word _)
        ((Draft.get_ax hx).symm ▸ hk.lt)
    meaning :=
      h.meaning.pushLarge (Draft.opcode?_word _) (Draft.opcode?_word _)
        ((Draft.get_ax hx).symm ▸ .cons hk .nil)
    fits := by simp [State.emit, h.fits, hd, hx] }

theorem fixLine {line : Nat} (h : Base s) (hs : 0 < s.fn.code.size) : Base (s.fixLine line) :=
  { h with
    lines := by
      obtain ⟨n, hn⟩ : ∃ n, s.fn.code.size = n + 1 := ⟨s.fn.code.size - 1, by omega⟩
      have hl := h.lines
      rw [hn] at hl
      show (s.fn.lines.fixLast line).Fits s.fn.code.size
      rw [hn]
      exact hl.fixLast line }

theorem setCode {code : Code} (aims : List (Nat × Nat)) (h : Base s)
    (hs : code.size = s.fn.code.size)
    (hr : Rewritten s.fn.references s.fn.code code) : Base (s.setCode code aims) :=
  { h with
    tracked := h.tracked.recode hs
    lines := by rw [show (s.setCode code aims).fn.code.size = s.fn.code.size from hs]; exact h.lines
    refers := h.refers.rewrite hr hs
    meaning := h.meaning.rewrite hr hs }

theorem setAt {pc : Nat} {changes : List (Instruction.Field × Nat)} (h : Base s)
    (hf : (changes.all fun (f, v) => f.fits v) = true)
    (hr : Rewritten s.fn.references s.fn.code (s.fn.code.modify pc (·.setAll changes))) : Base
    (s.setAt pc changes) :=
  { h with
    tracked := h.tracked.recode (Array.size_modify ..)
    lines := by simpa [State.setAt] using h.lines
    refers := h.refers.rewrite hr (Array.size_modify ..)
    meaning := h.meaning.rewrite hr (Array.size_modify ..)
    fits := by simp [State.setAt, h.fits, hf] }

theorem replaceAt {pc : Nat} {d : Draft} (h : Base s) (hd : d.fits = true)
    (hr : Rewritten s.fn.references s.fn.code (s.fn.code.modify pc fun _ => d.word)) : Base
    (s.replaceAt pc d) :=
  { h with
    tracked := h.tracked.recode (Array.size_modify ..)
    lines := by simpa [State.replaceAt] using h.lines
    refers := h.refers.rewrite hr (Array.size_modify ..)
    meaning := h.meaning.rewrite hr (Array.size_modify ..)
    fits := by simp [State.replaceAt, h.fits, hd] }

theorem mark (h : Base s) : Base s.mark := { h with }

theorem setHeld (h : Base s) (held : Nat → Prop) : Base (s.setHeld held) := { h with }

theorem use (h : Base s) (used : List (Option Nat)) : Base (s.use used) := { h with }

theorem jump (h : Base s) : Base s.jump :=
  (h.emit JumpList.fits_endOfList (Draft.refers_of_free rfl)).setHeld _

theorem setFree {r : Nat} (h : Base s) (hr : r ≤ s.fn.maxStack) : Base (s.setFree r) :=
  { h with room := hr }

theorem raise {n : Nat} (h : Base s) (hn : s.fn.maxStack ≤ n) : Base (s.raise n) :=
  { h with
    stack := Nat.le_trans h.stack hn
    room := Nat.le_trans h.room hn
    adopts := h.adopts.mono (Int.ofNat_le.2 hn) (Nat.le_refl _) }

end Base

namespace Inv

variable {F F' : List Pending} {o o' : Option Nat} {live live' : Nat → Prop} {s : State}

theorem maxStack_le (h : Inv F o live s) : s.fn.maxStack ≤ 254 := h.sound.stack

theorem weaken (h : Inv F o live s) (hl : ∀ r, live' r → live r) : Inv F o live' s :=
  ⟨h.base, h.sound.weaken hl, h.held⟩

theorem perm (h : Inv F o live s) (hp : F'.Perm F) : Inv F' o live s :=
  ⟨h.base, h.sound.perm (hp.append_right _), h.held.perm (hp.append_right _)⟩

theorem dropTarget {t l : Nat} (h : Inv (.target t l :: F) o live s) : Inv F o live s :=
  ⟨h.base, h.sound.dropTarget, h.held⟩

theorem addNil (l : Nat) (h : Inv F o live s) : Inv (.list [] l :: F) o live s :=
  ⟨h.base, h.sound.addNil l, h.held⟩

theorem dropNil {l : Nat} (h : Inv (.list [] l :: F) o live s) : Inv F o live s :=
  ⟨h.base, h.sound.dropNil, h.held⟩

theorem relist {ms : List Nat} {l l' : Nat} (h : Inv (.list ms l :: F) o live s)
    (hl : s.lateLoad = true ∨ l' ≤ l) : Inv (.list ms l' :: F) o live s :=
  ⟨h.base, h.sound.relist hl, h.held⟩

theorem setFree {r : Nat} (h : Inv F o live s) (hr : r ≤ s.fn.maxStack) :
    Inv F o live (s.setFree r) :=
  ⟨h.base.setFree hr, h.sound, h.held⟩

theorem raise {n : Nat} (h : Inv F o live s) (hn : s.fn.maxStack ≤ n) (hn' : n ≤ 254) :
    Inv F o live (s.raise n) :=
  ⟨h.base.raise hn, h.sound.raise hn hn', h.held⟩

theorem fixLine {line : Nat} (h : Inv F o live s) (hs : 0 < s.fn.code.size) :
    Inv F o live (s.fixLine line) :=
  ⟨h.base.fixLine hs, h.sound, h.held⟩

theorem mark {l : Nat} (h : Inv F none live s) (hl : ∀ r < l, live r) :
    Inv (.target s.fn.code.size l :: F) none (· < l) s.mark :=
  ⟨h.base.mark, h.sound.mark hl, h.held⟩

theorem room (h : Inv F o live s) : s.fn.freeReg ≤ s.fn.maxStack := h.base.room

theorem chain {ms : List Nat} {l : Nat} (h : Inv F o live s) (hm : .list ms l ∈ F) :
    Chain s.fn.code ms :=
  h.sound.shape.holds _ (List.mem_append_left _ hm)

theorem nodup (h : Inv F o live s) : (Pending.ownedBy F).Nodup := by
  have hn := h.sound.shape.nodup
  rw [Pending.ownedBy_append] at hn
  exact (List.nodup_append.1 hn).1

theorem setHeld {held : Nat → Prop} (h : Inv F o live s) (hh : Holding held (F' ++ s.waiting))
    (hs : Sound s.fn.view s.lateLoad (F' ++ s.waiting) o live) : Inv F' o live (s.setHeld held) :=
  ⟨h.base.setHeld held, hs, hh⟩

theorem use (h : Inv F o live s) (used : List (Option Nat)) : Inv F o live (s.use used) :=
  ⟨h.base.use used, h.sound, h.held⟩

end Inv

theorem State.gotoJumps_eq (s : State) :
    s.gotoJumps = (s.gotos.toList.drop s.fn.scope.firstGoto).map (·.pc) := by
  have hfirst : s.fn.scope.firstGoto = (s.fn.blocks.getLast?.map (·.firstGoto)).getD 0 := by
    show (((s.fn.blocks.map Block.scope).getLast?).map (·.firstGoto)).getD 0 = _
    rw [List.getLast?_map, Option.map_map]
    rfl
  rw [hfirst]
  rfl

theorem State.heads_waiting (s : State) : Pending.heads s.waiting = s.gotoJumps := by
  have hgotos (gs : List Label) : Pending.heads (gs.map (gotoThing s.vars s.fn.scope.firstVar)) =
      gs.map (·.pc) := by
    induction gs with
    | nil => rfl
    | cons g gs ih => exact congrArg (g.pc :: ·) ih
  have hlabels (ls : List Label) : Pending.heads (ls.map (labelThing s.vars s.fn.scope.firstVar)) =
      [] := by
    induction ls with
    | nil => rfl
    | cons l ls ih => exact ih
  unfold State.waiting Compile.waiting
  rw [Pending.heads_append, hgotos, hlabels, List.append_nil, s.gotoJumps_eq]

theorem Inv.moment (U : List Pending) {F : List Pending} {o : Option Nat} {live : Nat → Prop}
    {s : State}
    (h : Inv (U ++ F) o live s) : (s.moment (U.map Pending.first?)).Sound where
  lists := by
    refine ⟨(U ++ F ++ s.waiting).map Pending.jumps, h.sound.shape.threads,
      fun p => (h.held p).trans Pending.mem_heads, ?_⟩
    intro p (hp : p ∈ s.gotoJumps)
    rw [s.gotoJumps_eq] at hp
    obtain ⟨g, hg, rfl⟩ := List.mem_map.1 hp
    rw [List.map_append]
    refine List.mem_append_right _ (List.mem_map.2 ⟨gotoThing s.vars s.fn.firstVar g, ?_, rfl⟩)
    exact List.mem_append_left _ (List.mem_map_of_mem hg)
  apart := by
    have hnodup := h.sound.shape.nodup_heads
    rw [Pending.heads_append, Pending.heads_append, State.heads_waiting] at hnodup
    show ((U.map Pending.first?).filterMap id ++ s.gotoJumps).Nodup
    rw [List.filterMap_map]
    exact hnodup.sublist ((List.sublist_append_left _ _).append (List.Sublist.refl _))
  held p hp := by
    obtain ⟨x, hx, hp⟩ := List.mem_map.1 hp
    refine (h.held p).2 ?_
    rw [Pending.heads_append, Pending.heads_append]
    exact List.mem_append_left _ (List.mem_append_left _ (List.mem_filterMap.2 ⟨x, hx, hp⟩))

/-! ### Registers -/

namespace Base

variable {s : State}

theorem registersOf_eq (h : Base s) {n : Nat} (hn : n ≤ s.fn.active) :
    registersOf s.vars s.fn.firstVar n = some (levelOf s.vars s.fn.firstVar n) :=
  h.scopes.level_eq hn

end Base

namespace State

/-- The register of a value that was coded when `base` was the first free register: that of a
variable, or the first free one. -/
def Slot (s : State) (base r : Nat) : Prop :=
  r < s.level ∧ s.fn.freeReg = base ∨ r = base ∧ s.fn.freeReg = base + 1

def Slots (s : State) (base r₁ r₂ : Nat) : Prop :=
  r₁ < s.level ∧ s.Slot base r₂ ∨ r₂ < s.level ∧ s.Slot base r₁ ∨
    (r₁ = base ∧ r₂ = base + 1 ∨ r₁ = base + 1 ∧ r₂ = base) ∧ s.fn.freeReg = base + 2

end State

namespace Via

variable {R : State → State → Prop} {s : State}

theorem registerLevel [Steps R] {n : Nat} {Q : Nat → State → Prop} (hb : Base s)
    (hn : n ≤ s.fn.active) (h : Q (levelOf s.vars s.fn.firstVar n) s) :
    Via R (Compile.registerLevel n) s Q := by
  unfold Compile.registerLevel
  refine Via.next (Via.get ?_)
  rw [hb.registersOf_eq hn]
  exact Via.pure h

theorem activeRegisters [Steps R] {Q : Nat → State → Prop} (hb : Base s) (h : Q s.level s) :
    Via R Compile.activeRegisters s Q :=
  Via.next (Via.ofFn (Via.registerLevel hb (Nat.le_refl _) h))

theorem checkStack [Wide R] {n : Nat} {Q : Unit → State → Prop} (hs : s.fn.maxStack ≤ 254)
    (h : ∀ m, s.fn.maxStack ≤ m → s.fn.freeReg + n ≤ m → m ≤ 254 → Q () (s.raise m)) :
    Via R (Compile.checkStack n) s Q := by
  unfold Compile.checkStack
  refine Via.next (Via.freeReg ?_)
  refine Via.next (Via.ofFn ?_)
  refine Via.ite (fun hlt => ?_) (fun hge => ?_)
  · refine Via.ite (fun _ => Aborts.of_same trivial rfl rfl rfl rfl) (fun hlim => ?_)
    simp only [maxRegisters, Nat.not_le] at hlim
    exact ⟨Wide.keeps (.raise s (by omega)), h _ (by omega) (Nat.le_refl _) (by omega)⟩
  · exact Via.pure (h s.fn.maxStack (Nat.le_refl _) (by omega) hs)

theorem reserve [Wide R] {n : Nat} {Q : Unit → State → Prop} (hs : s.fn.maxStack ≤ 254)
    (h : ∀ m, s.fn.maxStack ≤ m → s.fn.freeReg + n ≤ m → m ≤ 254 →
      Q () ((s.raise m).setFree (s.fn.freeReg + n))) : Via R (Compile.reserve n) s Q := by
  unfold Compile.reserve
  refine Via.next (Via.checkStack hs fun m h₁ h₂ h₃ => ?_)
  exact ⟨Wide.keeps (.setFree _ _), h m h₁ h₂ h₃⟩

theorem freeVariable [Wide R] {r : Nat} {Q : Unit → State → Prop} (hb : Base s) (hr : r < s.level)
    (h : Q () s) : Via R (Compile.freeRegister r) s Q := by
  unfold Compile.freeRegister
  refine Via.next (Via.activeRegisters hb ?_)
  exact Via.ite (fun hle => by omega) fun _ => Via.pure h

theorem freeTop [Wide R] {r : Nat} {Q : Unit → State → Prop} (hb : Base s) (hr : s.level ≤ r)
    (ht : s.fn.freeReg = r + 1) (h : Q () (s.setFree r)) : Via R (Compile.freeRegister r) s Q := by
  unfold Compile.freeRegister
  refine Via.next (Via.activeRegisters hb ?_)
  refine Via.ite (fun _ => ?_) fun hlt => absurd hr hlt
  refine Via.next (Via.freeReg ?_)
  exact Via.ite (fun _ => Via.setFreeReg h) fun hne => absurd ht.symm hne

theorem freeSlot [Wide R] {base r : Nat} {Q : Unit → State → Prop} (hb : Base s)
    (hl : s.level ≤ base) (hr : s.Slot base r) (h : Q () (s.setFree base)) :
    Via R (Compile.freeRegister r) s Q := by
  rcases hr with ⟨hr, hf⟩ | ⟨rfl, hf⟩
  · refine Via.freeVariable hb hr ?_
    rw [← hf] at h
    exact h
  · exact Via.freeTop hb hl hf h

theorem freeSlots [Wide R] {base r₁ r₂ : Nat} {Q : Unit → State → Prop} (hb : Base s)
    (hl : s.level ≤ base) (hr : s.Slots base r₁ r₂) (h : Q () (s.setFree base)) :
    Via R (Compile.freeRegisters r₁ r₂) s Q := by
  have hroom := hb.room
  unfold Compile.freeRegisters
  rcases hr with ⟨h₁, h₂⟩ | ⟨h₂, h₁⟩ | ⟨⟨rfl, rfl⟩ | ⟨rfl, rfl⟩, hf⟩
  · refine Via.ite (fun _ => ?_) fun _ => ?_
    · exact Via.next (Via.freeVariable hb h₁ (Via.freeSlot hb hl h₂ h))
    · refine Via.next (Via.freeSlot hb hl h₂ ?_)
      refine Via.freeVariable (hb.setFree ?_) h₁ h
      rcases h₂ with ⟨-, hf⟩ | ⟨-, hf⟩ <;> omega
  · refine Via.ite (fun _ => ?_) fun _ => ?_
    · refine Via.next (Via.freeSlot hb hl h₁ ?_)
      refine Via.freeVariable (hb.setFree ?_) h₂ h
      rcases h₁ with ⟨-, hf⟩ | ⟨-, hf⟩ <;> omega
    · exact Via.next (Via.freeVariable hb h₂ (Via.freeSlot hb hl h₁ h))
  · refine Via.ite (fun _ => by omega) fun _ => ?_
    refine Via.next (Via.freeTop hb (by omega) hf ?_)
    exact Via.freeTop (hb.setFree (by omega)) hl rfl h
  · refine Via.ite (fun _ => ?_) fun _ => by omega
    refine Via.next (Via.freeTop hb (by omega) hf ?_)
    exact Via.freeTop (hb.setFree (by omega)) hl rfl h

end Via

/-! ### Instructions -/

namespace Inv

variable {F F' : List Pending} {o o' : Option Nat} {live live' : Nat → Prop} {s : State}
  {op : Opcode}
  {a b c k : Nat} {d : Draft} {meant : List Value}

theorem push (h : Inv F o live s) (hd : d.fits = true) (hp : d.opcode.isPlain = true)
    (ho : o = none ∨ d.opcode ≠ .concat) (hregs : ∀ r ∈ d.word.registers, r < s.fn.maxStack)
    (hreads : ∀ r ∈ d.word.reads, live r) (hlive : ∀ r, live' r → live r ∨ r ∈ d.word.writes)
    (hr : d.word.Serves s.fn.references d.opcode meant) :
    Inv F o live' (s.emit d meant) :=
  ⟨h.base.emit hd ⟨hr, fun he => by rw [he] at hp; cases hp⟩,
    h.sound.push (Draft.opcode?_word d) hp ho hregs hreads hlive, h.held⟩

theorem pushABC (h : Inv F o live s) (hf : a ≤ 255 ∧ b ≤ 255 ∧ c ≤ 255 ∧ k ≤ 1)
    (hp : op.isPlain = true) (ho : o = none ∨ op ≠ .concat)
    (hw : ∀ w : Instruction, w.a = a → w.b = b → w.c = c → w.k = k →
      (∀ r ∈ w.registersOf op, r < s.fn.maxStack) ∧ (∀ r ∈ w.readsOf op, live r) ∧
        ∀ r, live' r → live r ∨ r ∈ w.writesOf op)
    (hr : ∀ w : Instruction, w.a = a → w.b = b → w.c = c → w.k = k →
    w.Serves s.fn.references op meant) :
    Inv F o live' (s.emit (.abck op a b c k) meant) := by
  have hd : (Draft.abck op a b c k).fits = true := Draft.fits_abck.2 hf
  obtain ⟨ha, hb, hc, hk⟩ := Draft.get_abck hd
  have hop := Draft.opcode?_word (.abck op a b c k)
  obtain ⟨h₁, h₂, h₃⟩ := hw _ ha hb hc hk
  refine h.push hd hp ho ?_ ?_ ?_ (hr _ ha hb hc hk)
  · rwa [Instruction.registers_eq hop]
  · rwa [Instruction.reads_eq hop]
  · rwa [Instruction.writes_eq hop]

theorem pushOpen (h : Inv F none live s) (hf : a ≤ 255 ∧ b ≤ 255 ∧ c ≤ 255 ∧ k ≤ 1)
    (hp : op.isPlain = true) (hr : op.isRelocatable = true) (hv : op ≠ .vararg)
    (hw : ∀ w : Instruction, w.a = a → w.b = b → w.c = c →
      (∀ r ∈ w.registersOf op, r < s.fn.maxStack) ∧ ∀ r ∈ w.readsOf op, live r)
    (hx : ∀ w : Instruction, w.b = b → w.c = c → w.Serves s.fn.references op meant) :
    Inv F (some s.fn.code.size) live (s.emit (.abck op a b c k) meant) := by
  have hd : (Draft.abck op a b c k).fits = true := Draft.fits_abck.2 hf
  obtain ⟨ha, hb, hc, -⟩ := Draft.get_abck hd
  have hop := Draft.opcode?_word (.abck op a b c k)
  obtain ⟨h₁, h₂⟩ := hw _ ha hb hc
  refine ⟨h.base.emit hd ⟨hx _ hb hc, fun he => ?_⟩, h.sound.pushOpen hop hp hr hv ?_ ?_, h.held⟩
  · rw [show op = .loadKX from he] at hp
    cases hp
  · rwa [Instruction.registers_eq hop]
  · rwa [Instruction.reads_eq hop]

theorem setAt {pc : Nat} {changes : List (Instruction.Field × Nat)} (h : Base s)
    (hf : (changes.all fun (f, v) => f.fits v) = true)
    (hs : Sound (s.fn.view.modify pc (·.setAll changes)) s.lateLoad (F ++ s.waiting) o live)
    (hr : Rewritten s.fn.references s.fn.code (s.fn.code.modify pc (·.setAll changes)))
    (hh : Holding s.fn.openLists (F ++ s.waiting)) : Inv F o live (s.setAt pc changes) :=
  ⟨h.setAt hf hr, hs, hh⟩

theorem jump {l : Nat} (h : Inv F none live s) (hl : ∀ r < l, live r)
    (hlive : ∀ r, live' r → r < 255) :
    Inv (.list [s.fn.code.size] l :: F) none live' s.jump :=
  ⟨h.base.jump, h.sound.pushJump (Draft.opcode?_word _) (Draft.sj_sj JumpList.fits_endOfList) hl
    hlive, h.held.add rfl⟩

theorem test {l : Nat} (h : Inv F none live s) (hf : a ≤ 255 ∧ b ≤ 255 ∧ c ≤ 255 ∧ k ≤ 1)
    (ht : op.isTest = true)
    (hw : ∀ w : Instruction, w.a = a → w.b = b → w.c = c →
      (op ≠ .testSet ∧ (∀ r ∈ w.registersOf op, r < s.fn.maxStack) ∨
        op = .testSet ∧ b < s.fn.maxStack ∧ a = Instruction.noRegister) ∧ ∀ r ∈ w.readsOf op,
          live r)
    (hl : ∀ r < l, live r)
    (hr : ∀ w : Instruction, w.b = b → w.Serves s.fn.references op meant) :
    Inv (.list [s.fn.code.size + 1] l :: F) none live (s.emit (.abck op a b c k) meant).jump := by
  have hd : (Draft.abck op a b c k).fits = true := Draft.fits_abck.2 hf
  obtain ⟨ha, hb, hc, -⟩ := Draft.get_abck hd
  have hop := Draft.opcode?_word (.abck op a b c k)
  obtain ⟨h₁, h₂⟩ := hw _ ha hb hc
  have hrefers : (Draft.abck op a b c k).Refers s.fn.references meant := by
    refine ⟨hr _ hb, fun he => ?_⟩
    rw [show op = .loadKX from he] at ht
    cases ht
  refine ⟨(h.base.emit hd hrefers).jump, ?_, ?_⟩
  · simp only [State.view_jump, State.view_emit, State.lateLoad_jump, State.lateLoad_emit,
      State.waiting_jump,
      State.waiting_emit]
    refine h.sound.pushTest hop ht (Draft.opcode?_word _) (Draft.sj_sj JumpList.fits_endOfList) ?_
      ?_ hl
    · rwa [Instruction.registers_eq hop, ha, hb]
    · rwa [Instruction.reads_eq hop]
  · simp only [State.openLists_jump, State.openLists_emit, State.waiting_jump, State.waiting_emit,
      State.size_emit]
    exact h.held.add rfl

end Inv

theorem State.concatAt_emit {s : State} {d : Draft} {meant : List Value} (hd : d.opcode ≠ .concat)
    (r : Nat) :
    (s.emit d meant).ConcatAt r := by
  intro _ i hi hop
  simp only [State.emit, Array.back?_push, Option.some.injEq] at hi
  subst hi
  rw [Draft.opcode?_word] at hop
  exact absurd (Option.some.inj hop) hd

theorem State.ConcatAt.setCode {s : State} {code : Code} {aims : List (Nat × Nat)} {r : Nat}
    (h : s.ConcatAt r) (hs : code.size = s.fn.code.size)
    (hc : ∀ (p : Nat) (i : Instruction), code[p]? = some i → i.opcode? = some .concat →
      s.fn.code[p]? = some i) :
    (s.setCode code aims).ConcatAt r := by
  intro hlt i hi hop
  simp only [State.setCode] at hlt hi
  rw [Array.back?_eq_getElem?] at hi
  refine h (hs ▸ hlt) i ?_ hop
  rw [Array.back?_eq_getElem?, ← hs]
  exact hc _ i hi hop

/-! ### Lists of jumps -/

section

variable {F : List Pending} {o : Option Nat} {live : Nat → Prop} {s : State}

theorem appendJumps_spec {ms ms' : List Nat} {l : Nat}
    (h : Inv (.list ms l :: .list ms' l :: F) o live s) :
    Via Coded (appendJumps ms.head? ms'.head?) s fun first s' =>
      first = (ms ++ ms').head? ∧ Inv (.list (ms ++ ms') l :: F) o live s' ∧
        s'.fn.code.size = s.fn.code.size ∧ s'.fn.lastTarget = s.fn.lastTarget ∧
        (∀ r, s.ConcatAt r → s'.ConcatAt r) ∧
        ∀ p op, IsOp s.fn.code p op → op ≠ .jmp → IsOp s'.fn.code p op := by
  have hn : (ms ++ ms').Nodup := by
    have := h.nodup
    simp only [Pending.ownedBy_cons, Pending.owned, ← List.append_assoc] at this
    exact (List.nodup_append.1 this).1
  unfold appendJumps
  refine Via.next (Via.noteLists (h.moment [.list ms l, .list ms' l]) (Via.next (Via.onCode ?_)))
  have hc : Chain s.fn.code ms := h.chain (l := l) (by simp)
  have hc' : Chain s.fn.code ms' := h.chain (l := l) (by simp)
  rcases JumpList.append_spec hc hc' hn with he | ⟨code, he, hj⟩
  · exact .inl he
  · have hheld := h.held.join h.sound.shape.nodup_heads
    have hdone (held : Nat → Prop)
        (hheld : Holding held (.list (ms ++ ms') l :: (F ++ s.waiting))) :
        ∀ s', s' = ((s.use [ms.head?, ms'.head?]).setCode code s.fn.aims).setHeld held →
          Inv (.list (ms ++ ms') l :: F) o live s' ∧ s'.fn.code.size = s.fn.code.size ∧
            s'.fn.lastTarget = s.fn.lastTarget ∧ (∀ r, s.ConcatAt r → s'.ConcatAt r) ∧
            ∀ p op, IsOp s.fn.code p op → op ≠ .jmp → IsOp s'.fn.code p op := by
      rintro _ rfl
      refine ⟨⟨((h.base.use _).setCode _ hj.size hj.rewritten).setHeld _, h.sound.join hj, hheld⟩,
        hj.size, rfl, ?_, ?_⟩
      · intro r hr
        show (s.setCode code s.fn.aims).ConcatAt r
        refine State.ConcatAt.setCode hr hj.size ?_
        intro p i hi hop
        by_cases hp : p ∈ ms ++ ms'
        · obtain ⟨v, hv⟩ := hj.chain.isOp hp
          cases hi.symm.trans hv.1
          cases hop.symm.trans hv.2
        · rw [← hj.same p hp]
          exact hi
      · intro p op hop hne
        refine hop.congr (hj.same p fun hp => ?_)
        rcases List.mem_append.1 hp with hp | hp
        · exact hne (hop.unique (hc.isOp hp))
        · exact hne (hop.unique (hc'.isOp hp))
    refine .inr ⟨code, _, he, hj.size, ?_⟩
    cases ms with
    | nil => exact Via.pure ⟨rfl, hdone _ hheld _ rfl⟩
    | cons m ms => exact Via.next (Via.giveUp (Via.pure ⟨rfl, hdone _ hheld _ rfl⟩))

theorem aimJumps_spec {ms : List Nat} {l vt : Nat} {reg plain : Option Nat}
    (h : Inv (.list ms l :: F) none live s)
    (hn : plain = none → ∀ m ∈ ms, ∃ q, m = q + 1 ∧ IsOp s.fn.code q .testSet)
    (hv : (∃ q, q + 1 ∈ ms ∧ IsOp s.fn.code q .testSet) →
      ∃ lt, .target vt lt ∈ F ++ s.waiting ∧ ∀ r < lt, r < l ∨ reg = some r)
    (hp : ∀ t, plain = some t → ∃ lt, .target t lt ∈ F ++ s.waiting ∧ lt ≤ l)
    (hreg : ∀ ρ, reg = some ρ → ρ < s.fn.maxStack) :
    Via Coded (aimJumps ms.head? vt reg plain) s fun _ s' => Inv F none live s' ∧
      s'.fn.code.size = s.fn.code.size ∧ s'.fn.lastTarget = s.fn.lastTarget ∧
      ∀ q, q ∉ ms → q + 1 ∉ ms → s'.fn.code[q]? = s.fn.code[q]? := by
  have hc : Chain s.fn.code ms := h.chain (l := l) (by simp)
  have hnd : ms.Nodup := by
    have := h.nodup
    simp only [Pending.ownedBy_cons, Pending.owned] at this
    exact (List.nodup_append.1 this).1
  have hlen := hc.length_le hnd
  unfold aimJumps
  refine Via.next (Via.noteLists (h.moment [.list ms l]) (Via.next (Via.onCode ?_)))
  rcases JumpList.patch_spec vt reg plain [] hc hnd hn (s.fn.code.size + 1) (by omega) with
    ⟨he, -⟩ | ⟨code, new, he, ha⟩
  · exact .inl he
  · refine .inr ⟨code, _, he, ha.size, Via.next (Via.giveUp ?_)⟩
    refine ⟨Frame.coded (.setCode _ (new ++ [] ++ s.fn.aims) rfl),
      ⟨((h.base.use _).setCode _ ha.size (ha.rewritten hc)).setHeld _, ?_,
        h.held.drop h.sound.shape.nodup_heads⟩,
      ha.size, rfl, fun q hq hq' => ha.same q hq fun hm => absurd hm hq'⟩
    have hs := h.sound.aim ha hv hp hreg
    rw [← List.append_nil new] at hs
    exact hs

theorem patchToHere_spec {ms : List Nat} {l : Nat} (h : Inv (.list ms l :: F) none live s)
    (hl : ∀ r < l, live r) :
    Via Coded (patchToHere ms.head?) s fun _ s' => Inv F none (· < l) s' ∧
      s'.fn.code.size = s.fn.code.size ∧ s'.fn.lastTarget = s.fn.code.size := by
  unfold patchToHere patchList
  refine Via.next (Via.markTarget ?_)
  have hm : Inv (.list ms l :: .target s.fn.code.size l :: F) none (· < l) s.mark :=
    (h.mark hl).perm (List.Perm.swap ..)
  refine Via.mono (aimJumps_spec hm (by simp) ?_ ?_ (by simp)) ?_
  · exact fun _ => ⟨l, by simp, fun r hr => .inl hr⟩
  · rintro t ⟨⟩
    exact ⟨l, by simp, Nat.le_refl _⟩
  · rintro _ s' _ ⟨hi, hs, hL, -⟩
    exact ⟨hi.dropTarget, hs, hL⟩

theorem patchList_spec {ms : List Nat} {l t lt : Nat} (h : Inv (.list ms l :: F) none live s)
    (ht : .target t lt ∈ F ++ s.waiting) (hl : lt ≤ l) :
    Via Coded (patchList ms.head? t) s fun _ s' => Inv F none live s' ∧
      s'.fn.code.size = s.fn.code.size ∧ s'.fn.lastTarget = s.fn.lastTarget ∧
      ∀ q, q ∉ ms → q + 1 ∉ ms → s'.fn.code[q]? = s.fn.code[q]? := by
  refine aimJumps_spec h (by simp) ?_ ?_ (by simp)
  · exact fun _ => ⟨lt, ht, fun r hr => .inl (by omega)⟩
  · rintro t' ⟨⟩
    exact ⟨lt, ht, hl⟩

theorem patchValues_spec {ms : List Nat} {l t lt reg : Nat} {plain : Option Nat}
    (h : Inv (.list ms l :: F) none live s)
    (hn : plain = none → ∀ m ∈ ms, ∃ q, m = q + 1 ∧ IsOp s.fn.code q .testSet)
    (ht : .target t lt ∈ F) (hl : ∀ r < lt, r < l ∨ r = reg)
    (hp : ∀ t', plain = some t' → ∃ lt', .target t' lt' ∈ F ∧ lt' ≤ l)
    (hreg : reg < s.fn.maxStack) :
    Via Coded (patchValues ms.head? t reg plain) s fun _ s' => Inv F none live s' ∧
      s'.fn.code.size = s.fn.code.size ∧ s'.fn.lastTarget = s.fn.lastTarget ∧
      ∀ q, q ∉ ms → q + 1 ∉ ms → s'.fn.code[q]? = s.fn.code[q]? := by
  have hstack := h.maxStack_le
  unfold patchValues
  refine Via.next (Via.noteFits ?_)
  have hf : Instruction.Field.a.fits reg = true :=
    (Instruction.Field.fits_iff _ _).2 (show reg ≤ 255 by omega)
  have hb := h.base.note hf
  refine aimJumps_spec (s := s.note _) ⟨hb, h.sound, h.held⟩ hn ?_ ?_ ?_
  · refine fun _ => ⟨lt, List.mem_append_left _ ht, fun r hr => ?_⟩
    exact (hl r hr).imp_right fun h => by rw [h]
  · intro t' ht'
    obtain ⟨lt', hm, hle⟩ := hp t' ht'
    exact ⟨lt', List.mem_append_left _ hm, hle⟩
  · rintro ρ ⟨⟩
    exact hreg

theorem exists_perm_cons {x : Pending} (hm : x ∈ F) : ∃ F', F.Perm (x :: F') := by
  obtain ⟨F₁, F₂, rfl⟩ := List.append_of_mem hm
  exact ⟨F₁ ++ F₂, List.perm_middle⟩

theorem list_nodup {ms : List Nat} {l : Nat} (h : Inv F o live s) (hm : .list ms l ∈ F) :
    ms.Nodup := by
  have hn := h.nodup
  obtain ⟨F₁, F₂, rfl⟩ := List.append_of_mem hm
  rw [Pending.ownedBy_append, Pending.ownedBy_cons] at hn
  exact (List.nodup_append.1 (List.nodup_append.1 hn).2.1).1

theorem needsValue_spec {ms : List Nat} {l : Nat} (h : Inv F o live s) (hm : .list ms l ∈ F) :
    Via Coded (needsValue ms.head?) s fun b s' => s' = s.use [ms.head?] ∧
      (b = false → ∀ m ∈ ms, ∃ q, m = q + 1 ∧ IsOp s.fn.code q .testSet) := by
  have hc := h.chain hm
  have hlen := hc.length_le (list_nodup h hm)
  obtain ⟨b, hb, hnone⟩ := JumpList.needsValue_spec hc (s.fn.code.size + 1) (by omega)
  obtain ⟨F', hp⟩ := exists_perm_cons hm
  unfold needsValue
  refine Via.next (Via.noteLists ((h.perm hp.symm).moment [.list ms l]) ?_)
  refine Via.onCode (.inr ⟨s.fn.code, b, ?_, rfl, rfl, fun hf m hm => ?_⟩)
  case refine_2 =>
    by_contra hno
    cases hf.symm.trans (hnone.2 ⟨m, hm, hno⟩)
  show Except.map _ (JumpList.needsValue s.fn.code (s.fn.code.size + 1) ms.head?) = _
  rw [hb]
  rfl

theorem removeValues_spec {ms : List Nat} {l : Nat} (h : Inv F o live s) (hm : .list ms l ∈ F) :
    Via Coded (removeValues ms.head?) s fun _ s' => Inv F o live s' ∧
      s'.fn.code.size = s.fn.code.size ∧
      ∀ p op, IsOp s.fn.code p op → op ≠ .testSet → IsOp s'.fn.code p op := by
  have hc := h.chain hm
  have hn := list_nodup h hm
  have hlen := hc.length_le hn
  obtain ⟨code, he, hr⟩ := JumpList.removeValues_spec hc hn (s.fn.code.size + 1) (by omega)
  obtain ⟨F', hp⟩ := exists_perm_cons hm
  unfold removeValues
  refine Via.next (Via.noteLists ((h.perm hp.symm).moment [.list ms l]) ?_)
  refine Via.onCode
    (.inr ⟨code, (), ?_, hr.size, ⟨(h.base.use _).setCode _ hr.size hr.rewritten, ?_, h.held⟩,
    hr.size, ?_⟩)
  · show Except.map _ (JumpList.removeValues s.fn.code (s.fn.code.size + 1) ms.head?) = _
    rw [he]
    rfl
  · exact h.sound.retest (fun m hm' => ⟨ms, l, List.mem_append_left _ hm, hm'⟩) hr
  · intro p op hop hne
    exact hop.congr (hr.same p fun _ ht => hne (hop.unique ht))

end

/-! ### Constants -/

namespace State

def setPool (s : State) (pool : ConstantPool) (logs : Array Store × Array FloatUse) : State :=
  { s with stores := logs.1, floats := logs.2, fn := { s.fn with pool } }

def noteFloat (s : State) (x : Double) (keeper : Keeper) : State :=
  { s with floats := s.floats.push ⟨x, keeper⟩ }

end State

structure PoolGrown (p p' : ConstantPool) : Prop where
  size : p'.values.size ≤ Instruction.maxAx
  known : ∀ (k : Nat) (tag : UInt8), p'.values[k]? ≠ some (.unknown tag)
  grows : ∀ (k : Nat) (v : Value), p.values[k]? = some v → p'.values[k]? = some v

theorem Coded.setPool {s : State} {p : ConstantPool} (logs : Array Store × Array FloatUse)
    (h : PoolGrown s.fn.pool p) :
    Coded s (s.setPool p logs) :=
  { Coded.refl s with pool := h.grows }

theorem Inv.setPool {F : List Pending} {o : Option Nat} {live : Nat → Prop} {s : State}
    {p : ConstantPool} (logs : Array Store × Array FloatUse) (h : Inv F o live s)
    (hp : PoolGrown s.fn.pool p) :
    Inv F o live (s.setPool p logs) :=
  ⟨{ h.base with
      pool := hp.size
      known := hp.known
      refers := h.base.refers.mono ⟨hp.grows, Nat.le_refl _, Nat.le_refl _⟩
      meaning := h.base.meaning.mono hp.grows }, h.sound, h.held⟩

theorem Inv.noteFloat {F : List Pending} {o : Option Nat} {live : Nat → Prop} {s : State}
    (h : Inv F o live s)
    (x : Double) (keeper : Keeper) : Inv F o live (s.noteFloat x keeper) :=
  ⟨{ h.base with }, h.sound, h.held⟩

theorem Via.noteFloat {R : State → State → Prop} [Frame R] {s : State} {x : Double}
    {keeper : Keeper}
    {Q : Unit → State → Prop} (h : Q () (s.noteFloat x keeper)) : Via R (Compile.noteFloat x keeper)
    s Q :=
  ⟨Frame.coded { Coded.refl s with }, h⟩

theorem sameAs_of_sameConstant {w v : Value} (h : ConstantPool.sameConstant w v = true)
    (hw : ∀ tag, w ≠ .unknown tag) (hv : ∀ tag, v ≠ .unknown tag) : w.SameAs v := by
  simp only [ConstantPool.sameConstant, Value.rawEqual, Bool.and_eq_true, beq_iff_eq] at h
  obtain ⟨ht, hr⟩ := h
  rcases w with _ | (_ | _) | (m | x) | s | tag
  case unknown => exact absurd rfl (hw tag)
  all_goals rcases v with _ | (_ | _) | (n | y) | t | tag
  all_goals first
    | exact absurd rfl (hv tag)
    | (simp [Value.tag] at ht; done)
    | exact .inl rfl
    | skip
  · simp only [Number.same, beq_iff_eq] at hr
    exact .inl (by rw [hr])
  · exact .inr ⟨x, y, rfl, rfl, hr⟩
  · simp only [Bool.true_and, beq_iff_eq] at hr
    exact .inl (by rw [hr])

theorem Via.placeConstant {R : State → State → Prop} [Frame R] {s : State} {key : PoolKey}
    {v : Value}
    {Q : Nat → State → Prop} (hb : Base s) (hv : ∀ tag, v ≠ .unknown tag)
    (h : ∀ k p logs, PoolGrown s.fn.pool p → p.Has k v → Q k (s.setPool p logs)) :
    Via R (Compile.placeConstant key v) s Q := by
  have hcoded : ∀ (p : ConstantPool) (logs : Array Store × Array FloatUse), PoolGrown s.fn.pool p →
      R s (s.setPool p logs) := fun p logs hp => Frame.coded (.setPool logs hp)
  unfold Compile.placeConstant
  refine Via.next (Via.ofFn ?_)
  have hold : PoolGrown s.fn.pool s.fn.pool := ⟨hb.pool, hb.known, fun _ _ h => h⟩
  cases hf : s.fn.pool.find? key v with
  | some k =>
    obtain ⟨w, hw, hsame⟩ := ConstantPool.find?_sound hf
    refine ⟨Frame.coded (.refl s),
      h k s.fn.pool (s.stores, s.floats) hold ⟨w, hw, sameAs_of_sameConstant hsame ?_ hv⟩⟩
    exact fun tag he => hb.known k tag (he ▸ hw)
  | none =>
    refine Via.next (Via.ofFn ?_)
    refine Via.ite (fun _ => Via.next Via.limitError) fun hlt => ?_
    have hgrown : PoolGrown s.fn.pool (s.fn.pool.push key v) := by
      refine ⟨?_, ?_, ?_⟩
      · simp only [ConstantPool.push, Array.size_push]
        omega
      · intro k tag hk
        simp only [ConstantPool.push, Array.getElem?_push] at hk
        split at hk
        · exact hv tag (Option.some.inj hk)
        · exact hb.known k tag hk
      · intro k w hk
        have := (Array.getElem?_eq_some_iff.1 hk).1
        simp only [ConstantPool.push]
        rw [Array.getElem?_push_lt this, ← hk, Array.getElem?_eq_getElem this]
    have hq : ∀ logs, Q s.fn.pool.values.size (s.setPool (s.fn.pool.push key v) logs) := fun logs =>
      h _ _ logs hgrown ⟨v, by simp [ConstantPool.push], .inl rfl⟩
    cases v <;> exact ⟨hcoded _ (_, s.floats) hgrown, hq (_, s.floats)⟩

theorem Via.addConstant {R : State → State → Prop} [Frame R] {s : State} {key : PoolKey} {v : Value}
    {Q : PoolEntry → State → Prop} (hb : Base s) (hv : ∀ tag, v ≠ .unknown tag)
    (h : ∀ k p logs, PoolGrown s.fn.pool p → p.Has k v → Q ⟨k, v⟩ (s.setPool p logs)) :
    Via R (Compile.addConstant key v) s Q := by
  unfold Compile.addConstant
  refine Via.next (Via.placeConstant hb hv fun k p logs hp hk => ?_)
  have hplain : Via R (do
      let r : PUnit ← Pure.pure ⟨⟩
      (fun _ => Pure.pure ⟨k, v⟩) r : M PoolEntry) (s.setPool p logs) Q := Via.pure
      (h k p logs hp hk)
  rcases v with _ | _ | (_ | x) | _ | _
  case num.float =>
    exact Via.next (Via.ofFn (Via.next (Via.noteFloat (Via.pure (h k p (logs.1, _) hp hk)))))
  all_goals exact hplain

/-! ### Loads -/

section

variable {F : List Pending} {live live' : Nat → Prop} {s : State}

theorem load_effect (i : Instruction) {op : Opcode}
    (hop : op = .loadK ∨ op = .loadKX ∨ op = .loadI ∨
    op = .loadF ∨ op = .loadFalse ∨ op = .loadTrue) :
    i.registersOf op = [i.a] ∧ i.readsOf op = [] ∧ i.writesOf op = [i.a] := by
  rcases hop with rfl | rfl | rfl | rfl | rfl | rfl <;> exact ⟨rfl, rfl, rfl⟩

theorem Inv.load {d : Draft} {meant : List Value} {reg : Nat} (h : Inv F none live s)
    (hd : d.fits = true)
    (hop : d.opcode = .loadK ∨ d.opcode = .loadKX ∨ d.opcode = .loadI ∨ d.opcode = .loadF ∨
      d.opcode = .loadFalse ∨ d.opcode = .loadTrue) (hx : d.opcode ≠ .loadKX) (ha : d.word.a = reg)
    (hr : reg < s.fn.maxStack) (hl : ∀ r, live' r → live r ∨ r = reg)
    (hk : d.word.Serves s.fn.references d.opcode meant) :
    Inv F none live' (s.emit d meant) := by
  have hw := Draft.opcode?_word d
  obtain ⟨h₁, h₂, h₃⟩ := load_effect d.word hop
  refine h.push hd ?_ (.inl rfl) ?_ ?_ ?_ hk
  · rcases hop with h | h | h | h | h | h <;> first | exact absurd h hx | (rw [h]; rfl)
  · rw [Instruction.registers_eq hw, h₁, ha]
    simpa using hr
  · rw [Instruction.reads_eq hw, h₂]
    simp
  · rw [Instruction.writes_eq hw, h₃, ha]
    simpa using hl

theorem emitK_spec {reg : Nat} {k : PoolEntry} (h : Inv F none live s) (hk : s.fn.pool.Holds k)
    (hr : reg < s.fn.maxStack) (hl : ∀ r, live' r → live r ∨ r = reg) :
    Via Coded (emitK reg k) s fun _ s' => Inv F none live' s' ∧ ∀ q, s'.ConcatAt q := by
  have hstack := h.maxStack_le
  have hpool := h.base.pool
  have hlt := hk.lt
  simp only [Instruction.maxAx] at hpool
  unfold emitK
  refine Via.ite (fun hle => ?_) fun _ => ?_
  · simp only [Instruction.maxBx] at hle
    have hd : (Draft.abx .loadK reg k.index).fits = true := Draft.fits_abx.2 ⟨by omega, hle⟩
    refine Via.discard (Via.emit ⟨?_, State.concatAt_emit (by simp [Draft.opcode])⟩)
    refine h.load hd (.inl rfl) (by simp [Draft.opcode]) (Draft.get_abx hd).1 hr hl ?_
    have hbx := (Draft.get_abx hd).2
    exact ⟨Nat.lt_of_le_of_lt (Nat.le_of_eq hbx) hlt, hk.stand hbx⟩
  · have hd : (Draft.abx .loadKX reg 0).fits = true := Draft.fits_abx.2 ⟨by omega, by omega⟩
    have hx : (Draft.ax .extraArg k.index).fits = true := Draft.fits_ax.2 (by omega)
    have hw := Draft.opcode?_word (.abx .loadKX reg 0)
    obtain ⟨h₁, h₂, h₃⟩ := @load_effect (Draft.abx .loadKX reg 0).word .loadKX (by simp)
    rw [(Draft.get_abx hd).1] at h₁ h₃
    refine Via.next (Via.discard (Via.emit ?_))
    refine Via.discard (Via.emit
      ⟨⟨h.base.emitLarge hd hx hk, ?_, h.held⟩, State.concatAt_emit (by simp [Draft.opcode])⟩)
    refine h.sound.pushExtra hw (.inl rfl) (Draft.opcode?_word _) ?_ ?_ ?_
    · rw [Instruction.registers_eq hw, Draft.opcode, h₁]
      intro r hr'
      rw [List.mem_singleton.1 hr']
      exact hr
    · rw [Instruction.reads_eq hw, Draft.opcode, h₂]
      simp
    · rw [Instruction.writes_eq hw, Draft.opcode, h₃]
      simpa using hl

/-- The last instruction, if no jump can lead to the position after it. -/
def State.previous (s : State) : Option Instruction :=
  if s.fn.lastTarget < s.fn.code.size then s.fn.code.back? else none

theorem Via.previous {R : State → State → Prop} [Steps R] {Q : Option Instruction → State → Prop}
    (h : Q s.previous s) : Via R previous? s Q :=
  Via.ofFn h

theorem State.previous_eq {i : Instruction} (h : s.previous = some i) :
    s.fn.lastTarget < s.fn.code.size ∧ s.fn.code[s.fn.code.size - 1]? = some i := by
  unfold State.previous at h
  split at h
  · exact ⟨‹_›, by rw [← Array.back?_eq_getElem?]; exact h⟩
  · cases h

/-- Registers are set to nil: by one more instruction, or by the last one. -/
def State.loadNil (s : State) (start n : Nat) : State :=
  match s.previous.bind (extendNil? start n) with
  | some (a, b) => s.setAt (s.fn.code.size - 1) [(.a, a), (.b, b)]
  | none => s.emit (.abck .loadNil start (n - 1) 0 0)

theorem Via.loadNil {R : State → State → Prop} [Frame R] {start n : Nat} {Q : Unit → State → Prop}
    (h : Q () (s.loadNil start n)) : Via R (Compile.loadNil start n) s Q := by
  unfold Compile.loadNil
  refine Via.next (Via.previous ?_)
  unfold State.loadNil at h
  cases he : s.previous.bind (extendNil? start n) with
  | some p =>
    rw [he] at h
    obtain ⟨i, hi, -⟩ := Option.bind_eq_some_iff.1 he
    refine Via.next (Via.here ?_)
    exact Via.setAt (Array.getElem?_eq_some_iff.1 (State.previous_eq hi).2).1 h
  | none =>
    rw [he] at h
    exact Via.discard (Via.emit h)

theorem extendNil?_spec {start n a b : Nat} {i : Instruction}
    (h : extendNil? start n i = some (a, b))
    (hn : 0 < n) : i.opcode? = some .loadNil ∧ a ≤ start ∧ a ≤ i.a ∧
      a + b = max (start + n - 1) (i.a + i.b) ∧
      ∀ r, a ≤ r → r ≤ a + b → i.a ≤ r ∧ r ≤ i.a + i.b ∨ start ≤ r ∧ r < start + n := by
  unfold extendNil? at h
  simp only at h
  split at h
  · rename_i hc
    simp only [Bool.and_eq_true, Bool.or_eq_true, decide_eq_true_eq] at hc
    cases h
    refine ⟨Instruction.is_iff.1 hc.1, by omega, by omega, by omega, fun r h₁ h₂ => by omega⟩
  · cases h

theorem Inv.loadNil {start n : Nat} (h : Inv F none live s) (hn : 0 < n)
    (hr : start + n ≤ s.fn.maxStack)
    (hl : ∀ r, live' r → live r ∨ start ≤ r ∧ r < start + n) :
    Inv F none live' (s.loadNil start n) := by
  have hstack := h.maxStack_le
  unfold State.loadNil
  split
  · rename_i a b he
    obtain ⟨i, hi, hx⟩ := Option.bind_eq_some_iff.1 he
    obtain ⟨hL, hi⟩ := State.previous_eq hi
    obtain ⟨hop, h₁, h₂, h₃, h₄⟩ := extendNil?_spec hx hn
    have hregs : ∀ r ∈ List.range' i.a (i.b + 1), r < s.fn.maxStack := by
      intro r hr
      refine h.sound.bounds.lt hi (Instruction.ne_of_opcode hop (by simp)) r ?_
      rw [Instruction.registers_eq hop]
      exact hr
    have hend := hregs (i.a + i.b) (by simp [List.mem_range'_1])
    have hfits : ([(.a, a), (.b, b)] : List (Instruction.Field × Nat)).all
        (fun (f, v) => f.fits v) = true := by
      simp only [List.all_cons, List.all_nil, Bool.and_true, Bool.and_eq_true,
        Instruction.Field.fits_iff]
      exact ⟨show a ≤ 255 by omega, show b ≤ 255 by omega⟩
    have hfa : Instruction.Field.a.fits a = true :=
      (Instruction.Field.fits_iff _ _).2 (show a ≤ 255 by omega)
    have hfb : Instruction.Field.b.fits b = true :=
      (Instruction.Field.fits_iff _ _).2 (show b ≤ 255 by omega)
    obtain ⟨ha, hb⟩ := Instruction.get_setAll_two i hfa hfb rfl rfl
    have hop' : (i.setAll [(.a, a), (.b, b)]).opcode? = some .loadNil := by
      rw [Instruction.opcode?_setAll _ _ rfl, hop]
    have hw' : (i.setAll [(.a, a), (.b, b)]).writes = List.range' a (b + 1) := by
      rw [Instruction.writes_eq hop']
      show List.range' (Instruction.get _ .a) (Instruction.get _ .b + 1) = _
      rw [ha, hb]
    refine Inv.setAt h.base hfits (h.sound.editLast ?_ ?_ hi hop hop' (by simp) ?_ ?_ ?_)
      (.modify_free hi hop hop' rfl rfl) h.held
    · show s.fn.code.size - 1 + 1 = s.fn.code.size
      omega
    · show s.fn.lastTarget ≤ s.fn.code.size - 1
      omega
    · rw [Instruction.registers_eq hop']
      show ∀ r ∈ List.range' (Instruction.get _ .a) (Instruction.get _ .b + 1), r < s.fn.maxStack
      rw [ha, hb]
      intro r hr
      rw [List.mem_range'_1] at hr
      omega
    · rw [Instruction.reads_eq hop']
      intro r hr
      cases hr
    · intro r hr
      rw [hw', Instruction.writes_eq hop]
      show live r ∧ r ∉ List.range' i.a (i.b + 1) ∨ _ ∨ _
      rcases hl r hr with hr | hr
      · by_cases hm : r ∈ List.range' i.a (i.b + 1)
        · right; right
          rw [List.mem_range'_1] at hm ⊢
          omega
        · exact .inl ⟨hr, hm⟩
      · right; right
        rw [List.mem_range'_1]
        omega
  · refine h.pushABC ⟨by omega, by omega, by omega, by omega⟩ rfl (.inl rfl) ?_
      fun _ _ _ _ _ => Instruction.serves_of_free rfl
    rintro w ha hb - -
    have hw : w.writesOf .loadNil = List.range' start n := by
      show List.range' w.a (w.b + 1) = _
      rw [ha, hb]
      congr 1
      omega
    refine ⟨?_, ?_, ?_⟩
    · show ∀ r ∈ [] ++ w.writesOf .loadNil, r < s.fn.maxStack
      rw [hw]
      intro r hr
      rw [List.nil_append, List.mem_range'_1] at hr
      omega
    · intro r hr
      cases hr
    · rw [hw]
      intro r hr
      rw [List.mem_range'_1]
      exact hl r hr

theorem State.concatAt_setAt {pc : Nat} {changes : List (Instruction.Field × Nat)}
    (hc : (changes.all fun x => x.1.apart .opcode) = true) {op : Opcode}
    (hop : IsOp s.fn.code (s.fn.code.size - 1) op) (hne : op ≠ .concat) (r : Nat) :
    (s.setAt pc changes).ConcatAt r := by
  intro _ i hi hopi
  obtain ⟨j, hj, hopj⟩ := hop
  have hs : (s.setAt pc changes).fn.code.size = s.fn.code.size := by simp [State.setAt]
  rw [Array.back?_eq_getElem?, hs] at hi
  simp only [State.setAt, Array.getElem?_modify] at hi
  rw [hj] at hi
  split at hi
  · cases hi
    rw [Instruction.opcode?_setAll _ _ hc, hopj] at hopi
    exact absurd (Option.some.inj hopi) hne
  · cases hi
    rw [hopj] at hopi
    exact absurd (Option.some.inj hopi) hne

theorem State.concatAt_loadNil {start n : Nat} (hn : 0 < n) (r : Nat) :
    (s.loadNil start n).ConcatAt r := by
  unfold State.loadNil
  split
  · rename_i a b he
    obtain ⟨i, hi, hx⟩ := Option.bind_eq_some_iff.1 he
    obtain ⟨-, hi⟩ := State.previous_eq hi
    exact State.concatAt_setAt rfl ⟨i, hi, (extendNil?_spec hx hn).1⟩ (by simp) r
  · exact State.concatAt_emit (by simp [Draft.opcode]) r

end

end Compile

end LuaChunk
