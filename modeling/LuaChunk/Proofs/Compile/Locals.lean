import LuaChunk.Proofs.Compile.Chunk

/-!
The local variables that the debug information of a compiled function shows. It has an entry for
each variable in a register; the entries nest like the scopes that they stand for, and the variable
that is found for a register at an instruction is the one that was in it when the instruction was
emitted.
-/

set_option autoImplicit false

namespace LuaChunk

namespace JumpList

variable {m : ReturnMarks} {code code' : Code} {n pc : Nat}

theorem size_finishAt (h : finishAt m code pc = .ok code') : code'.size = code.size := by
  unfold finishAt at h
  split at h
  · cases h
  · split at h
    · split at h
      · cases h
      · exact size_fix h
    · cases h
      exact Array.size_modify

theorem size_finishLast (h : finishLast m n code = .ok code') : code'.size = code.size := by
  induction n generalizing code with
  | zero =>
    cases h
    rfl
  | succ n ih =>
    unfold finishLast at h
    split at h
    · cases h
    · rename_i hat
      exact (ih h).trans (size_finishAt hat)

end JumpList

theorem takeWhile_filter {α : Type} {p q : α → Bool} {xs : List α}
    (h : xs.Pairwise fun x y => p y = true → p x = true) :
    (xs.takeWhile p).filter q = xs.filter fun x => p x && q x := by
  induction xs with
  | nil => rfl
  | cons x xs ih =>
    obtain ⟨hx, hxs⟩ := List.pairwise_cons.1 h
    rw [List.takeWhile_cons, List.filter_cons]
    cases hp : p x with
    | true =>
      rw [if_pos rfl, List.filter_cons, ih hxs, Bool.true_and]
    | false =>
      have hnone : ∀ y ∈ xs, ¬ (p y && q y) = true := fun y hy hpq => by
        rw [hx y hy (Bool.and_eq_true_iff.1 hpq).1] at hp
        cases hp
      rw [Bool.false_and, List.filter_eq_nil_iff.2 hnone]
      rfl

theorem find?_numbered {α : Type} {ps : List (Nat × α)} (h : ps.map (·.1) = List.range ps.length)
    (n : Nat) :
    ps.find? (fun x => x.1 = n) = ps[n]? := by
  have hnumber : ∀ (i : Nat) (x : Nat × α), ps[i]? = some x → x.1 = i := by
    intro i x hx
    have hi := (List.getElem?_eq_some_iff.1 hx).1
    have hfst : (ps.map (·.1))[i]? = some x.1 := by rw [List.getElem?_map, hx]; rfl
    rw [h, List.getElem?_range hi] at hfst
    exact (Option.some.inj hfst).symm
  cases hn : ps[n]? with
  | none =>
    refine List.find?_eq_none.2 fun x hx => ?_
    obtain ⟨i, hi⟩ := List.mem_iff_getElem?.1 hx
    have hlt := (List.getElem?_eq_some_iff.1 hi).1
    have hle := List.getElem?_eq_none_iff.1 hn
    simp only [decide_eq_true_eq, hnumber i x hi]
    omega
  | some x =>
    obtain ⟨hlt, hx⟩ := List.getElem?_eq_some_iff.1 hn
    refine List.find?_eq_some_iff_getElem.2
      ⟨decide_eq_true (hnumber n x hn), n, hlt, hx, fun j hj => ?_⟩
    have hj' := hnumber j _ (List.getElem?_eq_getElem (Nat.lt_trans hj hlt))
    simp only [hj', Bool.not_eq_true', decide_eq_false_iff_not]
    omega

namespace Compile

variable {xs : List Span} {x : Span}

theorem stopped (h : openIn xs = []) (hx : x ∈ xs) : ∃ p, x.stop = some p := by
  obtain ⟨i, hi⟩ := List.mem_iff_getElem?.1 hx
  refine Option.ne_none_iff_exists'.1 fun hn => ?_
  have hopen : x.isOpen = true := by rw [Span.isOpen, hn]; rfl
  have hmem : (x, i) ∈ xs.zipIdx.filter (·.1.isOpen) :=
    List.mem_filter.2 ⟨List.mem_zipIdx_iff_getElem?.2 hi, hopen⟩
  rw [List.map_eq_nil_iff.1 h] at hmem
  exact absurd hmem List.not_mem_nil

/-- Where all scopes have ended, the entries found at an instruction are those of the variables that
are shown there. -/
theorem entries_shown (hs : xs.Pairwise Span.Precedes) (he : openIn xs = []) (pc : Nat) :
    (((xs.map Span.entry).takeWhile fun v => decide (v.startPc ≤ (pc : Int))).filter fun v =>
    decide ((pc : Int) < v.endPc))
      = (xs.filter (·.covers pc)).map Span.entry := by
  have hsorted : (xs.map Span.entry).Pairwise fun v w =>
      decide (w.startPc ≤ (pc : Int)) = true → decide (v.startPc ≤ (pc : Int)) = true := by
    refine List.pairwise_map.2 (hs.imp fun {x y} hxy hy => decide_eq_true ?_)
    exact Int.le_trans (Int.ofNat_le.2 hxy.start) (of_decide_eq_true hy)
  rw [takeWhile_filter hsorted, List.filter_map]
  refine congrArg (List.map Span.entry) (List.filter_congr fun x hx => ?_)
  obtain ⟨p, hp⟩ := stopped he hx
  simp [Span.covers, Span.entry, hp]

/-- How the debug information of a function agrees with what was recorded while its code was
emitted. -/
structure Closing.Agrees (c : Closing) (q : Prototype) : Prop where
  /-- a variable with an entry is in the register whose number is that of the entries open at its
  declaration -/
  registers : ∀ x ∈ c.locals, x.kind.inRegister = true ∧ x.reg = x.before
  ranges : ∀ v ∈ q.locals, v.startPc ≤ v.endPc ∧ v.endPc ≤ q.code.size
  sorted : q.locals.toList.Pairwise fun v w => v.startPc ≤ w.startPc
  nested : q.locals.toList.Pairwise fun v w => v.endPc ≤ w.startPc ∨ w.endPc ≤ v.endPc
  /-- each instruction was emitted in a scope, whose variables have the registers from the
  first on -/
  emitted : c.scopes.size = q.code.size
  places : ∀ ps ∈ c.scopes, ps.map (·.1) = List.range ps.length
  /-- the variable found for a register is the one that was in it when the instruction was
  emitted -/
  shown : ∀ n pc : Nat, (q.local? n pc).map (·.name) =
    ((c.scopes.getD pc []).find? fun x => x.1 + 1 = n).map (·.2)

namespace Closing.Settled

variable {c : Closing} {q : Prototype}

/-- An instruction shows the variables that were in scope when it was emitted, and there is nothing
to show where there is none. -/
theorem shownAt_eq (h : c.Settled) (pc : Nat) :
    shownAt c.locals.toList pc = c.scopes.getD pc [] := by
  rw [Array.getD_eq_getD_getElem?]
  cases hps : c.scopes[pc]? with
  | some ps => exact h.history.shown pc ps (by rw [Array.getElem?_toList, hps])
  | none =>
    have hle := Array.getElem?_eq_none_iff.1 hps
    have hnone : ∀ x ∈ c.locals.toList, ¬ x.covers pc = true := fun x hx hcovers => by
      obtain ⟨p, hp⟩ := stopped h.ended hx
      have hbounds := ((h.history.within x hx).stop p hp).2
      simp only [Span.covers, hp, Option.all_some, Bool.and_eq_true, decide_eq_true_eq,
        Array.length_toList] at hcovers hbounds
      omega
    rw [shownAt, List.filter_eq_nil_iff.2 hnone]
    rfl

theorem numbered (h : c.Settled) (pc : Nat) :
    (c.scopes.getD pc []).map (·.1) = List.range (c.scopes.getD pc []).length := by
  rw [Array.getD_eq_getD_getElem?]
  cases hps : c.scopes[pc]? with
  | some ps => exact h.history.placed ps (Array.mem_of_getElem? hps).val
  | none => rfl

theorem local?_name (h : c.Settled) (hd : c.Describes q) (n pc : Nat) :
    (q.local? n pc).map (·.name) = ((c.scopes.getD pc []).find? fun x => x.1 + 1 = n).map
      (·.2) := by
  have hactive : q.activeLocals pc = (c.locals.toList.filter (·.covers pc)).map Span.entry := by
    rw [← entries_shown h.history.nested h.ended, ← Array.toList_map, ← hd.locals]
    rfl
  have hnames : (q.activeLocals pc).map (·.name) = (c.scopes.getD pc []).map (·.2) := by
    rw [hactive, ← h.shownAt_eq, shownAt, List.map_map, List.map_map]
    rfl
  cases n with
  | zero => simp [Prototype.local?, List.find?_eq_none.2]
  | succ n =>
    simp only [Nat.add_right_cancel_iff]
    rw [find?_numbered (h.numbered pc), Prototype.local?, ← List.getElem?_map, hnames,
      List.getElem?_map]

theorem agrees (h : c.Settled) (hd : c.Describes q) : c.Agrees q := by
  obtain ⟨marks, hfinish⟩ := hd.code
  have hcode : c.scopes.size = q.code.size := h.size.trans (JumpList.size_finishLast hfinish).symm
  have hlist : q.locals.toList = c.locals.toList.map Span.entry := by
    rw [hd.locals, Array.toList_map]
  refine ⟨fun x hx => h.history.inRegister x hx.val, fun v hv => ?_, ?_, ?_, hcode,
    fun ps hps => h.history.placed ps hps.val, h.local?_name hd⟩
  · obtain ⟨x, hx, rfl⟩ := Array.mem_map.1 (hd.locals ▸ hv)
    obtain ⟨p, hp⟩ := stopped h.ended hx.val
    obtain ⟨hstart, hend⟩ := (h.history.within x hx.val).stop p hp
    rw [Array.length_toList, hcode] at hend
    rw [Span.entry, hp]
    exact ⟨Int.ofNat_le.2 hstart, Int.ofNat_le.2 hend⟩
  · rw [hlist]
    exact List.pairwise_map.2 (h.history.nested.imp fun h => Int.ofNat_le.2 h.start)
  · rw [hlist]
    refine List.pairwise_map.2 (h.history.nested.imp_of_mem fun {x y} hx _ hxy => ?_)
    obtain ⟨p, hp⟩ := stopped h.ended hx
    simp only [Span.entry, hp, Option.getD_some]
    obtain hle | ⟨r, hr, hle⟩ := hxy.stop p hp
    · exact .inl (Int.ofNat_le.2 hle)
    · exact .inr (by rw [hr]; exact Int.ofNat_le.2 hle)

end Closing.Settled

end Compile

open Compile

/-- In every function of a compiled chunk the debug information of local variables agrees with
registers and scopes. -/
theorem compile_locals {chunk source : Bytes} {p : Prototype} (h : compile chunk source = .ok p) :
    ∀ q ∈ p.walk, ∃ c ∈ (run { chunk } source).closings, c.Describes q ∧ c.Agrees q := by
  have hsound := run_sound (o := { chunk }) rfl (Int.le_refl _) source
  intro q hq
  obtain ⟨c, hc, hd⟩ := hsound.recorded p h q hq
  exact ⟨c, hc, hd, (hsound.closings p h c hc).2.agrees hd⟩

/-- A source with a constant, a global declaration, a loop and a local function. -/
def scopedSource : Bytes :=
  utf8
    "local c <const> = 3; global print; local function f(a) return a + c end; for k in {} do local x = f(k) end"

theorem scopedSource_locals : ∃ p, compile (utf8 "scoped") scopedSource = .ok p ∧
    ∀ q ∈ p.walk, ∃ c ∈ (run { chunk := utf8 "scoped" } scopedSource).closings, c.Describes q ∧
      c.Agrees q := by
  have hok : (compile (utf8 "scoped") scopedSource).toOption.isSome = true := by
    unfold compile run initial Lexer.start
    rw [Interner.reservedIndex_markAll]
    decide +kernel
  obtain ⟨p, hp⟩ := exists_ok hok
  exact ⟨p, hp, compile_locals hp⟩

end LuaChunk
