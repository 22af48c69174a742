import Mathlib.Data.List.Induction
import LuaChunk.Proofs.Compile.Scoping

/-!
The local variables of a function, in the order of their declarations, each with the instructions
that it is shown for. A scope ends when all scopes that began later have ended, so the ranges nest
like a stack; and the variables that are shown at an instruction are those that were in scope when
it was emitted, in the order of their registers.
-/

set_option autoImplicit false

namespace LuaChunk.Compile

open LuaChunk

namespace Span

/-- The register and the name. -/
def place (x : Span) : Nat × Option Bytes := (x.reg, x.name)

def isOpen (x : Span) : Bool := x.stop.isNone

def covers (x : Span) (pc : Nat) : Bool := decide (x.start ≤ pc) && x.stop.all fun stop =>
  decide (pc < stop)

/-- A range and a later one: it ends before the later one begins, or not before that has ended. -/
structure Precedes (x y : Span) : Prop where
  start : x.start ≤ y.start
  stop : ∀ p, x.stop = some p → p ≤ y.start ∨ ∃ q, y.stop = some q ∧ q ≤ p

/-- The range begins and ends within the first `now` instructions, or has not ended. -/
structure Within (now : Nat) (x : Span) : Prop where
  start : x.start ≤ now
  stop : ∀ p, x.stop = some p → x.start ≤ p ∧ p ≤ now

theorem Within.mono {m n : Nat} {x : Span} (h : x.Within m) (hn : m ≤ n) : x.Within n :=
  ⟨Nat.le_trans h.start hn, fun p hp => ⟨(h.stop p hp).1, Nat.le_trans (h.stop p hp).2 hn⟩⟩

theorem Within.covers {now : Nat} {x : Span} (h : x.Within now) : x.covers now = x.isOpen := by
  unfold Span.covers isOpen
  cases hs : x.stop with
  | none => simp [h.start]
  | some p => simp [(h.stop p hs).2]

end Span

/-- The registers and names of the variables that are shown at an instruction. -/
def shownAt (xs : List Span) (pc : Nat) : List (Nat × Option Bytes) :=
  (xs.filter (·.covers pc)).map Span.place

/-- The variables whose scope has not ended: each one's index, register and name. -/
def openIn (xs : List Span) : List (Nat × Nat × Option Bytes) :=
  (xs.zipIdx.filter (·.1.isOpen)).map fun x => (x.2, x.1.place)

section

variable {xs ys : List Span} {x : Span} {now pc : Nat}

theorem shownAt_append : shownAt (xs ++ ys) pc = shownAt xs pc ++ shownAt ys pc := by
  simp [shownAt]

theorem shownAt_push (h : x.stop = none) :
    shownAt (xs ++ [x]) pc = shownAt xs pc ++ if x.start ≤ pc then [x.place] else [] := by
  rw [shownAt_append]
  by_cases hle : x.start ≤ pc <;> simp [shownAt, Span.covers, h, hle]

theorem openIn_push : openIn (xs ++ [x]) = openIn xs ++ if x.isOpen then [(xs.length, x.place)]
    else [] := by
  unfold openIn
  rw [List.zipIdx_append, List.filter_append, List.map_append]
  cases hx : x.isOpen <;> simp [hx]

theorem shownAt_now (h : ∀ x ∈ xs, x.Within now) : shownAt xs now = (openIn xs).map (·.2) := by
  induction xs using List.reverseRecOn with
  | nil => rfl
  | append_singleton xs x ih =>
    rw [shownAt_append, openIn_push, List.map_append, ih fun y hy =>
      h y (List.mem_append_left _ hy)]
    have hx := (h x (by simp)).covers
    cases ho : x.isOpen <;> simp [shownAt, hx, ho]

theorem length_openIn : (openIn xs).length = xs.countP (·.stop.isNone) := by
  induction xs using List.reverseRecOn with
  | nil => rfl
  | append_singleton xs x ih =>
    rw [openIn_push, List.length_append, ih, List.countP_append]
    cases ho : x.isOpen <;> simp only [Span.isOpen] at ho <;> simp [ho]

/-- The newest variable in scope: all that were declared after it have gone out of scope. -/
theorem openIn_last {ps : List (Nat × Nat × Option Bytes)} {i : Nat} {p : Nat × Option Bytes}
    (h : openIn xs = ps ++ [(i, p)]) :
    ∃ older x newer, xs = older ++ x :: newer ∧ older.length = i ∧ x.stop = none ∧ x.place = p ∧
      (∀ y ∈ newer, y.isOpen = false) ∧ openIn older = ps := by
  induction xs using List.reverseRecOn with
  | nil => simp [openIn] at h
  | append_singleton xs x ih =>
    rw [openIn_push] at h
    cases ho : x.isOpen with
    | true =>
      rw [ho, if_pos rfl] at h
      obtain ⟨rfl, hx⟩ := List.append_inj' h rfl
      cases hx
      exact ⟨xs, x, [], rfl, rfl, Option.isNone_iff_eq_none.1 ho, rfl, by simp, rfl⟩
    | false =>
      rw [ho] at h
      obtain ⟨older, z, newer, rfl, hi, hz, hp, hn, hps⟩ := ih (by simpa using h)
      refine ⟨older, z, newer ++ [x], by simp, hi, hz, hp, fun y hy => ?_, hps⟩
      rcases List.mem_append.1 hy with hy | hy
      · exact hn y hy
      · rw [List.mem_singleton.1 hy, ho]

theorem openIn_closed (h : ∀ y ∈ ys, y.isOpen = false) : openIn (xs ++ ys) = openIn xs := by
  induction ys using List.reverseRecOn with
  | nil => rw [List.append_nil]
  | append_singleton ys y ih =>
    rw [← List.append_assoc, openIn_push, h y (by simp), ih fun z hz =>
      h z (List.mem_append_left _ hz)]
    exact List.append_nil _

end

/-- What holds of the ranges of a function's variables when it has `now` instructions, of which each
was emitted with the given variables in scope. -/
structure History (xs : List Span) (scopes : List (List (Nat × Option Bytes))) : Prop where
  within : ∀ x ∈ xs, x.Within scopes.length
  nested : xs.Pairwise Span.Precedes
  inRegister : ∀ x ∈ xs, x.kind.inRegister = true ∧ x.reg = x.before
  shown : ∀ (pc : Nat) (ps : List (Nat × Option Bytes)), scopes[pc]? = some ps → shownAt xs pc = ps
  placed : ∀ ps ∈ scopes, ps.map (·.1) = List.range ps.length

namespace History

variable {xs older newer : List Span} {x : Span} {scopes : List (List (Nat × Option Bytes))}
  {pc : Nat}

theorem empty : History [] [] where
  within _ h := nomatch h
  nested := .nil
  inRegister _ h := nomatch h
  shown _ _ h := nomatch h
  placed _ h := nomatch h

theorem emit (h : History xs scopes)
    (hp : ((openIn xs).map (·.2.1)) = List.range (openIn xs).length) :
    History xs (scopes ++ [(openIn xs).map (·.2)]) where
  within x hx := (h.within x hx).mono (by simp)
  nested := h.nested
  inRegister := h.inRegister
  shown pc ps hps := by
    rcases Nat.lt_trichotomy pc scopes.length with hlt | rfl | hgt
    · rw [List.getElem?_append_left hlt] at hps
      exact h.shown pc ps hps
    · rw [List.getElem?_append_right (Nat.le_refl _), Nat.sub_self] at hps
      cases hps
      exact shownAt_now h.within
    · rw [List.getElem?_eq_none (by simp; omega)] at hps
      cases hps
  placed ps hps := by
    rcases List.mem_append.1 hps with hps | hps
    · exact h.placed ps hps
    · rw [List.mem_singleton.1 hps, List.length_map, ← hp, List.map_map]
      rfl

theorem dropLast (h : History xs scopes) (hq : ∀ x ∈ xs, x.Within (scopes.length - 1)) :
    History xs scopes.dropLast where
  within x hx := by
    rw [List.length_dropLast]
    exact hq x hx
  nested := h.nested
  inRegister := h.inRegister
  shown pc ps hps := by
    rw [List.getElem?_dropLast] at hps
    split at hps
    · exact h.shown pc ps hps
    · cases hps
  placed ps hps := h.placed ps (List.dropLast_subset _ hps)

theorem push (h : History xs scopes) (hs : x.start = scopes.length) (ho : x.stop = none)
    (hk : x.kind.inRegister = true)
    (hr : x.reg = x.before) : History (xs ++ [x]) scopes where
  within y hy := by
    rcases List.mem_append.1 hy with hy | hy
    · exact h.within y hy
    · rw [List.mem_singleton.1 hy]
      exact ⟨Nat.le_of_eq hs, fun p hp => by rw [ho] at hp; cases hp⟩
  nested := by
    refine List.pairwise_append.2 ⟨h.nested, List.pairwise_singleton .., fun y hy z hz => ?_⟩
    cases List.mem_singleton.1 hz
    have hw := h.within y hy
    exact ⟨hs ▸ hw.start, fun p hp => .inl (hs ▸ (hw.stop p hp).2)⟩
  inRegister y hy := by
    rcases List.mem_append.1 hy with hy | hy
    · exact h.inRegister y hy
    · rw [List.mem_singleton.1 hy]
      exact ⟨hk, hr⟩
  shown pc ps hps := by
    have hlt := (List.getElem?_eq_some_iff.1 hps).1
    rw [shownAt_push ho, h.shown pc ps hps, if_neg (by omega), List.append_nil]
  placed := h.placed

theorem close (h : History (older ++ x :: newer) scopes) (hx : x.stop = none)
    (hn : ∀ y ∈ newer, y.isOpen = false) :
    History (older ++ { x with stop := some scopes.length } :: newer) scopes := by
  obtain ⟨hw, hnest, hreg, hshown, hplaced⟩ := h
  obtain ⟨h₁, h₂, h₃⟩ := List.pairwise_append.1 hnest
  obtain ⟨hx₂, h₂⟩ := List.pairwise_cons.1 h₂
  rw [List.forall_mem_append, List.forall_mem_cons] at hw hreg
  refine ⟨?_, ?_, ?_, fun pc ps hps => ?_, hplaced⟩
  · rw [List.forall_mem_append, List.forall_mem_cons]
    refine ⟨hw.1, ⟨hw.2.1.start, ?_⟩, hw.2.2⟩
    rintro _ ⟨⟩
    exact ⟨hw.2.1.start, Nat.le_refl _⟩
  · refine List.pairwise_append.2
      ⟨h₁, List.pairwise_cons.2 ⟨fun y hy => ⟨(hx₂ y hy).start, ?_⟩, h₂⟩, ?_⟩
    · -- what was declared later has ended already
      rintro _ ⟨⟩
      obtain ⟨q, hq⟩ := Option.ne_none_iff_exists'.1
        (Option.isNone_eq_false_iff.1 (hn y hy) |> Option.ne_none_iff_isSome.2)
      exact .inr ⟨q, hq, ((hw.2.2 y hy).stop q hq).2⟩
    · intro y hy z hz
      rcases List.mem_cons.1 hz with rfl | hz
      · have hyx := h₃ y hy x (List.mem_cons_self ..)
        refine ⟨hyx.start, fun p hp => ?_⟩
        obtain hle | ⟨q, hq, -⟩ := hyx.stop p hp
        · exact .inl hle
        · rw [hx] at hq
          cases hq
      · exact h₃ y hy z (List.mem_cons_of_mem _ hz)
  · rw [List.forall_mem_append, List.forall_mem_cons]
    exact hreg
  · have hlt := (List.getElem?_eq_some_iff.1 hps).1
    have hcov : Span.covers { x with stop := some scopes.length } pc = x.covers pc := by
      simp [Span.covers, hx, hlt]
    rw [← hshown pc ps hps]
    simp only [shownAt, List.filter_append, List.filter_cons, hcov, List.map_append]
    split <;> rfl

/-- The newest scope is made to begin after the last instruction, the first one within it. -/
theorem delay {ps : List (Nat × Option Bytes)} (h : History (older ++ [x]) (scopes ++ [ps]))
    (hx : x.stop = none) (hs : x.start = scopes.length) :
    History (older ++ [{ x with start := scopes.length + 1 }]) (scopes ++ [ps.dropLast]) := by
  obtain ⟨hw, hnest, hreg, hshown, hplaced⟩ := h
  obtain ⟨h₁, -, h₃⟩ := List.pairwise_append.1 hnest
  have hlen : (scopes ++ [ps]).length = scopes.length + 1 := by simp
  rw [List.forall_mem_append, List.forall_mem_singleton, hlen] at hw
  rw [List.forall_mem_append, List.forall_mem_singleton] at hreg
  refine ⟨?_, ?_, ?_, fun pc qs hqs => ?_, fun qs hqs => ?_⟩
  · rw [List.forall_mem_append, List.forall_mem_singleton, List.length_append]
    refine ⟨hw.1, Nat.le_refl _, fun p hp => ?_⟩
    rw [hx] at hp
    cases hp
  · refine List.pairwise_append.2 ⟨h₁, List.pairwise_singleton .., fun y hy z hz => ?_⟩
    cases List.mem_singleton.1 hz
    exact ⟨(hw.1 y hy).start, fun p hp => .inl ((hw.1 y hy).stop p hp).2⟩
  · rw [List.forall_mem_append, List.forall_mem_singleton]
    exact hreg
  · rw [shownAt_push (show Span.stop { x with start := scopes.length + 1 } = none from hx)]
    rcases Nat.lt_trichotomy pc scopes.length with hlt | rfl | hgt
    · rw [List.getElem?_append_left hlt] at hqs
      have hold := hshown pc qs (by rw [List.getElem?_append_left hlt, hqs])
      rw [shownAt_push hx, if_neg (by omega)] at hold
      rw [← hold, if_neg (by dsimp only; omega)]
    · have hold := hshown scopes.length ps (by simp)
      rw [shownAt_push hx, if_pos (by omega)] at hold
      rw [List.getElem?_append_right (Nat.le_refl _), Nat.sub_self] at hqs
      cases hqs
      rw [← hold, List.dropLast_concat, if_neg (by dsimp only; omega), List.append_nil]
    · rw [List.getElem?_eq_none (by simp; omega)] at hqs
      cases hqs
  · rcases List.mem_append.1 hqs with hqs | hqs
    · exact hplaced qs (List.mem_append_left _ hqs)
    · rw [List.mem_singleton.1 hqs, List.map_dropLast, hplaced ps (by simp), List.length_dropLast,
        List.dropLast_eq_take,
        List.length_range, List.take_range, Nat.min_eq_left (Nat.sub_le ..)]

end History

/-- The variables in registers among the first `n` declarations of a function: each one's index in
the debug information, register and name. -/
def localsOf (vars : Array Variable) (firstVar : Nat) : Nat → List (Nat × Nat × Option Bytes)
  | 0 => []
  | n + 1 =>
    match vars[firstVar + n]? with
    | some v =>
      if v.kind.inRegister then localsOf vars firstVar n ++ [(v.debug, v.reg, v.name)]
        else localsOf vars firstVar n
    | none => localsOf vars firstVar n

/-- What is recorded of the variables of a function under construction, with what it depends on. -/
structure LocalView where
  firstVar : Nat
  active : Nat
  locals : Array Span
  scopes : Array (List (Nat × Option Bytes))
  size : Nat

def Builder.localView (f : Builder) : LocalView :=
  ⟨f.firstVar, f.active, f.locals, f.scopes, f.code.size⟩

/-- The active variables in registers are those whose scope has not ended, and what is recorded is
the history of the instructions. -/
structure Tracked (vars : Array Variable) (f : LocalView) : Prop where
  history : History f.locals.toList f.scopes.toList
  size : f.scopes.size = f.size
  opened : openIn f.locals.toList = localsOf vars f.firstVar f.active

section

variable {vars vars' : Array Variable} {firstVar active numLocals n : Nat} {f : LocalView}

theorem localsOf_succ {v : Variable} (hv : vars[firstVar + n]? = some v) :
    localsOf vars firstVar (n + 1)
      = if v.kind.inRegister then localsOf vars firstVar n ++ [(v.debug, v.reg, v.name)]
        else localsOf vars firstVar n := by
  simp [localsOf, hv]

theorem localsOf_congr (h : ∀ k < n, vars'[firstVar + k]? = vars[firstVar + k]?) :
    localsOf vars' firstVar n = localsOf vars firstVar n := by
  induction n with
  | zero => rfl
  | succ n ih =>
    simp only [localsOf, h n (Nat.lt_succ_self n), ih fun k hk => h k (Nat.lt_succ_of_lt hk)]

theorem placesOf_eq : placesOf vars firstVar n = (localsOf vars firstVar n).map (·.2) := by
  induction n with
  | zero => rfl
  | succ n ih =>
    simp only [placesOf, localsOf, ih]
    cases vars[firstVar + n]? with
    | none => rfl
    | some v => cases hr : v.kind.inRegister <;> simp [hr]

theorem Placed.registers (h : Placed vars firstVar active numLocals) (hn : n ≤ active) :
    (localsOf vars firstVar n).map (·.2.1) = List.range (levelOf vars firstVar n) := by
  induction n with
  | zero => rfl
  | succ n ih =>
    obtain ⟨v, hv⟩ := h.exists_var hn
    rw [localsOf_succ hv]
    split
    · rename_i hr
      obtain ⟨h₁, h₂⟩ := h.level_succ hn hv hr
      rw [List.map_append, ih (by omega), h₁, h₂, List.range_succ]
      rfl
    · rename_i hr
      rw [ih (by omega), levelOf, levelOf, registersOf_succ hv, if_neg hr]

theorem Placed.length_localsOf (h : Placed vars firstVar active numLocals) (hn : n ≤ active) :
    (localsOf vars firstVar n).length = levelOf vars firstVar n := by
  rw [← List.length_map (f := (·.2.1)), h.registers hn, List.length_range]

theorem modify_middle {α : Type} (change : α → α) (xs ys : List α) (x : α) :
    (xs ++ x :: ys).modify xs.length change = xs ++ change x :: ys := by
  rw [List.modify_eq_take_drop, List.take_left, List.drop_left]
  rfl

namespace Tracked

theorem empty (firstVar : Nat) : Tracked vars ⟨firstVar, 0, #[], #[], 0⟩ := ⟨.empty, rfl, rfl⟩

theorem congr (h : Tracked vars f)
    (hv : ∀ k < f.active, vars'[f.firstVar + k]? = vars[f.firstVar + k]?) :
    Tracked vars' f :=
  ⟨h.history, h.size, h.opened.trans (localsOf_congr hv).symm⟩

theorem emit (h : Tracked vars f) (hp : Placed vars f.firstVar f.active numLocals)
    (hn : n = f.size + 1) :
    Tracked vars { f with scopes := f.scopes.push (placesOf vars f.firstVar f.active), size := n }
      where
  history := by
    rw [placesOf_eq, ← h.opened, Array.toList_push]
    refine h.history.emit ?_
    rw [h.opened, hp.registers (Nat.le_refl _), hp.length_localsOf (Nat.le_refl _)]
  size := by simp [h.size, hn]
  opened := h.opened

theorem recode (h : Tracked vars f) (hn : n = f.size) : Tracked vars { f with size := n } :=
  ⟨h.history, h.size.trans hn.symm, h.opened⟩

theorem dropLast (h : Tracked vars f) (hn : n + 1 = f.size) (hq : ∀ x ∈ f.locals, x.Within n) :
    Tracked vars { f with scopes := f.scopes.pop, size := n } where
  history := by
    rw [Array.toList_pop]
    refine h.history.dropLast fun x hx => ?_
    rw [Array.length_toList, h.size, ← hn]
    exact hq x (Array.mem_toList_iff.1 hx)
  size := by simp [h.size, ← hn]
  opened := h.opened

theorem activate {v : Variable} (h : Tracked vars f)
    (hp : Placed vars f.firstVar f.active numLocals)
    (hv : vars[f.firstVar + f.active]? = some v) (hr : v.kind.inRegister = true) :
    Tracked
      (vars.modify (f.firstVar + f.active) fun v =>
        { v with reg := levelOf vars f.firstVar f.active, debug := f.locals.size })
      { f with
        active := f.active + 1
        locals :=
          f.locals.push ⟨v.name, v.kind, levelOf vars f.firstVar f.active,
            f.locals.countP (·.stop.isNone),
          f.size, none⟩ } where
  history := by
    rw [Array.toList_push]
    refine h.history.push (by simp [h.size]) rfl hr ?_
    rw [← Array.countP_toList, ← length_openIn, h.opened, hp.length_localsOf (Nat.le_refl _)]
  size := h.size
  opened := by
    have hnew : (vars.modify (f.firstVar + f.active) fun v =>
        { v with reg := levelOf vars f.firstVar f.active, debug := f.locals.size })[f.firstVar +
          f.active]?
        = some { v with reg := levelOf vars f.firstVar f.active, debug := f.locals.size } := by
      rw [Array.getElem?_modify, if_pos rfl, hv]
      rfl
    have hold : ∀ k < f.active, (vars.modify (f.firstVar + f.active) fun v =>
        { v with reg := levelOf vars f.firstVar f.active, debug := f.locals.size })[f.firstVar + k]?
        = vars[f.firstVar + k]? := by
      intro k hk
      rw [Array.getElem?_modify, if_neg (by omega)]
    rw [Array.toList_push, openIn_push, localsOf_succ hnew, if_pos hr, h.opened,
      localsOf_congr hold]
    rfl

theorem skip {v : Variable} (h : Tracked vars f) (hv : vars[f.firstVar + f.active]? = some v)
    (hr : v.kind.inRegister = false) : Tracked vars { f with active := f.active + 1 } :=
  ⟨h.history, h.size, by rw [h.opened, localsOf_succ hv, hr]; rfl⟩

theorem extend (h : Tracked vars f)
    (hd : ∀ k < n, ∃ v, vars[f.firstVar + f.active + k]? = some v ∧ v.kind.inRegister = false) :
    Tracked vars { f with active := f.active + n } := by
  induction n with
  | zero => exact h
  | succ n ih =>
    obtain ⟨v, hv, hr⟩ := hd n (Nat.lt_succ_self n)
    rw [Nat.add_assoc] at hv
    exact (ih fun k hk => hd k (Nat.lt_succ_of_lt hk)).skip hv hr

theorem unskip {v : Variable} (h : Tracked vars f) (ha : n + 1 = f.active)
    (hv : vars[f.firstVar + n]? = some v)
    (hr : v.kind.inRegister = false) : Tracked vars { f with active := n } :=
  ⟨h.history, h.size, by rw [h.opened, ← ha, localsOf_succ hv, hr]; rfl⟩

theorem close {v : Variable} (h : Tracked vars f) (ha : n + 1 = f.active)
    (hv : vars[f.firstVar + n]? = some v)
    (hr : v.kind.inRegister = true) :
    Tracked vars { f with
      active := n
      locals := f.locals.modify v.debug fun x => { x with stop := some f.size } } := by
  have ho := h.opened
  rw [← ha, localsOf_succ hv, if_pos hr] at ho
  obtain ⟨older, x, newer, hxs, hi, hx, -, hn, hps⟩ := openIn_last ho
  have hlocals : (f.locals.modify v.debug fun x => { x with stop := some f.size }).toList
      = older ++ { x with stop := some f.size } :: newer := by
    rw [Array.toList_modify, hxs, ← hi, modify_middle]
  have hh := h.history
  rw [hxs] at hh
  refine ⟨?_, h.size, ?_⟩
  · rw [hlocals, ← h.size, ← Array.length_toList]
    exact hh.close hx hn
  · rw [hlocals, ← List.singleton_append, ← List.append_assoc, openIn_closed hn, openIn_push]
    simpa [Span.isOpen] using hps

/-- The newest variable is made to be shown only after the last instruction, the first one in its
scope. -/
theorem delay {older : List Span} {x : Span} {v : Variable} (h : Tracked vars f)
    (ha : n + 1 = f.active)
    (hv : vars[f.firstVar + n]? = some v) (hr : v.kind.inRegister = true)
    (hl : f.locals.toList = older ++ [x])
    (hx : x.stop = none) (hs : x.start + 1 = f.size) :
    Tracked vars { f with
      locals := f.locals.modify v.debug fun x => { x with start := f.size }
      scopes := f.scopes.modify (f.size - 1) List.dropLast } := by
  have hdebug : v.debug = older.length := by
    have ho := h.opened
    rw [← ha, localsOf_succ hv, if_pos hr, hl, openIn_push, if_pos (by rw [Span.isOpen, hx]; rfl)]
      at ho
    exact (congrArg Prod.fst (List.cons.inj (List.append_inj' ho rfl).2).1).symm
  rw [hdebug]
  have hlocals : (f.locals.modify older.length fun x => { x with start := f.size }).toList
      = older ++ [{ x with start := f.size }] := by
    rw [Array.toList_modify, hl, modify_middle]
  have hlen : f.scopes.toList.length = x.start + 1 := by rw [Array.length_toList, h.size, hs]
  have hh := h.history
  rw [hl] at hh
  obtain ⟨scopes, ps, hps⟩ : ∃ scopes ps, f.scopes.toList = scopes ++ [ps] := by
    obtain he | ⟨scopes, ps, he⟩ := List.eq_nil_or_concat f.scopes.toList
    · rw [he] at hlen
      cases hlen
    · exact ⟨scopes, ps, by rw [he, List.concat_eq_append]⟩
  rw [hps, List.length_append, List.length_singleton, Nat.add_right_cancel_iff] at hlen
  refine ⟨?_, by rw [Array.size_modify]; exact h.size, ?_⟩
  · rw [hlocals, Array.toList_modify, hps, ← hs, Nat.add_sub_cancel, ← hlen, modify_middle]
    exact (hps ▸ hh).delay hx hlen.symm
  · rw [hlocals, ← h.opened, hl, openIn_push, openIn_push]
    rfl

end Tracked

end

end LuaChunk.Compile
