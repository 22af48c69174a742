import LuaChunk.Proofs.Compile.Scoping
import LuaChunk.Proofs.Code.Refers

/-!
Upvalues: those of a function and of the functions around it fit to the declarations that they
capture. An entry is kept by its name, and while a function is under construction no declaration
around it changes, so the entry stays what the name means there.
-/

set_option autoImplicit false

namespace LuaChunk.Compile

open LuaChunk

section

variable {vars vars' : Array Variable} {p : Variable → Bool} {first n place : Nat}

theorem newest?_congr (h : ∀ k < n, vars'[first + k]? = vars[first + k]?) :
    newest? vars' p first n = newest? vars p first n := by
  induction n with
  | zero => rfl
  | succ n ih =>
    simp only [newest?, h n (Nat.lt_succ_self n), ih fun k hk => h k (Nat.lt_succ_of_lt hk)]

theorem newest?_eq_some (h : newest? vars p first n = some place) :
    ∃ k v, k < n ∧ place = first + k ∧ vars[first + k]? = some v ∧ p v = true := by
  induction n with
  | zero => cases h
  | succ n ih =>
    unfold newest? at h
    split at h
    · rename_i v hv
      split at h
      · rename_i hp
        cases h
        exact ⟨n, v, Nat.lt_succ_self n, rfl, hv, hp⟩
      · obtain ⟨k, v, hk, hrest⟩ := ih h
        exact ⟨k, v, by omega, hrest⟩
    · obtain ⟨k, v, hk, hrest⟩ := ih h
      exact ⟨k, v, by omega, hrest⟩

end

/-- The declarations of functions within each other, innermost first, are within the first `n`. -/
def Within : Nat → List FnSite → Prop
  | _, [] => True
  | n, f :: rest => f.firstVar + f.active ≤ n ∧ Within f.firstVar rest

theorem Enclosed.within {n : Nat} {fs : List Builder} (h : Enclosed n fs) :
    Within n (fs.map Builder.site) := by
  induction fs generalizing n with
  | nil => trivial
  | cons f rest ih => exact ⟨h.1, ih h.2.2.2.2⟩

section

variable {vars vars' : Array Variable} {p : Variable → Bool} {n : Nat} {fns : List FnSite}

theorem innermost?_congr (hw : Within n fns) (h : ∀ k < n, vars'[k]? = vars[k]?) :
    innermost? vars' p fns = innermost? vars p fns := by
  induction fns generalizing n with
  | nil => rfl
  | cons f rest ih =>
    obtain ⟨h₁, h₂⟩ := hw
    have hf : newest? vars' p f.firstVar f.active = newest? vars p f.firstVar f.active :=
      newest?_congr fun k hk => h _ (by omega)
    simp only [innermost?, hf, ih h₂ fun k hk => h k (by omega)]

theorem innermost?_lt {depth place : Nat} (hw : Within n fns)
    (h : innermost? vars p fns = some (depth, place)) :
    place < n ∧ ∃ v, vars[place]? = some v ∧ p v = true := by
  induction fns generalizing n depth with
  | nil => cases h
  | cons f rest ih =>
    obtain ⟨h₁, h₂⟩ := hw
    unfold innermost? at h
    split at h
    · rename_i place' hf
      cases h
      obtain ⟨k, v, hk, rfl, hv, hp⟩ := newest?_eq_some hf
      exact ⟨by omega, v, hv, hp⟩
    · split at h
      · rename_i hi
        cases h
        obtain ⟨hlt, hv⟩ := ih h₂ hi
        exact ⟨by omega, hv⟩
      · cases h

theorem innermost?_here {f : FnSite} {place : Nat}
    (h : newest? vars p f.firstVar f.active = some place) :
    innermost? vars p (f :: fns) = some (0, place) := by
  simp only [innermost?, h]

theorem innermost?_outward {f : FnSite} (fns : List FnSite)
    (h : newest? vars p f.firstVar f.active = none) :
    innermost? vars p (f :: fns)
      = (innermost? vars p fns).map fun (depth, place) => (depth + 1, place) := by
  simp only [innermost?, h]
  split
  · rename_i hi
    simp [hi]
  · rename_i hi
    simp [hi]

theorem innermost?_zero {f : FnSite} {place : Nat}
    (h : innermost? vars p (f :: fns) = some (0, place)) :
    ∃ k v, k < f.active ∧ place = f.firstVar + k ∧ vars[f.firstVar + k]? = some v ∧ p v = true := by
  cases hnew : newest? vars p f.firstVar f.active with
  | some place' =>
    rw [innermost?_here hnew] at h
    cases h
    exact newest?_eq_some hnew
  | none =>
    rw [innermost?_outward _ hnew] at h
    obtain ⟨⟨d, q⟩, -, he⟩ := Option.map_eq_some_iff.1 h
    cases he

theorem innermost?_rest {f : FnSite} {depth place : Nat}
    (h : innermost? vars p (f :: fns) = some (depth + 1, place)) :
    innermost? vars p fns = some (depth, place) := by
  cases hnew : newest? vars p f.firstVar f.active with
  | some place' =>
    rw [innermost?_here hnew] at h
    cases h
  | none =>
    rw [innermost?_outward _ hnew] at h
    obtain ⟨⟨d, q⟩, hq, he⟩ := Option.map_eq_some_iff.1 h
    cases he
    exact hq

theorem innermost?_rest_none {f : FnSite} (h : innermost? vars p (f :: fns) = none) :
    innermost? vars p fns = none := by
  cases hnew : newest? vars p f.firstVar f.active with
  | some place =>
    rw [innermost?_here hnew] at h
    cases h
  | none =>
    rw [innermost?_outward _ hnew] at h
    exact Option.map_eq_none_iff.1 h

end

/-- An entry of a function with the functions `rest` around it: it is named for the variable that it
captures, which is in a register of the next function or is an upvalue of it. -/
def Captures (vars : Array Variable) (rest : List FnSite) (i : Nat) (u : Upvalue) : Prop :=
  ∃ name, u.name = some name ∧
    match rest, innermost? vars (Variable.declares name) rest with
    | [], _ => i = 0 ∧ name = envName ∧ u.kind = VarKind.regular.number
    | g :: _, some (depth, place) => ∃ v, vars[place]? = some v ∧ v.kind.inRegister = true ∧
        u.kind = v.kind.number ∧
        if depth = 0 then u.inStack = true ∧ u.index = v.reg
        else u.inStack = false ∧
          ∃ (j : Nat) (w : Upvalue), u.index = j ∧ g.upvalues[j]? = some w ∧ w.name = some name
    | g :: _, none => name = envName ∧ u.kind = VarKind.regular.number ∧ u.inStack = false ∧
        ∃ (j : Nat) (w : Upvalue), u.index = j ∧ g.upvalues[j]? = some w ∧ w.name = some name

structure Entries (vars : Array Variable) (f : FnSite) (rest : List FnSite) : Prop where
  captures : ∀ (i : Nat) (u : Upvalue), f.upvalues[i]? = some u → Captures vars rest i u
  distinct : ∀ (i j : Nat) (u w : Upvalue), f.upvalues[i]? = some u → f.upvalues[j]? = some w →
    u.name = w.name → i = j

/-- The upvalues of functions within each other fit to the declarations around them. -/
def Linked (vars : Array Variable) : List FnSite → Prop
  | [] => True
  | f :: rest => Entries vars f rest ∧
    (∀ g, rest.head? = some g → ∃ n, Placed vars g.firstVar g.active n) ∧ Linked vars rest

section

variable {vars vars' : Array Variable} {n : Nat} {f f' : FnSite} {rest : List FnSite}

theorem Captures.congr {i : Nat} {u : Upvalue} (hw : Within n rest)
    (h : ∀ k < n, vars'[k]? = vars[k]?) (hc : Captures vars rest i u) : Captures vars' rest i
    u := by
  obtain ⟨name, hn, hm⟩ := hc
  refine ⟨name, hn, ?_⟩
  rw [innermost?_congr hw h]
  cases rest with
  | nil => exact hm
  | cons g tail =>
    cases hi : innermost? vars (Variable.declares name) (g :: tail) with
    | none =>
      rw [hi] at hm
      exact hm
    | some dp =>
      obtain ⟨depth, place⟩ := dp
      rw [hi] at hm
      obtain ⟨v, hv, hrest⟩ := hm
      exact ⟨v, by rw [h place (innermost?_lt hw hi).1, hv], hrest⟩

theorem Placed.congr {firstVar active numLocals : Nat} (h : Placed vars firstVar active numLocals)
    (hn : firstVar + active ≤ n) (hs : n ≤ vars'.size) (hv : ∀ k < n, vars'[k]? = vars[k]?) :
    Placed vars' firstVar active numLocals :=
  h.shorten (Nat.le_refl _) (by omega) fun k hk => hv _ (by omega)

theorem Linked.congr (h : Linked vars (f :: rest)) (hw : Within n rest) (hs : n ≤ vars'.size)
    (hv : ∀ k < n, vars'[k]? = vars[k]?) (hu : f'.upvalues = f.upvalues) :
    Linked vars' (f' :: rest) := by
  induction rest generalizing n f f' with
  | nil =>
    refine ⟨⟨fun i u hi => ?_, fun i j u w hi hj => ?_⟩, (fun g hg => nomatch hg), trivial⟩
    · exact (h.1.captures i u (by rw [← hu, hi])).congr hw hv
    · exact h.1.distinct i j u w (by rw [← hu, hi]) (by rw [← hu, hj])
  | cons g tail ih =>
    refine ⟨⟨fun i u hi => ?_, fun i j u w hi hj => ?_⟩, fun g' hg => ?_, ?_⟩
    · exact (h.1.captures i u (by rw [← hu, hi])).congr hw hv
    · exact h.1.distinct i j u w (by rw [← hu, hi]) (by rw [← hu, hj])
    · cases hg
      obtain ⟨m, hm⟩ := h.2.1 g rfl
      exact ⟨m, hm.congr hw.1 hs hv⟩
    · exact ih h.2.2 hw.2 (by have := hw.1; omega) (fun k hk => hv k (by have := hw.1; omega)) rfl

end

/-- An entry of a nested function leads to a register or to an entry of the enclosing one. -/
theorem Captures.within {vars : Array Variable} {g : FnSite} {rest : List FnSite}
    {i n maxStack : Nat} {u : Upvalue}
    (h : Captures vars (g :: rest) i u) (hp : Placed vars g.firstVar g.active n)
    (hm : levelOf vars g.firstVar g.active ≤ maxStack) : u.Within maxStack g.upvalues.size := by
  have hentry : ∀ {j : Nat} {w : Upvalue}, u.inStack = false → u.index = j →
      g.upvalues[j]? = some w →
      u.Within maxStack g.upvalues.size := by
    intro j w hs hx hj
    have hlt := (Array.getElem?_eq_some_iff.1 hj).1
    rw [Upvalue.Within, hx, hs]
    exact ⟨Int.natCast_nonneg j, Int.ofNat_lt.2 hlt⟩
  obtain ⟨name, -, hc⟩ := h
  cases hi : innermost? vars (Variable.declares name) (g :: rest) with
  | none =>
    rw [hi] at hc
    obtain ⟨-, -, hs, j, w, hx, hj, -⟩ := hc
    exact hentry hs hx hj
  | some dp =>
    obtain ⟨depth, place⟩ := dp
    rw [hi] at hc
    obtain ⟨v, hv, hr, -, hc⟩ := hc
    cases depth with
    | zero =>
      obtain ⟨hs, hx⟩ := hc
      obtain ⟨k, v', hk, rfl, hv', -⟩ := innermost?_zero hi
      obtain rfl : v = v' := Option.some.inj (hv.symm.trans hv')
      have hlt := hp.reg_lt hk hv hr
      rw [Upvalue.Within, hx, hs]
      exact ⟨Int.natCast_nonneg _, Int.ofNat_lt.2 (Nat.lt_of_lt_of_le hlt hm)⟩
    | succ depth =>
      obtain ⟨hs, j, w, hx, hj, -⟩ := hc
      exact hentry hs hx hj

theorem VarKind.register_of {k : VarKind} (h : k.inRegister = true) :
    k.isGlobal = false ∧ k ≠ .compileTime := by
  cases k <;> simp_all [VarKind.inRegister, VarKind.isGlobal]

theorem Linked.leadsTo {vars : Array Variable} {name : Bytes} {v : Variable} {place : Nat}
    (hv : vars[place]? = some v) (depth : Nat) {f : FnSite} {rest : List FnSite} {i : Nat}
    {u : Upvalue}
    (h : Linked vars (f :: rest)) (hu : f.upvalues[i]? = some u) (hn : u.name = some name)
    (hi : innermost? vars (Variable.declares name) rest = some (depth, place)) :
    leadsTo v.reg v.kind.number (depth + 1) (f :: rest) i = true ∧ u.kind = v.kind.number := by
  induction depth generalizing f rest i u with
  | zero =>
    obtain ⟨name', hn', hm⟩ := h.1.captures i u hu
    obtain rfl : name = name' := Option.some.inj (hn.symm.trans hn')
    cases rest with
    | nil => cases hi
    | cons g tail =>
      rw [hi] at hm
      obtain ⟨v', hv', -, hk, hs, hx⟩ := hm
      obtain rfl : v = v' := Option.some.inj (hv.symm.trans hv')
      exact ⟨by simp [Compile.leadsTo, hu, hk, hs, hx], hk⟩
  | succ depth ih =>
    obtain ⟨name', hn', hm⟩ := h.1.captures i u hu
    obtain rfl : name = name' := Option.some.inj (hn.symm.trans hn')
    cases rest with
    | nil => cases hi
    | cons g tail =>
      rw [hi] at hm
      obtain ⟨v', hv', -, hk, hs, j, w, hx, hj, hw⟩ := hm
      obtain rfl : v = v' := Option.some.inj (hv.symm.trans hv')
      have := (ih h.2.2 hj hw (innermost?_rest hi)).1
      exact ⟨by rw [Compile.leadsTo]; simp [hu, hk, hs, hx, this], hk⟩

theorem Linked.leadsToEnv {vars : Array Variable} {f : FnSite} {rest : List FnSite} {i : Nat}
    {u : Upvalue} (h : Linked vars (f :: rest)) (hu : f.upvalues[i]? = some u)
    (hn : u.name = some envName) (hi : innermost? vars (Variable.declares envName) rest = none) :
    leadsToEnv (f :: rest) i = true ∧ u.kind = VarKind.regular.number := by
  induction rest generalizing f i u with
  | nil =>
    obtain ⟨name, -, hm⟩ := h.1.captures i u hu
    obtain ⟨rfl, -, hk⟩ := hm
    exact ⟨by simp [Compile.leadsToEnv, hu, hn], hk⟩
  | cons g tail ih =>
    obtain ⟨name', hn', hm⟩ := h.1.captures i u hu
    obtain rfl : envName = name' := Option.some.inj (hn.symm.trans hn')
    rw [hi] at hm
    obtain ⟨-, hk, hs, j, w, hx, hj, hw⟩ := hm
    have := (ih h.2.2 hj hw (innermost?_rest_none hi)).1
    exact ⟨by simp [Compile.leadsToEnv, hu, hk, hs, hx, this], hk⟩

end LuaChunk.Compile
