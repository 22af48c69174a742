import LuaChunk.Compile.Goto
import LuaChunk.Proofs.Code.Sound

/-!
Scopes: what the declarations, labels and gotos of the function under construction say, and how they
fit to its open blocks. Labels are positions that jumps may be sent to, and gotos are jumps that
wait: both are pending as long as they are listed.
-/

set_option autoImplicit false

namespace LuaChunk.Compile

open LuaChunk

section

variable {vars vars' : Array Variable} {firstVar active numLocals m n : Nat}

/-- The number of registers that the first `n` declarations of a function take. -/
def levelOf (vars : Array Variable) (firstVar n : Nat) : Nat := (registersOf vars firstVar n).getD 0

/-- The active declarations of a function are there, and those in registers have the registers in
their order. -/
structure Placed (vars : Array Variable) (firstVar active numLocals : Nat) : Prop where
  range : firstVar + active ≤ vars.size
  reg : ∀ k v, k < active → vars[firstVar + k]? = some v → v.kind.inRegister = true →
    registersOf vars firstVar k = some v.reg ∧ v.debug < numLocals ∧ v.reg < maxLocals

theorem registersOf_succ {v : Variable} (hv : vars[firstVar + n]? = some v) :
    registersOf vars firstVar (n + 1)
      = if v.kind.inRegister then some (v.reg + 1) else registersOf vars firstVar n := by
  simp [registersOf, hv]

theorem registersOf_congr (h : ∀ k < n, vars'[firstVar + k]? = vars[firstVar + k]?) :
    registersOf vars' firstVar n = registersOf vars firstVar n := by
  induction n with
  | zero => rfl
  | succ n ih =>
    simp only [registersOf, h n (Nat.lt_succ_self n), ih fun k hk => h k (Nat.lt_succ_of_lt hk)]

theorem levelOf_congr (h : ∀ k < n, vars'[firstVar + k]? = vars[firstVar + k]?) :
    levelOf vars' firstVar n = levelOf vars firstVar n := by
  unfold levelOf
  rw [registersOf_congr h]

namespace Placed

theorem exists_var (h : Placed vars firstVar active numLocals) (hn : n < active) :
    ∃ v, vars[firstVar + n]? = some v := by
  have := h.range
  exact ⟨_, Array.getElem?_eq_getElem (by omega)⟩

theorem registersOf_eq (h : Placed vars firstVar active numLocals) (hn : n ≤ active) :
    registersOf vars firstVar n = some (levelOf vars firstVar n) := by
  induction n with
  | zero => rfl
  | succ n ih =>
    obtain ⟨v, hv⟩ := h.exists_var hn
    unfold levelOf
    rw [registersOf_succ hv]
    split
    · rfl
    · rw [ih (by omega)]
      rfl

theorem level_succ (h : Placed vars firstVar active numLocals) (hn : n < active) {v : Variable}
    (hv : vars[firstVar + n]? = some v) (hr : v.kind.inRegister = true) :
    levelOf vars firstVar n = v.reg ∧ levelOf vars firstVar (n + 1) = v.reg + 1 := by
  have hreg := (h.reg n v hn hv hr).1
  unfold levelOf
  rw [registersOf_succ hv, hreg, if_pos hr]
  exact ⟨rfl, rfl⟩

theorem level_le_succ (h : Placed vars firstVar active numLocals) (hn : n < active) :
    levelOf vars firstVar n ≤ levelOf vars firstVar (n + 1) := by
  obtain ⟨v, hv⟩ := h.exists_var hn
  by_cases hr : v.kind.inRegister = true
  · obtain ⟨h₁, h₂⟩ := h.level_succ hn hv hr
    omega
  · have : levelOf vars firstVar (n + 1) = levelOf vars firstVar n := by
      unfold levelOf
      rw [registersOf_succ hv, if_neg hr]
    omega

theorem level_mono (h : Placed vars firstVar active numLocals) (hm : m ≤ n) (hn : n ≤ active) :
    levelOf vars firstVar m ≤ levelOf vars firstVar n := by
  induction n with
  | zero =>
    obtain rfl : m = 0 := by omega
    exact Nat.le_refl _
  | succ n ih =>
    by_cases h' : m = n + 1
    · exact Nat.le_of_eq (congrArg _ h')
    · exact Nat.le_trans (ih (by omega) (by omega)) (h.level_le_succ hn)

theorem level_le (h : Placed vars firstVar active numLocals) (hn : n ≤ active) :
    levelOf vars firstVar n ≤ maxLocals := by
  induction n with
  | zero => exact Nat.zero_le _
  | succ n ih =>
    obtain ⟨v, hv⟩ := h.exists_var hn
    by_cases hr : v.kind.inRegister = true
    · have h₁ := (h.level_succ hn hv hr).2
      have h₂ := (h.reg n v hn hv hr).2.2
      omega
    · unfold levelOf
      rw [registersOf_succ hv, if_neg hr]
      exact ih (by omega)

theorem reg_lt (h : Placed vars firstVar active numLocals) (hn : n < active) {v : Variable}
    (hv : vars[firstVar + n]? = some v) (hr : v.kind.inRegister = true) :
    v.reg < levelOf vars firstVar active := by
  have h₁ := (h.level_succ hn hv hr).2
  have h₂ := h.level_mono (m := n + 1) hn (Nat.le_refl _)
  omega

theorem shorten (h : Placed vars firstVar active numLocals) (hn : n ≤ active)
    (hs : firstVar + n ≤ vars'.size) (hv : ∀ k < n, vars'[firstVar + k]? = vars[firstVar + k]?) :
    Placed vars' firstVar n numLocals := by
  refine ⟨hs, ?_⟩
  intro k v hk hk' hr
  rw [hv k hk] at hk'
  obtain ⟨h₁, h₂⟩ := h.reg k v (by omega) hk' hr
  refine ⟨?_, h₂⟩
  rw [registersOf_congr fun j hj => hv j (by omega)]
  exact h₁

end Placed

end

structure BlockScope where
  firstLabel : Nat
  firstGoto : Nat
  level : Nat
  isLoop : Bool

def Block.scope (b : Block) : BlockScope := ⟨b.firstLabel, b.firstGoto, b.level, b.loop != .none⟩

structure FnScope where
  firstVar : Nat
  firstLabel : Nat
  active : Nat
  numLocals : Nat
  blocks : List BlockScope

def Builder.scope (f : Builder) : FnScope :=
  ⟨f.firstVar, f.firstLabel, f.active, f.locals.size, f.blocks.map Block.scope⟩

namespace FnScope

def firstGoto (f : FnScope) : Nat := (f.blocks.getLast?.map (·.firstGoto)).getD 0

end FnScope

structure Scoped (vars : Array Variable) (labels gotos : Array Label) (f : FnScope) : Prop where
  placed : Placed vars f.firstVar f.active f.numLocals
  outermost : ∃ b, f.blocks.getLast? = some b ∧ b.level = 0 ∧ b.firstLabel = f.firstLabel ∧
    b.isLoop = false
  sorted : f.blocks.Pairwise fun b c =>
    c.level ≤ b.level ∧ c.firstLabel ≤ b.firstLabel ∧ c.firstGoto ≤ b.firstGoto
  inside : ∀ b ∈ f.blocks, b.level ≤ f.active ∧ b.firstLabel ≤ labels.size ∧
    b.firstGoto ≤ gotos.size
  within : ∀ (k : Nat) (g : Label), gotos[k]? = some g → ∀ b ∈ f.blocks, b.firstGoto ≤ k →
    b.level ≤ g.level
  labels : ∀ k l, f.firstLabel ≤ k → labels[k]? = some l → l.level ≤ f.active ∧
    ∀ b ∈ f.blocks, k < b.firstLabel → l.level ≤ b.level
  gotos : ∀ k g, f.firstGoto ≤ k → gotos[k]? = some g → g.level ≤ f.active ∧
    ∀ b ∈ f.blocks, k < b.firstGoto → g.level ≤ b.level

/-- What is pending because of the gotos and labels of a function. -/
def gotoThing (vars : Array Variable) (firstVar : Nat) (g : Label) : Pending :=
  .goto g.pc (levelOf vars firstVar g.level)

def labelThing (vars : Array Variable) (firstVar : Nat) (l : Label) : Pending :=
  .target l.pc (levelOf vars firstVar l.level)

def waiting (vars : Array Variable) (labels gotos : Array Label) (f : FnScope) : List Pending :=
  (gotos.toList.drop f.firstGoto).map (gotoThing vars f.firstVar)
    ++ (labels.toList.drop f.firstLabel).map (labelThing vars f.firstVar)

namespace Scoped

variable {vars vars' : Array Variable} {labels labels' gotos gotos' : Array Label} {f f' : FnScope}

theorem firstGoto_eq {b : BlockScope} (hb : f.blocks.getLast? = some b) :
    f.firstGoto = b.firstGoto := by
  simp [FnScope.firstGoto, hb]

theorem first_le (h : Scoped vars labels gotos f) {b : BlockScope} (hb : b ∈ f.blocks) :
    f.firstLabel ≤ b.firstLabel ∧ f.firstGoto ≤ b.firstGoto := by
  obtain ⟨z, hz, -, hzl, -⟩ := h.outermost
  rw [← hzl, firstGoto_eq hz]
  obtain ⟨ys, hys⟩ := List.getLast?_eq_some_iff.1 hz
  have hs := h.sorted
  rw [hys] at hs hb
  rcases List.mem_append.1 hb with hb | hb
  · have := (List.pairwise_append.1 hs).2.2 b hb z (List.mem_singleton.2 rfl)
    exact this.2
  · cases List.mem_singleton.1 hb
    exact ⟨Nat.le_refl _, Nat.le_refl _⟩

theorem first_le_size (h : Scoped vars labels gotos f) :
    f.firstLabel ≤ labels.size ∧ f.firstGoto ≤ gotos.size := by
  obtain ⟨z, hz, -, hzl, -⟩ := h.outermost
  have hm := List.mem_of_getLast? hz
  obtain ⟨-, h₁, h₂⟩ := h.inside z hm
  rw [firstGoto_eq hz, ← hzl]
  exact ⟨h₁, h₂⟩

theorem level_eq (h : Scoped vars labels gotos f) {n : Nat} (hn : n ≤ f.active) :
    registersOf vars f.firstVar n = some (levelOf vars f.firstVar n) :=
  h.placed.registersOf_eq hn

end Scoped

/-- The declarations of functions within each other, innermost first, are within the first `n`, and
the outermost function has an environment. -/
def Enclosed : Nat → List Builder → Prop
  | _, [] => True
  | n, f :: rest => f.firstVar + f.active ≤ n ∧ (∃ b ∈ f.blocks, b.level = 0) ∧
    f.upvalues.size ≤ maxUpvalues ∧ (rest = [] → 0 < f.upvalues.size) ∧ Enclosed f.firstVar rest

end LuaChunk.Compile
