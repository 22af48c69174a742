import LuaChunk.Proofs.Machine.Location

set_option autoImplicit false

namespace LuaChunk

open JumpList (Code)
open Machine (step)

def Loc.Below {V : Type} (n : Nat) : Loc V → Prop
  | .reg r => r < n
  | _ => True

theorem JumpList.modify_push_lt {code : Code} {w : Instruction} {pc : Nat}
    {f : Instruction → Instruction} (h : pc < code.size) :
    (code.push w).modify pc f = (code.modify pc f).push w := by
  apply Array.ext_getElem?
  intro p
  rw [Array.getElem?_modify, Array.getElem?_push, Array.getElem?_push, Array.getElem?_modify,
    Array.size_modify]
  split <;> split <;> first | rfl | omega

theorem Loc.read_same {V H : Type} {W : World V H} {n : Nat} {m m' : Machine V H} {l : Loc V}
    (h : m.Same n m') (hl : l.Below n) :
    l.read W m' = l.read W m := by
  cases l with
  | reg r => exact congrArg some (h.reg r hl)
  | up i => exact congrArg some (congrFun h.up i)
  | cell table key => simp only [read, h.heap]
  | const v => rfl

namespace Compile

variable {V H : Type} {W : World V H} {F : List Pending} {base base₂ n r i : Nat} {kind : ExpKind}
  {t k e : Exp} {s₀ s₁ s s' : State}
  {P : Nat → Prop} {L : Machine V H → Option (Machine V H × Loc V)}
  {g : Machine V H → Option (Machine V H)}
  {spec : State → Machine V H → Option (Loc V)} {T : Machine V H → V}

/-- A state that comes later, in the course of the same declarations. -/
structure State.Later (s z : State) : Prop where
  keeps : Keeps s z
  base : Base z

theorem State.Later.after {z : State} (h : s'.Later z) (hk : Keeps s s') : s.Later z :=
  ⟨hk.trans h.keeps, h.base⟩

/-- The code since `s₀` finds what `spec` says as names stand in any later state; registers from `n`
on may have changed. -/
def Finds (W : World V H) (s₀ s : State) (n : Nat) (kind : ExpKind)
    (spec : State → Machine V H → Option (Loc V)) : Prop :=
  ∃ L, Denotes W s₀ s (fun _ => True) kind L ∧
    ∀ z, s.Later z → ∀ m, Option.Rel (fun l p => m.Same n p.1 ∧ p.2 = l) (spec z m) (L m)

theorem Denotes.below (h : Val F base ⟨kind, none, none⟩ s) (hd : Denotes W s₀ s P kind L)
    {m : Machine V H} {p : Machine V H × Loc V}
    (hp : L m = some p) : p.2.Below base := by
  have hplace := h.place
  have hlow := h.low
  cases hd with
  | opened _ hL =>
    rw [hL m] at hp
    obtain ⟨q, -, rfl⟩ := Option.map_eq_some_iff.1 hp
    trivial
  | here hk _ hL =>
    rw [hL m] at hp
    obtain ⟨q, -, rfl⟩ := Option.map_eq_some_iff.1 hp
    cases kind with
    | localVar r i =>
      cases hk
      exact Nat.lt_of_lt_of_le hplace.2.1 hlow
    | konst | constVar | indexUp | indexStr =>
      obtain ⟨v, -, rfl⟩ := Option.map_eq_some_iff.1 hk
      trivial
    | nil | true_ | false_ | int | float | str | inReg | upvalue | indexed | indexInt =>
      cases hk
      trivial
    | _ => cases hk

theorem reading_rel (h : Val F base ⟨kind, none, none⟩ s) (hd : Denotes W s₀ s P kind L)
    {l : Option (Loc V)} {m : Machine V H}
    (hm : Option.Rel (fun l p => m.Same base p.1 ∧ p.2 = l) l (L m)) :
    Option.Rel (fun v p => m.Same base p.1 ∧ p.2 = v) (l.bind (·.read W m)) (reading W L m) := by
  unfold reading
  cases hL : L m with
  | none =>
    rw [hL] at hm
    cases hm
    exact .none
  | some p =>
    have hb := hd.below h hL
    rw [hL] at hm
    cases hm with
    | some hm =>
      obtain ⟨hsame, rfl⟩ := hm
      show Option.Rel _ (p.2.read W m) ((p.2.read W p.1).map _)
      rw [Loc.read_same hsame hb]
      exact .self_map fun v => ⟨hsame, rfl⟩

theorem Finds.discharge (h : Val F base ⟨kind, none, none⟩ s) (hf : Finds W s₀ s base kind spec) :
    Via Keeps (dischargeVars ⟨kind, none, none⟩) s fun e' s' =>
      Finds W s₀ s' base e'.kind fun z m => ((spec z m).bind (·.read W m)).map .const := by
  obtain ⟨L, hd, hr⟩ := hf
  refine (dischargeVars_denotes h hd).mono fun e' s' hk hd' => ⟨_, hd', fun z hz m => ?_⟩
  exact (reading_rel h hd (hr z (hz.after hk) m)).map fun v p hp => ⟨hp.1, congrArg Loc.const hp.2⟩

inductive TableOf : Exp → (Machine V H → V) → Prop
  | inReg (r : Nat) : TableOf (.inReg r) (·.reg r)
  | upvalue (i : Nat) : TableOf ⟨.upvalue i, none, none⟩ (·.up i)

/-- The code since `s₀` has the table that `spec` says; registers from `n` on may have changed. -/
def HasTable (W : World V H) (s₀ s : State) (n : Nat) (T : Machine V H → V)
    (g : Machine V H → Option (Machine V H))
    (spec : State → Machine V H → Option V) : Prop :=
  Effect W s₀ s g ∧ ∀ z, s.Later z →
    ∀ m, Option.Rel (fun v m' => m.Same n m' ∧ T m' = v) (spec z m) (g m)

theorem toRegisterOrUpvalue_effect (h : Val F base ⟨kind, none, none⟩ s)
    (hf : Finds W s₀ s base kind spec) :
    Via Keeps (toRegisterOrUpvalue ⟨kind, none, none⟩) s fun t s' => ∃ T g, TableOf t T ∧
      HasTable W s₀ s' base T g fun z m => (spec z m).bind (·.read W m) := by
  obtain ⟨L, hd, hr⟩ := hf
  have hread : ∀ {s'}, Keeps s s' → ∀ z, s'.Later z → ∀ m,
      Option.Rel (fun v p => m.Same base p.1 ∧ p.2 = v) ((spec z m).bind (·.read W m))
        (reading W L m) :=
    fun hk z hz m => reading_rel h hd (hr z (hz.after hk) m)
  have hreg : Via Keeps (do return .inReg (← toAnyRegister ⟨kind, none, none⟩)) s fun t s' => ∃ T g,
      TableOf t T ∧
      HasTable W s₀ s' base T g fun z m => (spec z m).bind (·.read W m) := by
    refine Via.bind (toAnyRegister_effect h hd trivial) ?_
    rintro r s' hk ⟨g, hg, hm⟩
    refine Via.pure ⟨_, g, .inReg r, hg, fun z hz m => (hread hk z hz m).trans (hm m) ?_⟩
    rintro v p m' ⟨hsame, rfl⟩ ⟨hsame', hr⟩
    exact ⟨hsame.trans hsame', hr⟩
  unfold toRegisterOrUpvalue
  cases kind with
  | upvalue i =>
    refine Via.ite (fun hj => nomatch hj) fun _ => Via.pure ?_
    cases hd with
    | @here _ _ g loc hk hg hL =>
      cases hk
      refine ⟨_, g, .upvalue i, hg, fun z hz m => ?_⟩
      have hm := hread (Keeps.refl s) z hz m
      have hread : reading W L m = (g m).map fun m' => (m', m'.up i) := by
        unfold reading
        rw [hL m]
        cases g m <;> rfl
      rw [hread] at hm
      exact hm.of_map
  | _ => exact hreg

theorem Denotes.loadUpvalue (hd : Denotes W s₀ s P kind L) (hs : kind.isSettled = true)
    (hr : ∀ r, kind = .inReg r → r < s.fn.freeReg)
    (hpc : ∀ pc, kind = .relocatable pc → pc < s.fn.code.size)
    (hfree : s.fn.freeReg ≤ 255) (hi : i ≤ 255) :
    Denotes W s₀ (s.loadUpvalue i n) (fun q => P q ∧ q ≠ s.fn.freeReg) kind fun m =>
      (L m).map fun p => (p.1.setReg s.fn.freeReg (p.1.up i), p.2) := by
  have hload : ∀ {s s' : State},
      s'.fn.code = s.fn.code.push
      ((Draft.abck .getUpval 0 i 0 0).word.setAll [(.a, s.fn.freeReg)]) →
      s'.fn.pool = s.fn.pool → s.fn.freeReg ≤ 255 →
        Effect W s s' fun m => some (m.setReg s.fn.freeReg (m.up i)) := by
    intro s s' hc hp hfree
    have hd : (Draft.abck .getUpval 0 i 0 0).fits = true := Draft.fits_abck.2 (by omega)
    have hw : ((Draft.abck .getUpval 0 i 0 0).word.setAll [(.a, s.fn.freeReg)]).opcode? =
        some .getUpval := by
      rw [Instruction.opcode?_setAll _ _ rfl]
      exact Draft.opcode?_word _
    have hb : ((Draft.abck .getUpval 0 i 0 0).word.setAll [(.a, s.fn.freeReg)]).b = i :=
      (Instruction.get_setAll_apart .b _ _ rfl).trans (Draft.get_abck hd).2.1
    refine .push hc (by rw [hw]; simp) hp fun K m _ => ?_
    simp only [step, hw, hb, Sound.a_setA hfree]
  cases hd with
  | @here _ _ g loc hk hg hL =>
    have heffect := hg.trans (hload (s.loadUpvalue_code i n) rfl hfree)
    refine .here (ExpKind.loc?_mono hk rfl fun _ _ h => h) heffect fun m => ?_
    rw [hL m]
    cases g m with
    | none => rfl
    | some m' =>
      have hloc : loc (m'.setReg s.fn.freeReg (m'.up i)) = loc m' := by
        cases kind with
        | inReg r =>
          cases hk
          simp only [Machine.setReg_ne (Nat.ne_of_lt (hr r rfl))]
        | konst k =>
          obtain ⟨v, -, rfl⟩ := Option.map_eq_some_iff.1 hk
          rfl
        | nil | true_ | false_ | int | float | str =>
          cases hk
          rfl
        | jump | relocatable => cases hk
        | _ => cases hs
      simp [hloc]
  | @opened pc _ f h hL =>
    refine .opened (f := fun m => (f m).map fun p => (p.1.setReg s.fn.freeReg (p.1.up i), p.2))
      (fun q hq hfree' => ?_) fun m => ?_
    · obtain ⟨hP, hne⟩ := hfree'
      have hlt := hpc pc rfl
      have hcode : ((s.loadUpvalue i n).setAt pc [(.a, q)]).fn.code
          = (s.setAt pc [(.a, q)]).fn.code.push
            ((Draft.abck .getUpval 0 i 0 0).word.setAll [(.a, s.fn.freeReg)]) := by
        simp only [State.setAt]
        rw [s.loadUpvalue_code]
        exact JumpList.modify_push_lt hlt
      refine ((h q hq hP).trans (hload hcode rfl hfree)).congr fun m => ?_
      cases f m with
      | none => rfl
      | some p =>
        exact congrArg some (Machine.setReg_comm hne.symm)
    · rw [hL m]
      cases f m <;> rfl

end Compile

end LuaChunk
