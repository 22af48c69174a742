import LuaChunk.Proofs.Compile.Binary

/-!
Names. The search from the newest declaration outward finds the innermost active declaration, an
upvalue is added for a variable of an enclosing function exactly when there is none yet, and what a
name is taken for is what the lexical rule says.
-/

set_option autoImplicit false

namespace LuaChunk.Compile

open LuaChunk

/-! ### The declarations of one function -/

section

variable {vars : Array Variable} {first n place : Nat} {name : Bytes} {d : Declared}

/-- What is known of a name's global declarations after `n` declarations from `first` on, none of
which is of this name. -/
def Declared.within (vars : Array Variable) (first n : Nat) : Declared → Declared
  | .wildcard place => .wildcard place
  | d =>
    match newest? vars Variable.isWildcard first n with
    | some place => .wildcard place
    | none => if (newest? vars Variable.isNamedGlobal first n).isSome then .closed else d

def Variable.meaning (v : Variable) (place index : Nat) : Meaning :=
  if v.kind.isGlobal then .declared place
  else if v.kind = .compileTime then .constVar place
  else .localVar v.reg index v.kind.number

theorem newest?_succ {p : Variable → Bool} {v : Variable} (hv : vars[first + n]? = some v) :
    newest? vars p first (n + 1) = if p v then some (first + n) else newest? vars p first n := by
  simp only [newest?, hv]

theorem Declared.within_eq (hd : ∀ place, d ≠ .wildcard place) :
    d.within vars first n =
      match newest? vars Variable.isWildcard first n with
      | some place => .wildcard place
      | none => if (newest? vars Variable.isNamedGlobal first n).isSome then .closed else d := by
  cases d with
  | wildcard place => exact absurd rfl (hd place)
  | free | closed => rfl

theorem Declared.within_succ {v : Variable} (hv : vars[first + n]? = some v)
    (hg : v.kind.isGlobal = false) : d.within vars first (n + 1) = d.within vars first n := by
  have h₁ : v.isWildcard = false := by simp [Variable.isWildcard, hg]
  have h₂ : v.isNamedGlobal = false := by simp [Variable.isNamedGlobal, hg]
  cases d with
  | wildcard place => rfl
  | free | closed => simp [Declared.within, newest?_succ hv, h₁, h₂]

theorem searchFrom_none (hr : first + n ≤ vars.size)
    (h : newest? vars (Variable.declares name) first n = none) :
    searchFrom vars first name n d = some (.undeclared (d.within vars first n)) := by
  induction n generalizing d with
  | zero => cases d <;> rfl
  | succ n ih =>
    obtain ⟨v, hv⟩ : ∃ v, vars[first + n]? = some v := ⟨_, Array.getElem?_eq_getElem (by omega)⟩
    rw [newest?_succ hv] at h
    have hname : ¬ v.name = some name := by
      intro he
      simp [Variable.declares, he] at h
    have hrest : ∀ d, searchFrom vars first name n d =
        some (.undeclared (d.within vars first n)) := by
      intro d
      refine ih (by omega) ?_
      split at h
      · cases h
      · exact h
    simp only [searchFrom, hv, hrest]
    by_cases hg : v.kind.isGlobal = true
    · rw [if_pos hg]
      cases hn : v.name with
      | none =>
        have hw : v.isWildcard = true := by simp [Variable.isWildcard, hg, hn]
        cases d <;> simp [Declared.within, newest?_succ hv, hw]
      | some other =>
        have hw : v.isWildcard = false := by simp [Variable.isWildcard, hn]
        have hg' : v.isNamedGlobal = true := by simp [Variable.isNamedGlobal, hg, hn]
        have ho : other ≠ name := fun he => hname (by rw [hn, he])
        cases d <;> simp [Declared.within, newest?_succ hv, hw, hg', ho]
    · rw [if_neg hg, if_neg hname, Declared.within_succ hv (by simpa using hg)]

theorem searchFrom_some (hr : first + n ≤ vars.size)
    (h : newest? vars (Variable.declares name) first n = some place) :
    ∃ k v, k < n ∧ place = first + k ∧ vars[place]? = some v ∧ v.name = some name ∧
      searchFrom vars first name n d = some (v.meaning place k) := by
  induction n generalizing d with
  | zero => cases h
  | succ n ih =>
    obtain ⟨v, hv⟩ : ∃ v, vars[first + n]? = some v := ⟨_, Array.getElem?_eq_getElem (by omega)⟩
    rw [newest?_succ hv] at h
    simp only [searchFrom, hv]
    by_cases hd : v.declares name = true
    · rw [if_pos hd] at h
      cases h
      have hname : v.name = some name := by simpa [Variable.declares] using hd
      refine ⟨n, v, Nat.lt_succ_self n, rfl, hv, hname, ?_⟩
      unfold Variable.meaning
      by_cases hg : v.kind.isGlobal = true
      · simp only [if_pos hg, hname, if_true]
      · simp only [if_neg hg, if_pos hname]
    · rw [if_neg hd] at h
      have hname : ¬ v.name = some name := by simpa [Variable.declares] using hd
      have hrest : ∀ d, ∃ k v, k < n + 1 ∧ place = first + k ∧ vars[place]? = some v ∧
          v.name = some name ∧
          searchFrom vars first name n d = some (v.meaning place k) := by
        intro d
        obtain ⟨k, w, hk, hw⟩ := ih (d := d) (by omega) h
        exact ⟨k, w, by omega, hw⟩
      by_cases hg : v.kind.isGlobal = true
      · rw [if_pos hg]
        cases hn : v.name with
        | none => cases d <;> exact hrest _
        | some other =>
          have ho : other ≠ name := fun he => hname (by rw [hn, he])
          simp only [if_neg ho]
          cases d <;> exact hrest _
      · rw [if_neg hg, if_neg hname]
        exact hrest _

end

/-! ### What a name means -/

namespace Declared

/-- What is known of the global declarations after those of functions within each other. -/
def after (vars : Array Variable) : List FnSite → Declared → Declared
  | [], d => d
  | f :: rest, d => after vars rest (d.within vars f.firstVar f.active)

variable {vars : Array Variable} {fns : List FnSite} {d : Declared}

theorem after_wildcard {place : Nat} : after vars fns (.wildcard place) = .wildcard place := by
  induction fns with
  | nil => rfl
  | cons f rest ih => exact ih

theorem after_eq (hd : ∀ place, d ≠ .wildcard place) :
    after vars fns d =
      match innermost? vars Variable.isWildcard fns with
      | some (_, place) => .wildcard place
      | none => if (innermost? vars Variable.isNamedGlobal fns).isSome then .closed else d := by
  induction fns generalizing d with
  | nil => rfl
  | cons f rest ih =>
    unfold after
    rw [within_eq hd]
    cases hw : newest? vars Variable.isWildcard f.firstVar f.active with
    | some place => rw [innermost?_here hw, after_wildcard]
    | none =>
      rw [innermost?_outward _ hw]
      cases hg : newest? vars Variable.isNamedGlobal f.firstVar f.active with
      | some place =>
        rw [innermost?_here hg]
        simp only [Option.isSome_some, if_true]
        rw [ih (by simp)]
        cases innermost? vars Variable.isWildcard rest <;> simp
      | none =>
        rw [innermost?_outward _ hg]
        simp only [Option.isSome_none, Bool.false_eq_true, if_false]
        rw [ih hd]
        cases innermost? vars Variable.isWildcard rest <;> simp

end Declared

/-- What a name means in the innermost of functions within each other, given what is known of its
global declarations. -/
inductive Means (vars : Array Variable) : List FnSite → Bytes → Declared → Meaning → Prop
  | localVar {f : FnSite} {rest : List FnSite} {name : Bytes} {d : Declared} {i : Nat}
    {v : Variable}
    (h : innermost? vars (Variable.declares name) (f :: rest) = some (0, f.firstVar + i))
    (hi : i < f.active) (hv : vars[f.firstVar + i]? = some v) (hr : v.kind.inRegister = true) :
    Means vars (f :: rest) name d (.localVar v.reg i v.kind.number)
  | upvalue {f : FnSite} {rest : List FnSite} {name : Bytes} {d : Declared} {depth place i : Nat}
    {v : Variable} {u : Upvalue}
    (h : innermost? vars (Variable.declares name) (f :: rest) = some (depth + 1, place))
    (hv : vars[place]? = some v) (hr : v.kind.inRegister = true) (hu : f.upvalues[i]? = some u)
    (hn : u.name = some name) : Means vars (f :: rest) name d (.upvalue i v.kind.number)
  | constVar {fns : List FnSite} {name : Bytes} {d : Declared} {depth place : Nat} {v : Variable}
    (h : innermost? vars (Variable.declares name) fns = some (depth, place))
    (hv : vars[place]? = some v) (hk : v.kind = .compileTime) : Means vars fns name d
    (.constVar place)
  | declared {fns : List FnSite} {name : Bytes} {d : Declared} {depth place : Nat} {v : Variable}
    (h : innermost? vars (Variable.declares name) fns = some (depth, place))
    (hv : vars[place]? = some v) (hk : v.kind.isGlobal = true) : Means vars fns name d
    (.declared place)
  | environment {f : FnSite} {rest : List FnSite} {d : Declared} {i : Nat} {u : Upvalue}
    (h : innermost? vars (Variable.declares envName) (f :: rest) = none)
    (hu : f.upvalues[i]? = some u)
    (hn : u.name = some envName) : Means vars (f :: rest) envName d
    (.upvalue i VarKind.regular.number)
  | undeclared {fns : List FnSite} {name : Bytes} {d : Declared}
    (h : innermost? vars (Variable.declares name) fns = none) (hn : name ≠ envName) :
    Means vars fns name d (.undeclared (d.after vars fns))

section

variable {vars : Array Variable} {f : FnSite} {rest fns : List FnSite} {name : Bytes} {d : Declared}
  {m : Meaning}

theorem Means.isLexical (h : Means vars fns name .free m) (hl : Linked vars fns) :
    isLexical vars fns name m = true := by
  cases h with
  | localVar h hi hv hr =>
    obtain ⟨h₁, h₂⟩ := VarKind.register_of hr
    simp [Compile.isLexical, h, hv, h₁, h₂]
  | upvalue h hv hr hu hn =>
    obtain ⟨h₁, h₂⟩ := VarKind.register_of hr
    obtain ⟨hlead, -⟩ := hl.leadsTo hv _ hu hn (innermost?_rest h)
    simp [Compile.isLexical, h, hv, h₁, h₂, hlead]
  | constVar h hv hk =>
    simp [Compile.isLexical, h, hv, hk, VarKind.isGlobal]
  | declared h hv hk =>
    simp [Compile.isLexical, h, hv, hk]
  | environment h hu hn =>
    obtain ⟨hlead, -⟩ := hl.leadsToEnv hu hn (innermost?_rest_none h)
    simp [Compile.isLexical, h, hlead]
  | undeclared h hn =>
    rw [Declared.after_eq (by simp)]
    simp only [Compile.isLexical, h, if_neg hn]
    cases innermost? vars Variable.isWildcard fns <;> simp

theorem Entries.means {i : Nat} {u : Upvalue} (h : Entries vars f rest)
    (hnew : newest? vars (Variable.declares name) f.firstVar f.active = none)
    (hu : f.upvalues[i]? = some u) (hn : u.name = some name) :
    Means vars (f :: rest) name d (.upvalue i u.kind) := by
  obtain ⟨name', hn', hm⟩ := h.captures i u hu
  obtain rfl : name = name' := Option.some.inj (hn.symm.trans hn')
  have hout := innermost?_outward rest hnew
  cases rest with
  | nil =>
    obtain ⟨-, rfl, hk⟩ := hm
    rw [hk]
    exact .environment hout hu hn
  | cons g tail =>
    cases hi : innermost? vars (Variable.declares name) (g :: tail) with
    | none =>
      rw [hi] at hm hout
      obtain ⟨rfl, hk, -⟩ := hm
      rw [hk]
      exact .environment hout hu hn
    | some dp =>
      obtain ⟨depth, place⟩ := dp
      rw [hi] at hm hout
      obtain ⟨v, hv, hr, hk, -⟩ := hm
      rw [hk]
      exact .upvalue hout hv hr hu hn

end

/-! ### Entries for captured variables -/

/-- The entry by which a function captures what a name means in the next function. -/
def Meaning.entry? (name : Bytes) : Meaning → Option Upvalue
  | .localVar r _ kind => some ⟨some name, true, r, kind⟩
  | .upvalue i kind => some ⟨some name, false, i, kind⟩
  | _ => none

section

variable {vars : Array Variable} {f g : FnSite} {rest tail : List FnSite} {name : Bytes}
  {d : Declared}
  {m : Meaning} {u : Upvalue}

theorem Means.captures {k : Nat} (h : Means vars (g :: tail) name d m)
    (hu : m.entry? name = some u) :
    Captures vars (g :: tail) k u := by
  cases h with
  | localVar h hi hv hr =>
    cases hu
    refine ⟨name, rfl, ?_⟩
    rw [h]
    exact ⟨_, hv, hr, rfl, rfl, rfl⟩
  | @upvalue _ _ _ _ _ _ i _ w h hv hr hw hn =>
    cases hu
    refine ⟨name, rfl, ?_⟩
    rw [h]
    exact ⟨_, hv, hr, rfl, rfl, i, w, rfl, hw, hn⟩
  | @environment _ _ _ i w h hw hn =>
    cases hu
    refine ⟨envName, rfl, ?_⟩
    rw [h]
    exact ⟨rfl, rfl, rfl, i, w, rfl, hw, hn⟩
  | constVar | declared | undeclared => cases hu

theorem Placed.reg_inj {first active numLocals j k : Nat} {v w : Variable}
    (h : Placed vars first active numLocals) (hj : j < active) (hk : k < active)
    (hv : vars[first + j]? = some v) (hw : vars[first + k]? = some w)
    (hrv : v.kind.inRegister = true)
    (hrw : w.kind.inRegister = true) (he : v.reg = w.reg) : j = k := by
  obtain ⟨hv₁, hv₂⟩ := h.level_succ hj hv hrv
  obtain ⟨hw₁, hw₂⟩ := h.level_succ hk hw hrw
  rcases Nat.lt_trichotomy j k with hlt | heq | hgt
  · have := h.level_mono (m := j + 1) (n := k) hlt (Nat.le_of_lt hk)
    omega
  · exact heq
  · have := h.level_mono (m := k + 1) (n := j) hgt (Nat.le_of_lt hj)
    omega

theorem Entries.same_name {i n : Nat} {w : Upvalue} (h : Entries vars f (g :: tail))
    (hp : Placed vars g.firstVar g.active n) (hm : Means vars (g :: tail) name d m)
    (hu : m.entry? name = some u) (hw : f.upvalues[i]? = some w) (hs : w.inStack = u.inStack)
    (hx : w.index = u.index) : w.name = some name := by
  obtain ⟨name', hn', hc⟩ := h.captures i w hw
  rw [hn']
  -- an upvalue of the next function has one name
  have hup : ∀ {k : Nat} {w₀ : Upvalue}, u.inStack = false → u.index = k →
      g.upvalues[k]? = some w₀ →
      w₀.name = some name → some name' = some name := by
    intro k w₀ hs₀ hx₀ hk hn₀
    have hsame : ∀ {j : Nat} {w₁ : Upvalue}, w.index = j → g.upvalues[j]? = some w₁ →
        w₁.name = some name' → some name' = some name := by
      intro j w₁ hj hw₁ hn₁
      obtain rfl : j = k := Int.ofNat_inj.1 (hj.symm.trans (hx.trans hx₀))
      cases hw₁.symm.trans hk
      exact hn₁.symm.trans hn₀
    cases hi : innermost? vars (Variable.declares name') (g :: tail) with
    | none =>
      rw [hi] at hc
      obtain ⟨-, -, -, j, w₁, hj, hw₁, hn₁⟩ := hc
      exact hsame hj hw₁ hn₁
    | some dp =>
      obtain ⟨depth, place⟩ := dp
      rw [hi] at hc
      obtain ⟨v, -, -, -, hrest⟩ := hc
      by_cases hd : depth = 0
      · rw [if_pos hd] at hrest
        rw [hs₀, hrest.1] at hs
        cases hs
      · rw [if_neg hd] at hrest
        obtain ⟨-, j, w₁, hj, hw₁, hn₁⟩ := hrest
        exact hsame hj hw₁ hn₁
  cases hm with
  | @localVar _ _ _ _ k v hin hk hv hr =>
    cases hu
    obtain ⟨k', v', hk', he', hv', hp'⟩ := innermost?_zero hin
    obtain rfl : k = k' := by omega
    cases hv.symm.trans hv'
    cases hi : innermost? vars (Variable.declares name') (g :: tail) with
    | none =>
      rw [hi] at hc
      obtain ⟨-, -, hf, -⟩ := hc
      rw [hf] at hs
      cases hs
    | some dp =>
      obtain ⟨depth, place⟩ := dp
      rw [hi] at hc
      obtain ⟨v₁, hv₁, hr₁, -, hrest⟩ := hc
      by_cases hd : depth = 0
      · subst hd
        rw [if_pos rfl] at hrest
        obtain ⟨k₁, v₁', hk₁, rfl, hv₁', hp₁⟩ := innermost?_zero hi
        cases hv₁.symm.trans hv₁'
        have hreg : v.reg = v₁.reg := Int.ofNat_inj.1 (hx.symm.trans hrest.2)
        obtain rfl := hp.reg_inj hk hk₁ hv hv₁ hr hr₁ hreg
        cases hv.symm.trans hv₁
        simp only [Variable.declares, beq_iff_eq] at hp' hp₁
        exact hp₁.symm.trans hp'
      · rw [if_neg hd] at hrest
        rw [hrest.1] at hs
        cases hs
  | upvalue _ _ _ hw₀ hn₀ =>
    cases hu
    exact hup rfl rfl hw₀ hn₀
  | environment _ hw₀ hn₀ =>
    cases hu
    exact hup rfl rfl hw₀ hn₀
  | constVar | declared | undeclared => cases hu

theorem Linked.push (h : Linked vars (f :: rest)) (hc : Captures vars rest f.upvalues.size u)
    (hn : ∀ (i : Nat) (w : Upvalue), f.upvalues[i]? = some w → w.name ≠ u.name) :
    Linked vars ({ f with upvalues := f.upvalues.push u } :: rest) := by
  have hentry : ∀ {i : Nat} {w : Upvalue}, (f.upvalues.push u)[i]? = some w →
      f.upvalues[i]? = some w ∨ i = f.upvalues.size ∧ w = u := by
    intro i w hi
    rw [Array.getElem?_push] at hi
    split at hi
    · rename_i he
      exact .inr ⟨he, (Option.some.inj hi).symm⟩
    · exact .inl hi
  refine ⟨⟨?_, ?_⟩, h.2⟩
  · intro i w hi
    rcases hentry hi with hi | ⟨rfl, rfl⟩
    · exact h.1.captures i w hi
    · exact hc
  · intro i j w w' hi hj he
    rcases hentry hi with h₁ | ⟨rfl, rfl⟩ <;> rcases hentry hj with h₂ | ⟨rfl, rfl⟩
    · exact h.1.distinct i j w w' h₁ h₂ he
    · exact absurd he (hn i w h₁)
    · exact absurd he.symm (hn j w' h₂)
    · rfl

end

/-! ### Functions whose variables are captured -/

section

variable {vars : Array Variable} {fs fs' : List Builder} {f f' : Builder} {n : Nat}

theorem Captured.site (h : Captured f f') : f'.firstVar = f.firstVar ∧ f'.active = f.active := by
  have h₁ := congrArg Builder.firstVar h.core
  have h₂ := congrArg Builder.active h.core
  exact ⟨h₁, h₂⟩

theorem CapturedAll.innermost? (vars : Array Variable) (p : Variable → Bool)
    (h : CapturedAll fs fs') :
    innermost? vars p (fs'.map Builder.site) = innermost? vars p (fs.map Builder.site) := by
  induction fs generalizing fs' with
  | nil =>
    cases fs' with
    | nil => rfl
    | cons => cases h
  | cons f rest ih =>
    cases fs' with
    | nil => cases h
    | cons f' rest' =>
      obtain ⟨h₁, h₂⟩ := h.1.site
      simp only [List.map_cons, Compile.innermost?, Builder.site, h₁, h₂, ih h.2]

theorem Captures.grow {i : Nat} {u : Upvalue} (h : Captures vars (fs.map Builder.site) i u)
    (hc : CapturedAll fs fs') : Captures vars (fs'.map Builder.site) i u := by
  obtain ⟨name, hn, hm⟩ := h
  refine ⟨name, hn, ?_⟩
  cases fs with
  | nil =>
    cases fs' with
    | nil => exact hm
    | cons => cases hc
  | cons g tail =>
    cases fs' with
    | nil => cases hc
    | cons g' tail' =>
      have hi := CapturedAll.innermost? vars (Variable.declares name) hc
      simp only [List.map_cons] at hi hm ⊢
      rw [hi]
      cases hin : Compile.innermost? vars (Variable.declares name) (g.site :: tail.map Builder.site)
        with
      | none =>
        rw [hin] at hm
        obtain ⟨h₁, h₂, h₃, j, w, hj, hw, hwn⟩ := hm
        exact ⟨h₁, h₂, h₃, j, w, hj, hc.1.upvalues j w hw, hwn⟩
      | some dp =>
        obtain ⟨depth, place⟩ := dp
        rw [hin] at hm
        obtain ⟨v, hv, hr, hk, hrest⟩ := hm
        refine ⟨v, hv, hr, hk, ?_⟩
        by_cases hd : depth = 0
        · rw [if_pos hd] at hrest ⊢
          exact hrest
        · rw [if_neg hd] at hrest ⊢
          obtain ⟨h₁, j, w, hj, hw, hwn⟩ := hrest
          exact ⟨h₁, j, w, hj, hc.1.upvalues j w hw, hwn⟩

theorem Linked.grow {g : FnSite} (h : Linked vars (g :: fs.map Builder.site))
    (hc : CapturedAll fs fs')
    (hl : Linked vars (fs'.map Builder.site)) : Linked vars (g :: fs'.map Builder.site) := by
  refine ⟨⟨fun i u hu => (h.1.captures i u hu).grow hc, h.1.distinct⟩, ?_, hl⟩
  intro g' hg
  cases fs with
  | nil =>
    cases fs' with
    | nil => cases hg
    | cons => cases hc
  | cons f rest =>
    cases fs' with
    | nil => cases hc
    | cons f' rest' =>
      cases hg
      obtain ⟨h₁, h₂⟩ := hc.1.site
      obtain ⟨m, hm⟩ := h.2.1 f.site rfl
      refine ⟨m, ?_⟩
      show Placed vars f'.firstVar f'.active m
      rw [h₁, h₂]
      exact hm

theorem Enclosed.capture (h : Enclosed n (f :: fs)) (hc : Captured f f')
    (hs : f'.upvalues.size ≤ maxUpvalues) : Enclosed n (f' :: fs) := by
  obtain ⟨h₁, ⟨b, hb, hz⟩, -, he, hrest⟩ := h
  obtain ⟨hf, ha⟩ := hc.site
  refine ⟨by rw [hf, ha]; exact h₁, ?_, hs, ?_, by rw [hf]; exact hrest⟩
  · have hm : b.scope ∈ f'.blocks.map Block.scope := by
      rw [hc.blocks]
      exact List.mem_map_of_mem hb
    obtain ⟨b', hb', heq⟩ := List.mem_map.1 hm
    exact ⟨b', hb', (congrArg BlockScope.level heq).trans hz⟩
  · intro hnil
    obtain ⟨u, hu⟩ : ∃ u, f.upvalues[0]? = some u := ⟨_, Array.getElem?_eq_getElem (he hnil)⟩
    exact (Array.getElem?_eq_some_iff.1 (hc.upvalues 0 u hu)).1

theorem Enclosed.mono {m : Nat} (h : Enclosed m fs) (hn : m ≤ n) : Enclosed n fs := by
  cases fs with
  | nil => trivial
  | cons f rest => exact ⟨Nat.le_trans h.1 hn, h.2⟩

theorem Enclosed.grow {m : Nat} (h : Enclosed n (f :: fs)) (hc : CapturedAll fs fs')
    (he : Enclosed m fs') :
    Enclosed n (f :: fs') := by
  obtain ⟨h₁, h₂, h₃, h₄, hrest⟩ := h
  cases fs with
  | nil =>
    cases fs' with
    | nil => exact ⟨h₁, h₂, h₃, h₄, trivial⟩
    | cons => cases hc
  | cons g rest =>
    cases fs' with
    | nil => cases hc
    | cons g' rest' =>
      obtain ⟨hf, ha⟩ := hc.1.site
      refine ⟨h₁, h₂, h₃, by simp, ?_, he.2⟩
      rw [hf, ha]
      exact hrest.1

end

/-! ### Resolving -/

/-- What the resolution of a name keeps: variables are captured, and nothing else changes. -/
structure Links (s s' : State) : Prop where
  core : { s' with fn := s.fn, outer := s.outer, stores := s.stores } = s
  fns : CapturedAll (s.fn :: s.outer) (s'.fn :: s'.outer)

namespace Links

variable {s s' s'' : State}

theorem refl (s : State) : Links s s := ⟨rfl, CapturedAll.refl _⟩

theorem trans (h : Links s s') (h' : Links s' s'') : Links s s'' := by
  refine ⟨?_, h.fns.trans h'.fns⟩
  have h₁ := h.core
  rw [← h'.core] at h₁
  exact h₁

theorem logs (h : Links s s') : Logs s s' := by
  have h₁ := congrArg State.lexer h.core
  have h₂ := congrArg State.strayed h.core
  have h₃ := congrArg State.closings h.core
  have h₄ := congrArg State.writes h.core
  have h₅ := congrArg State.moments h.core
  exact .of_same h₁ h₂ h₃ h₄ h₅

theorem vars (h : Links s s') : s'.vars = s.vars := by
  have h₁ := congrArg State.vars h.core
  exact h₁

theorem ofFn {f : Builder} (h : Captured s.fn f) : Links s { s with fn := f } :=
  ⟨rfl, h, CapturedAll.refl _⟩

end Links

instance : Steps Links := ⟨Links.refl, Links.trans, Links.logs⟩

def State.sites (s : State) : List FnSite := (s.fn :: s.outer).map Builder.site

structure Resolvable (s : State) : Prop where
  enclosed : Enclosed s.vars.size (s.fn :: s.outer)
  linked : Linked s.vars s.sites
  placed : ∃ n, Placed s.vars s.fn.firstVar s.fn.active n

section

variable {s : State} {name : Bytes} {d : Declared} {u : Upvalue}

theorem Resolvable.range (h : Resolvable s) : s.fn.firstVar + s.fn.active ≤ s.vars.size :=
  h.enclosed.1

theorem addUpvalue_spec (h : Resolvable s)
    (hc : Captures s.vars (s.outer.map Builder.site) s.fn.upvalues.size u)
    (hn : ∀ (i : Nat) (w : Upvalue), s.fn.upvalues[i]? = some w →
      w.name ≠ u.name ∧ ¬ (w.inStack = u.inStack ∧ w.index = u.index)) :
    Via Links (addUpvalue u) s fun i s' => Resolvable s' ∧ i = s.fn.upvalues.size ∧
      s'.vars = s.vars ∧ s'.sites = { s.fn.site with upvalues := s.fn.upvalues.push u } ::
        s.outer.map Builder.site := by
  unfold addUpvalue
  have hnote : noteCapture u s = .ok () s := by
    have hany : (s.fn.upvalues.any fun v =>
        v.name == u.name || (v.inStack == u.inStack && v.index == u.index)) = false := by
      rw [Array.any_eq_false]
      intro i hi
      obtain ⟨h₁, h₂⟩ := hn i s.fn.upvalues[i] (Array.getElem?_eq_getElem hi)
      simpa using ⟨h₁, fun hs hx => h₂ ⟨hs, hx⟩⟩
    show EStateM.Result.ok () { s with strayed := s.strayed || _ } = _
    rw [hany, Bool.or_false]
  refine Via.next (Via.of_eq hnote (Links.refl s) (Via.next (Via.ofFn ?_)))
  refine Via.ite (fun _ => Via.next Via.limitError) fun hlim => ?_
  have hcap : Captured s.fn { s.fn with upvalues := s.fn.upvalues.push u } := by
    refine ⟨rfl, rfl, fun i w hi => ?_⟩
    have := (Array.getElem?_eq_some_iff.1 hi).1
    show (s.fn.upvalues.push u)[i]? = some w
    rw [Array.getElem?_push_lt this, ← hi, Array.getElem?_eq_getElem this]
  refine Via.next ⟨.ofFn hcap, ?_⟩
  have hres : ∀ stores, Resolvable
      { s with fn := { s.fn with upvalues := s.fn.upvalues.push u }, stores } := by
    intro stores
    refine ⟨h.enclosed.capture hcap ?_, h.linked.push hc fun i w hi => (hn i w hi).1, h.placed⟩
    show (s.fn.upvalues.push u).size ≤ maxUpvalues
    rw [Array.size_push]
    omega
  cases u.name with
  | none => exact Via.next (Via.pure (Via.pure ⟨hres _, rfl, rfl, rfl⟩))
  | some text => exact Via.next ⟨⟨rfl, CapturedAll.refl _⟩, Via.pure ⟨hres _, rfl, rfl, rfl⟩⟩

section

variable {p : Block → Bool} {change : Block → Block} {blocks blocks' : List Block}

theorem modifyFirst?_scope (h : modifyFirst? p change blocks = some blocks')
    (hc : ∀ b, p b = true → (change b).scope = b.scope) :
    blocks'.map Block.scope = blocks.map Block.scope := by
  induction blocks generalizing blocks' with
  | nil => cases h
  | cons b rest ih =>
    unfold modifyFirst? at h
    split at h
    · rename_i hp
      cases h
      simp [hc b hp]
    · obtain ⟨rest', hr, rfl⟩ := Option.map_eq_some_iff.1 h
      simp [ih hr]

theorem modifyFirst?_some (h : ∃ b ∈ blocks, p b = true) :
    ∃ blocks', modifyFirst? p change blocks = some blocks' := by
  induction blocks with
  | nil =>
    obtain ⟨b, hb, -⟩ := h
    cases hb
  | cons b rest ih =>
    unfold modifyFirst?
    by_cases hp : p b = true
    · exact ⟨change b :: rest, if_pos hp⟩
    · obtain ⟨b', hb', hp'⟩ := h
      obtain ⟨blocks', hm⟩ := ih
        ⟨b', (List.mem_cons.1 hb').resolve_left fun he => hp (he ▸ hp'), hp'⟩
      exact ⟨b :: blocks', by rw [if_neg hp, hm]; rfl⟩

end

theorem markCaptured_spec {i : Nat} (h : Resolvable s) :
    Via Links (markCaptured i) s fun _ s' => Resolvable s' ∧ s'.vars = s.vars ∧
      s'.sites = s.sites := by
  obtain ⟨b, hb, hz⟩ := h.enclosed.2.1
  unfold markCaptured closeFirst
  obtain ⟨blocks', hm⟩ := @modifyFirst?_some (fun b => b.level ≤ i)
    (fun b => { b with captured := true }) s.fn.blocks ⟨b, hb, by simp [hz]⟩
  have hs := modifyFirst?_scope hm fun _ _ => rfl
  refine Via.next (Via.ofFn ?_)
  rw [hm]
  have hcap : Captured s.fn { s.fn with blocks := blocks', needClose := true } :=
    ⟨rfl, hs, fun _ _ h => h⟩
  exact ⟨.ofFn hcap, ⟨h.enclosed.capture hcap h.enclosed.2.2.1, h.linked, h.placed⟩, rfl, rfl⟩

theorem Via.findUpvalue? {R : State → State → Prop} [Steps R]
    {Q : Option (Nat × UInt8) → State → Prop}
    (hsome : ∀ (i : Nat) (u : Upvalue), s.fn.upvalues[i]? = some u → u.name = some name →
      Q (some (i, u.kind)) s)
    (hnone : (∀ (i : Nat) (u : Upvalue), s.fn.upvalues[i]? = some u → u.name ≠ some name) →
    Q none s) :
    Via R (Compile.findUpvalue? name) s Q := by
  unfold Compile.findUpvalue?
  refine Via.next (Via.ofFn ?_)
  cases hf : s.fn.upvalues.findIdx? fun u => u.name == some name with
  | some i =>
    obtain ⟨hi, hp, -⟩ := Array.findIdx?_eq_some_iff_getElem.1 hf
    have hu := Array.getElem?_eq_getElem hi
    simp only [hu]
    exact Via.pure (hsome i _ hu (by simpa using hp))
  | none =>
    refine Via.pure (hnone fun i u hu => ?_)
    obtain ⟨hi, rfl⟩ := Array.getElem?_eq_some_iff.1 hu
    have := Array.findIdx?_eq_none_iff.1 hf _ (Array.getElem_mem hi)
    simpa using this

theorem Via.inEnclosing {α : Type} {act : M α} {b : Builder} {rest : List Builder}
    {Q : α → State → Prop} (hs : s.outer = b :: rest)
    (h : Via Links act { s with fn := b, outer := rest } fun a t =>
      CapturedAll (b :: rest) (t.fn :: t.outer) → t.vars = s.vars →
        Q a { t with fn := s.fn, outer := t.fn :: t.outer }) :
    Via Links (Compile.inEnclosing act) s Q := by
  unfold Via at h ⊢
  rw [inEnclosing_cons hs]
  cases ht : act { s with fn := b, outer := rest } with
  | ok a t =>
    rw [ht] at h
    obtain ⟨hl, hq⟩ := h
    refine ⟨⟨?_, ?_⟩, hq hl.fns hl.vars⟩
    · have hcore := congrArg (fun u : State => { u with fn := s.fn, outer := s.outer }) hl.core
      exact hcore
    · rw [hs]
      exact ⟨.refl _, hl.fns⟩
  | error e t =>
    rw [ht] at h
    exact { Aborts.after h (.of_same rfl rfl rfl rfl rfl) with }

theorem VarKind.inRegister_of {k : VarKind} (hg : ¬ k.isGlobal = true) (hc : ¬ k = .compileTime) :
    k.inRegister = true := by
  cases k <;> simp_all [VarKind.inRegister, VarKind.isGlobal]

/-- The name is found among the upvalues of the outermost function only if it is `_ENV`. -/
theorem Resolvable.environment (h : Resolvable s) (ho : s.outer = [])
    (hnone : ∀ (i : Nat) (u : Upvalue), s.fn.upvalues[i]? = some u → u.name ≠ some name) : name ≠
    envName := by
  rintro rfl
  have hs := h.enclosed.2.2.2.1 ho
  have hu := Array.getElem?_eq_getElem hs
  obtain ⟨name, hn, hm⟩ := h.linked.1.captures 0 _ hu
  rw [ho] at hm
  obtain ⟨-, rfl, -⟩ := hm
  exact hnone 0 _ hu hn

theorem resolveFrom_here {n place : Nat} {isBase : Bool} (h : Resolvable s)
    (hnew : newest? s.vars (Variable.declares name) s.fn.firstVar s.fn.active = some place) :
    Via Links (resolveFrom name n isBase d) s fun m s' =>
      Resolvable s' ∧ Means s'.vars s'.sites name d m := by
  obtain ⟨k, v, hk, rfl, hv, -, hs⟩ := searchFrom_some (d := d) h.range hnew
  have hin : innermost? s.vars (Variable.declares name) s.sites = some (0, s.fn.firstVar + k) :=
    innermost?_here hnew
  unfold resolveFrom
  refine Via.next (Via.get ?_)
  rw [hs]
  unfold Variable.meaning
  by_cases hg : v.kind.isGlobal = true
  · rw [if_pos hg]
    exact Via.pure ⟨h, .declared hin hv hg⟩
  · rw [if_neg hg]
    by_cases hc : v.kind = .compileTime
    · rw [if_pos hc]
      exact Via.pure ⟨h, .constVar hin hv hc⟩
    · rw [if_neg hc]
      have hr := VarKind.inRegister_of hg hc
      refine Via.ite (fun _ => ?_) fun _ =>
        Via.next (Via.pure (Via.pure ⟨h, .localVar hin hk hv hr⟩))
      refine Via.bind (markCaptured_spec h) ?_
      rintro _ s' - ⟨h', hvars, hsites⟩
      refine Via.pure ⟨h', ?_⟩
      rw [hvars, hsites]
      exact .localVar hin hk hv hr

theorem Means.depth {vars : Array Variable} {f : FnSite} {rest : List FnSite} {m : Meaning}
    (h : Means vars rest name (d.within vars f.firstVar f.active) m) (hu : m.entry? name = none)
    (hnew : newest? vars (Variable.declares name) f.firstVar f.active = none) :
    Means vars (f :: rest) name d m := by
  have hout := innermost?_outward rest hnew
  cases h with
  | constVar hin hv hk =>
    rw [hin] at hout
    exact .constVar hout hv hk
  | declared hin hv hk =>
    rw [hin] at hout
    exact .declared hout hv hk
  | undeclared hin hn =>
    rw [hin] at hout
    exact .undeclared hout hn
  | localVar | upvalue | environment => cases hu

theorem capture_spec {m : Meaning} {b : Builder} {rest : List Builder} (h : Resolvable s)
    (ho : s.outer = b :: rest)
    (hnew : newest? s.vars (Variable.declares name) s.fn.firstVar s.fn.active = none)
    (hnone : ∀ (i : Nat) (u : Upvalue), s.fn.upvalues[i]? = some u → u.name ≠ some name)
    (hm : Means s.vars (s.outer.map Builder.site) name (d.within s.vars s.fn.firstVar s.fn.active)
    m) :
    Via Links (match m with
      | .localVar r _ kind => do return .upvalue (← addUpvalue ⟨some name, true, r, kind⟩) kind
      | .upvalue i kind => do return .upvalue (← addUpvalue ⟨some name, false, i, kind⟩) kind
      | m => return m) s fun m s' => Resolvable s' ∧ Means s'.vars s'.sites name d m := by
  have hlink := h.linked
  rw [State.sites, ho] at hlink
  rw [ho] at hm
  have hadd : ∀ {u : Upvalue}, m.entry? name = some u →
      Via Links (do return Meaning.upvalue (← addUpvalue u) u.kind) s fun m s' =>
        Resolvable s' ∧ Means s'.vars s'.sites name d m := by
    intro u hu
    have hname : u.name = some name := by
      cases m <;> cases hu <;> rfl
    obtain ⟨n, hp⟩ := hlink.2.1 b.site rfl
    have hc : Captures s.vars (s.outer.map Builder.site) s.fn.upvalues.size u := by
      rw [ho]
      exact hm.captures hu
    refine Via.bind (addUpvalue_spec h hc ?_) ?_
    · intro i w hw
      have hne := hnone i w hw
      exact ⟨by rw [hname]; exact hne, fun ⟨hs, hx⟩ => hne (hlink.1.same_name hp hm hu hw hs hx)⟩
    · rintro i s' - ⟨h', rfl, hvars, hsites⟩
      refine Via.pure ⟨h', ?_⟩
      have hsite := congrArg List.head? hsites
      simp only [State.sites, List.map_cons, List.head?_cons, Option.some.injEq] at hsite
      have hlast : s'.fn.site.upvalues[s.fn.upvalues.size]? = some u := by
        rw [hsite]
        simp
      refine Entries.means h'.linked.1 ?_ hlast hname
      rw [hvars, hsite]
      exact hnew
  cases m with
  | localVar r i kind => exact hadd rfl
  | upvalue i kind => exact hadd rfl
  | constVar | declared | undeclared =>
    refine Via.pure ⟨h, ?_⟩
    rw [State.sites, ho]
    exact hm.depth rfl hnew

theorem noteMeaning_eq {m : Meaning} (hm : Means s.vars s.sites name .free m)
    (hl : Linked s.vars s.sites) :
    noteMeaning name m s = .ok () s := by
  have hlex : isLexical s.vars ((s.fn :: s.outer).map Builder.site) name m = true := hm.isLexical hl
  show EStateM.Result.ok () { s with strayed := s.strayed || !isLexical _ _ name m } = _
  rw [hlex]
  simp

theorem foundUpvalue_spec {i : Nat} (h : Resolvable s)
    (hnew : newest? s.vars (Variable.declares name) s.fn.firstVar s.fn.active = none)
    (hu : s.fn.upvalues[i]? = some u) (hname : u.name = some name) :
    Via Links (do
      noteMeaning name (.upvalue i u.kind)
      return Meaning.upvalue i u.kind) s fun m s' => Resolvable s' ∧
        Means s'.vars s'.sites name d m :=
  Via.next (Via.of_eq (noteMeaning_eq (h.linked.1.means hnew hu hname) h.linked) (Links.refl s)
    (Via.pure ⟨h, h.linked.1.means hnew hu hname⟩))

theorem resolveFrom_spec (n : Nat) {isBase : Bool} (h : Resolvable s) (hn : s.outer.length = n) :
    Via Links (resolveFrom name n isBase d) s fun m s' =>
      Resolvable s' ∧ Means s'.vars s'.sites name d m := by
  induction n generalizing s isBase d with
  | zero =>
    have ho : s.outer = [] := List.eq_nil_of_length_eq_zero hn
    cases hnew : newest? s.vars (Variable.declares name) s.fn.firstVar s.fn.active with
    | some place => exact resolveFrom_here h hnew
    | none =>
      unfold resolveFrom
      refine Via.next (Via.get ?_)
      rw [searchFrom_none h.range hnew]
      refine Via.next (Via.findUpvalue? ?_ ?_)
      · exact fun i u hu hname => foundUpvalue_spec h hnew hu hname
      · intro hnone
        have hne := h.environment ho hnone
        have hsites : s.sites = [s.fn.site] := by simp [State.sites, ho]
        refine Via.pure ⟨h, ?_⟩
        rw [hsites]
        exact .undeclared (innermost?_outward _ hnew) hne
  | succ n ih =>
    obtain ⟨b, rest, ho⟩ := List.exists_cons_of_length_eq_add_one hn
    cases hnew : newest? s.vars (Variable.declares name) s.fn.firstVar s.fn.active with
    | some place => exact resolveFrom_here h hnew
    | none =>
      unfold resolveFrom
      refine Via.next (Via.get ?_)
      rw [searchFrom_none h.range hnew]
      refine Via.next (Via.findUpvalue? ?_ ?_)
      · exact fun i u hu hname => foundUpvalue_spec h hnew hu hname
      · intro hnone
        have henc := h.enclosed
        have hlink := h.linked
        rw [ho] at henc
        rw [State.sites, ho] at hlink
        have hinner : Resolvable { s with fn := b, outer := rest } :=
          ⟨henc.2.2.2.2.mono (Nat.le_trans (Nat.le_add_right _ _) henc.1), hlink.2.2,
            hlink.2.1 b.site rfl⟩
        refine Via.next (Via.inEnclosing ho (Via.mono (ih hinner ?_) ?_))
        · rw [ho] at hn
          exact Nat.succ.inj hn
        · rintro m t - ⟨ht, hm⟩ hcap hvars
          -- back in the function itself
          have ht' : Resolvable { t with fn := s.fn, outer := t.fn :: t.outer } := by
            refine ⟨?_, ?_, ?_⟩
            · show Enclosed t.vars.size (s.fn :: t.fn :: t.outer)
              rw [hvars]
              exact henc.grow hcap ht.enclosed
            · show Linked t.vars (s.fn.site :: (t.fn :: t.outer).map Builder.site)
              have hl : Linked t.vars (s.fn.site :: (b :: rest).map Builder.site) := by
                rw [hvars]
                exact hlink
              exact hl.grow hcap ht.linked
            · show ∃ n, Placed t.vars s.fn.firstVar s.fn.active n
              rw [hvars]
              exact h.placed
          refine capture_spec ht' rfl ?_ hnone ?_
          · show newest? t.vars _ s.fn.firstVar s.fn.active = none
            rw [hvars]
            exact hnew
          · show Means t.vars _ name (d.within t.vars s.fn.firstVar s.fn.active) m
            rw [hvars] at hm ⊢
            exact hm

end

end LuaChunk.Compile
