import LuaChunk.Proofs.Machine.Targets

set_option autoImplicit false

namespace LuaChunk

open Grammar (ahead)

namespace Compile

variable {V H : Type} {W : World V H} {F : List Pending} {base n count : Nat} {e : Exp}
  {s₁ s₂ s s' : State} {m m' : Machine V H}
  {r : Nested} {ts : List Term} {term : Term} {rest : List Token}

def Has (W : World V H) (m : Machine V H) (n k : Nat) (vs : List V) : Prop :=
  ∀ j < k, m.reg (n + j) = vs.getD j (W.const .nil)

namespace Has

variable {k : Nat} {vs : List V} {x : V}

theorem same (h : Has W m n k vs) (hm : m.Same base m') (hb : n + k ≤ base) : Has W m' n k vs :=
  fun j hj => (hm.reg (n + j) (by omega)).trans (h j hj)

theorem less {k' : Nat} (h : Has W m n k vs) (hk : k' ≤ k) : Has W m n k' vs :=
  fun j hj => h j (Nat.lt_of_lt_of_le hj hk)

theorem next (h : Has W m n k vs) (hx : vs.getD k (W.const .nil) = x) :
    Has W (m.setReg (n + k) x) n (k + 1) vs := by
  intro j hj
  rcases Nat.lt_or_eq_of_le (Nat.le_of_lt_succ hj) with hj | rfl
  · rw [Machine.setReg_ne (by omega)]
    exact h j hj
  · rw [Machine.setReg_same, hx]

theorem fill (h : Has W m n k vs) (hk : vs.length ≤ k) (hlt : k < count) :
    Has W (m.fill (n + k) (n + k + (count - k) - 1) (W.const .nil)) n count vs := by
  intro j hj
  by_cases hjk : j < k
  · exact (if_neg (by omega)).trans (h j hjk)
  · rw [List.getD_eq_default _ _ (by omega)]
    exact if_pos (by omega)

end Has

/-- The first `k` of some values, or nil where there are none, are in registers from `n` on. -/
structure Held (W : World V H) (s s' : State) (n k : Nat) (ts : List Term) : Prop where
  keeps : Keeps s s'
  free : s'.fn.freeReg = n + k
  values : ∃ g, Effect W s s' g ∧ ∀ z, s'.Later z → ∀ m,
    Option.Rel (fun vs m' => m.Same n m' ∧ Has W m' n k vs) (ts.mapM (·.value? W z m)) (g m)

theorem reading_after {g : Machine V H → Option (Machine V H)}
    {L : Machine V H → Option (Machine V H × Loc V)} (m : Machine V H) :
    reading W (fun m => (g m).bind L) m = (g m).bind (reading W L) := by
  unfold reading
  rw [Option.bind_assoc]

theorem Held.reading (h : Held W s s₁ n ts.length ts) (hn : s.level ≤ n)
    (hx : Stands W F s₁ term e s₂) :
    ∃ L, Denotes W s s₂ (fun _ => True) e.kind L ∧ ∀ z, s₂.Later z → ∀ m,
      Option.Rel (fun vs p => m.Same n p.1 ∧ Has W p.1 n ts.length vs ∧
        vs.getD ts.length (W.const .nil) = p.2)
        ((ts ++ [term]).mapM (·.value? W z m)) (reading W L m) := by
  obtain ⟨g, hg, hrel⟩ := h.values
  obtain ⟨hread, hkeep, hplain, ⟨L, hd, hL⟩, -⟩ := hx
  have hval : Val F s₁.fn.freeReg ⟨e.kind, none, none⟩ s₂ := hplain ▸ hread.toVal
  have hfree := h.free
  refine ⟨_, hd.after hg, fun z hz m => ?_⟩
  have hlevel : z.level ≤ n := by
    rw [hz.keeps.level, hkeep.level, h.keeps.level]
    exact hn
  rw [reading_after, mapM_concat]
  have hm := hrel z (hz.after hkeep) m
  generalize hvs : ts.mapM (·.value? W z m) = vs?, g m = m? at hm
  cases hm with
  | none => exact .none
  | @some vs m' hm =>
    obtain ⟨hsame, hregs⟩ := hm
    have hread := reading_rel hval hd (hL z hz m')
    have hvalue : (term.loc? W z m').bind (·.read W m') = term.value? W z m :=
      Term.value?_same hz.base hlevel hsame
    rw [hvalue] at hread
    refine hread.map_left ?_
    rintro x p ⟨hp, rfl⟩
    have hlen : vs.length = ts.length := mapM_length hvs
    refine ⟨hsame.trans (hp.mono (by omega)), fun j hj => ?_, ?_⟩
    · rw [List.getD_append _ _ _ _ (by omega)]
      exact hregs.same hp (Nat.le_of_eq hfree.symm) j hj
    · rw [← hlen, List.getD_append_right _ _ _ _ (Nat.le_refl _), Nat.sub_self]
      rfl

theorem Held.push (h : Held W s s₁ n ts.length ts) (hn : s.level ≤ n)
    (hx : Stands W F s₁ term e s₂) :
    Via Keeps (toNextRegister e) s₂ fun _ s' => Held W s s' n (ts.length + 1) (ts ++ [term]) ∧
      Ready F s' := by
  obtain ⟨L, hd, hL⟩ := h.reading hn hx
  obtain ⟨kind, T, E⟩ := e
  obtain ⟨rfl, rfl⟩ : T = none ∧ E = none := by simpa using hx.plain
  have hval := hx.read.toVal
  refine ((toNextRegister_spec hval).and (toNextRegister_effect hval hd trivial)).mono ?_
  rintro q s' hk ⟨⟨rfl, hf, hv⟩, he⟩
  refine ⟨⟨h.keeps.trans (hx.keeps.trans hk), ?_, _, he, fun z hz m => ?_⟩, hv.ready hf⟩
  · rw [hf, h.free]
    rfl
  · refine (hL z (hz.after hk) m).map_right ?_
    rintro vs p ⟨hsame, hregs, hlast⟩
    rw [h.free]
    exact ⟨hsame.trans (.setReg (Nat.le_add_right ..)), hregs.next hlast⟩

theorem fillNil_effect {k : Nat} (hi : Inv F none (· < n + k) s) (hf : s.fn.freeReg = n + k)
    (hlt : k < count) :
    Via Keeps (do
      loadNil (← freeReg) (count - k)
      if k < count then reserve (count - k)
      else modifyFn fun f => { f with freeReg := f.freeReg - (k - count) }) s fun _ s' =>
        Effect W s s' fun m => some (m.fill (n + k) (n + k + (count - k) - 1) (W.const .nil)) := by
  obtain ⟨hfree, hstack⟩ := s.loadNil_fn s.fn.freeReg (count - k)
  refine Via.next (Via.freeReg (Via.next (Via.loadNil ?_)))
  rw [if_pos hlt]
  refine Via.reserve (by rw [hstack]; exact hi.maxStack_le) fun k' h₁ h₂ h₃ => ?_
  rw [hstack] at h₁
  rw [hfree] at h₂ ⊢
  have hload : Inv F none (· < n + count) ((s.raise k').loadNil s.fn.freeReg (count - k)) :=
    (hi.raise h₁ h₃).loadNil (by omega) h₂ fun r hr => by omega
  have hraise : Effect W s (s.raise k') some := .still rfl rfl fun _ _ h => h
  have heffect := hraise.trans (Effect.loadNil (W := W) hload.base.fits (by omega) (by omega))
  rw [← State.raise_loadNil] at heffect
  have hrun : Effect W s (((s.loadNil s.fn.freeReg (count - k)).raise k').setFree
      (s.fn.freeReg + (count - k))) _ :=
    heffect.andStill rfl rfl fun _ _ h => h
  refine hrun.congr fun m => ?_
  rw [hf]
  rfl

theorem Held.fillNil (h : Held W s s₁ n ts.length ts) (hi : Inv F none (· < n + ts.length) s₁)
    (hlt : ts.length < count) :
    Via Keeps (do
      loadNil (← freeReg) (count - ts.length)
      if ts.length < count then reserve (count - ts.length)
      else modifyFn fun f => { f with freeReg := f.freeReg - (ts.length - count) }) s₁ fun _ s' =>
        Held W s s' n count ts := by
  obtain ⟨hkeep, hf, g, hg, hrel⟩ := h
  refine ((fillNil_spec hi hf hlt).and (fillNil_effect (W := W) hi hf hlt)).mono ?_
  rintro _ s' hk ⟨hholds, he⟩
  refine ⟨hkeep.trans hk, hholds.1, _, hg.trans he, fun z hz m => ?_⟩
  have hm := hrel z (hz.after hk) m
  generalize hvs : ts.mapM (·.value? W z m) = vs?, g m = m? at hm
  cases hm with
  | none => exact .none
  | some hm =>
    exact .some ⟨hm.1.trans (.fill (by omega)), hm.2.fill (Nat.le_of_eq (mapM_length hvs)) hlt⟩

theorem Held.trim (h : Held W s s₁ n ts.length ts) (hle : ¬ ts.length < count) :
    Via Keeps (if ts.length < count then reserve (count - ts.length)
      else modifyFn fun f => { f with freeReg := f.freeReg - (ts.length - count) }) s₁ fun _ s' =>
        Held W s s' n count ts := by
  rw [if_neg hle]
  obtain ⟨hkeep, hfree, g, hg, hrel⟩ := h
  have hk : Keeps s₁ (s₁.setFree (s₁.fn.freeReg - (ts.length - count))) := Keeps.setFree _ _
  refine ⟨hk, hkeep.trans hk, ?_, g, hg.andStill rfl rfl fun _ _ h => h, fun z hz m => ?_⟩
  · show s₁.fn.freeReg - (ts.length - count) = _
    omega
  · exact (hrel z (hz.after hk) m).mono fun vs m' ⟨hm, hhas⟩ =>
      ⟨hm, hhas.less (Nat.le_of_not_lt hle)⟩

/-- Things with commas between them. -/
def separated {α : Type} (tokens : α → List Token) : List α → List Token
  | [] => []
  | a :: l => tokens a ++ l.flatMap fun b => .byte (byte ',') :: tokens b

def listTurn (r : Nested) (p : Nat × Exp) : M (Turn (Nat × Exp) (Nat × Exp)) := do
  if ← testNext (.char ',') then
    discard (toNextRegister p.2)
    let e ← expression r
    return .again (p.1 + 1, e)
  else return .done p

theorem expressionList_eq (r : Nested) : expressionList r = (do
    let first ← expression r
    repeatTurn (listTurn r) (1, first)) := rfl

def Gathered (W : World V H) (F : List Pending) (s : State) (n : Nat) (ts : List Term)
    (p : Nat × Exp) (s' : State) : Prop :=
  ∃ init last s₁, ts = init ++ [last] ∧ p.1 = ts.length ∧ Held W s s₁ n init.length init ∧
    Stands W F s₁ last p.2 s'

theorem avoids_comma {α : Type} {tokens : α → List Token} {l : List α}
    (hstop : Avoids afterTerm (ahead rest)) :
    Avoids afterTerm (ahead (l.flatMap (fun a => .byte (byte ',') :: tokens a) ++ rest)) := by
  cases l with
  | nil => exact hstop
  | cons a l => exact (by decide : Avoids afterTerm (.char ','))

theorem listTurns_gathered (hr : ReadsTerms W F r) (hn : s.level ≤ n)
    (hstop : Avoids afterTerm (ahead rest)) (hcomma : ahead rest ≠ .char ',')
    (k : Nat) {init : List Term} {last : Term} (h : Held W s s₁ n init.length init)
    (hx : Stands W F s₁ last e s₂)
    (hf : s₂.Faces (ts.flatMap (fun t => .byte (byte ',') :: t.tokens) ++ rest)) :
    Ensures (iterate (listTurn r) k (init.length + 1, e)) s₂ fun p s' =>
      Gathered W F s n (init ++ last :: ts) p s' ∧ s'.Faces rest := by
  induction ts generalizing k init last s₁ s₂ e with
  | nil =>
    cases k with
    | zero => exact fun a s' he => nomatch he
    | succ k =>
      have hdone : listTurn r (init.length + 1, e) s₂ = .ok (.done (init.length + 1, e)) s₂ := by
        unfold listTurn
        rw [bind_eq (testNext_false hf hcomma)]
        rfl
      exact .step (tokensTaken_eq s₂)
        (.step hdone (.pure ⟨⟨init, last, s₁, rfl, by simp, h, hx⟩, hf⟩))
  | cons t ts ih =>
    cases k with
    | zero => exact fun a s' he => nomatch he
    | succ k =>
      have hf' : s₂.Faces (.byte (byte ',') ::
          (t.tokens ++ (ts.flatMap (fun t => .byte (byte ',') :: t.tokens) ++ rest))) := by
        simpa using hf
      obtain ⟨x, hx₁, he, hf₁⟩ := testNext_passes hx.read.toVal.toBase hf'
      refine .step (tokensTaken_eq s₂)
        (.bind (Q := fun t' s' => ∃ e' s₃, t' = .again (init.length + 1 + 1, e') ∧
        Held W s s₃ n (init ++ [last]).length (init ++ [last]) ∧
        Stands W F s₃ t e' s' ∧ s'.Faces
          (ts.flatMap (fun t => .byte (byte ',') :: t.tokens) ++ rest)) ?_ ?_)
      · unfold listTurn
        have hpush : Via Keeps (discard (toNextRegister e)) (s₂.setLexer x) fun _ s' =>
            Held W s s' n (init.length + 1) (init ++ [last]) ∧ Ready F s' :=
          Via.discard (h.push hn (hx.setLexer hx₁))
        refine .step he (.bind (hpush.still hf₁) ?_)
        rintro _ s₃ ⟨⟨-, hheld, hready⟩, hf₃⟩
        refine .bind (hr t _ s₃ hready hf₃ (avoids_comma hstop)) ?_
        rintro e' s₄ ⟨hstands, hf₄⟩
        exact .pure ⟨e', s₃, rfl, by simpa using hheld, hstands, hf₄⟩
      · rintro _ s₄ ⟨e', s₃, rfl, hheld, hstands, hf₄⟩
        have hrest := ih k hheld hstands hf₄
        exact .advanced (by simpa using hrest)

theorem expressionList_gathered (hr : ReadsTerms W F r) (h : Ready F s)
    (hstop : Avoids afterTerm (ahead rest))
    (hcomma : ahead rest ≠ .char ',') (hf : s.Faces (separated Term.tokens (term :: ts) ++ rest)) :
    Ensures (expressionList r) s fun p s' => Gathered W F s s.fn.freeReg (term :: ts) p s' ∧
      s'.Faces rest := by
  rw [expressionList_eq]
  have hf' : s.Faces (term.tokens ++
      (ts.flatMap (fun t => .byte (byte ',') :: t.tokens) ++ rest)) := by
    simpa [separated] using hf
  refine .bind (hr term _ s h hf' (avoids_comma hstop)) ?_
  rintro e s₁ ⟨hx, hf₁⟩
  refine .step (show (get : M State) s₁ = .ok s₁ s₁ from rfl) ?_
  have hnone : Held W s s s.fn.freeReg ([] : List Term).length [] :=
    ⟨Keeps.refl s, rfl, some, Effect.refl,
      fun z _ m => .some ⟨.refl _ _, fun j hj => absurd hj (Nat.not_lt_zero j)⟩⟩
  exact listTurns_gathered hr h.low hstop hcomma _ hnone hx hf₁

theorem Stands.not_multi (h : Stands W F s term e s') : e.isMulti = false := by
  obtain ⟨L, hd, -⟩ := h.finds
  obtain ⟨kind, T, E⟩ := e
  cases hd with
  | opened => rfl
  | here hk => cases kind <;> first | rfl | cases hk

theorem adjustValues_held {p : Nat × Exp} (h : Gathered W F s n ts p s₁) (hn : s.level ≤ n) :
    Via Keeps (adjustValues count p) s₁ fun _ s' => Held W s s' n count ts := by
  obtain ⟨init, last, s₀, rfl, hlen, hheld, hx⟩ := h
  obtain ⟨k, e⟩ := p
  obtain rfl : k = (init ++ [last]).length := hlen
  have hmulti : ¬ e.isMulti = true := by simp [hx.not_multi]
  have hvoid : (!e.isVoid) = true := by simp [hx.read.toVal.isVoid]
  unfold adjustValues
  refine Via.ite (fun hm => absurd hm hmulti) fun _ => Via.ite (fun _ => ?_) fun hv =>
    absurd hvoid hv
  have hlast : (init ++ [last]).length = init.length + 1 := by simp
  refine Via.next (Via.discard ((hheld.push hn hx).mono fun q s₂ _ ⟨hall, hready⟩ => ?_))
  rw [← hlast] at hall
  have hi := hready.inv
  rw [hall.free] at hi
  exact Via.ite (fun hlt => hall.fillNil hi hlt) fun hle => hall.trim hle

end Compile

end LuaChunk
