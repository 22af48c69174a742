import LuaChunk.Proofs.Code.Cert

set_option autoImplicit false

namespace LuaChunk

open JumpList (Code IsOp Chain)

namespace Cert

variable {D : Nat → Nat → Prop} {code code' : Code} {params : Nat} {P P' Q : List Pending}
  {o o' : Option Nat} {live live' : Nat → Prop} {aims : List (Nat × Nat)} {L : Nat}

theorem reframe (h : Cert D code params P o live)
    (hown : ∀ p, p ∈ Pending.ownedBy P → p ∈ Pending.ownedBy P')
    (htab : ∀ p r, .table p r ∈ P → .table p r ∈ P') (ha : ∀ x ∈ P', x.Assigned D)
    (htests : ∀ q, Pending.Listed P' (q + 1) → Pending.Listed P (q + 1) ∨ ¬ IsOp code q .testSet)
    (hgotos : ∀ pc l, .goto pc l ∈ P' → ∃ l', .goto pc l' ∈ P)
    (htargets : ∀ t l, .target t l ∈ P' → ∃ l', .target t l' ∈ P) :
    Cert D code params P' o live := by
  have hst : ∀ {p q ws}, Step code P' p q ws → Step code P p q ws := by
    rintro p q ws ⟨i, hi, ho, hq⟩
    exact ⟨i, hi, fun h => ho (hown p h), hq⟩
  refine ⟨h.entry, h.small, ?_, ?_, ?_, ?_, ha, ?_, ?_, ?_, h.live⟩
  · intro p i hi ht
    exact h.reads p i hi fun q r hx => ht q r (htab q r hx)
  · intro p q ws hs
    exact h.step p q ws (hst hs)
  · intro p q ws hs
    exact h.bounded p q ws (hst hs)
  · intro p q ws hs
    exact h.enters p q ws (hst hs)
  · intro q i hl hi hop
    rcases htests q hl with hl | hn
    · exact h.tests q i hl hi hop
    · exact absurd ⟨i, hi, hop⟩ hn
  · intro pc l hx
    obtain ⟨l', hx⟩ := hgotos pc l hx
    refine ⟨fun p ws hs => (h.rooms pc l' hx).1 p ws (hst hs), ?_⟩
    intro t lt ht
    obtain ⟨lt', ht⟩ := htargets t lt ht
    exact (h.rooms pc l' hx).2 t lt' ht
  · intro pc hpc
    exact ⟨(h.straight pc hpc).1, fun p q ws hs => (h.straight pc hpc).2 p q ws (hst hs)⟩

/-- Operands change such that no register is read and no way taken that was not before. -/
structure Narrowed (code code' : Code) (P : List Pending) : Prop where
  demand : ∀ (k : Nat) (i' : Instruction), code'[k]? = some i' →
    ∃ i, code[k]? = some i ∧ i'.demand = i.demand
  reads : ∀ (k : Nat) (i' : Instruction), code'[k]? = some i' →
    ∃ i, code[k]? = some i ∧ ∀ r ∈ i'.reads, r ∈ i.reads
  tests : ∀ (q : Nat) (i' : Instruction), Pending.Listed P (q + 1) → code'[q]? = some i' →
    i'.opcode? = some .testSet →
      ∃ i, code[q]? = some i ∧ i.opcode? = some .testSet ∧ i'.a = i.a
  step : ∀ p q ws', Step code' P p q ws' → ∃ ws, Step code P p q ws ∧
    ∀ r ∈ ws, r ∈ ws' ∨ Instruction.noRegister ≤ r

theorem narrow (h : Cert D code params P o live) (hs : code'.size = code.size)
    (hn : Narrowed code code' P) : Cert D code' params P o live := by
  refine ⟨h.entry, h.small, ?_, ?_, ?_, ?_, h.assigned, ?_, ?_, ?_, ?_⟩
  · intro p i' hi' ht r hr
    obtain ⟨i, hi, hsub⟩ := hn.reads p i' hi'
    exact h.reads p i hi ht r (hsub r hr)
  · intro p q ws' hst r hr
    obtain ⟨ws, hst, hsub⟩ := hn.step p q ws' hst
    rcases h.step p q ws hst r hr with hd | hw
    · exact .inl hd
    · rcases hsub r hw with hw | hw
      · exact .inr hw
      · have := h.small q r hr
        omega
  · intro p q ws' hst
    obtain ⟨ws, hst, -⟩ := hn.step p q ws' hst
    rw [hs]
    exact h.bounded p q ws hst
  · intro p q ws' hst hne k i' hk hi'
    obtain ⟨ws, hst, -⟩ := hn.step p q ws' hst
    obtain ⟨i, hi, hd⟩ := hn.demand k i' hi'
    rw [hd]
    exact h.enters p q ws hst hne k i hk hi
  · intro q i' hl hi' hop
    obtain ⟨i, hi, hop, ha⟩ := hn.tests q i' hl hi' hop
    rw [ha]
    exact h.tests q i hl hi hop
  · intro pc l hx
    refine ⟨?_, (h.rooms pc l hx).2⟩
    intro p ws' hst
    obtain ⟨ws, hst, -⟩ := hn.step p _ ws' hst
    exact (h.rooms pc l hx).1 p ws hst
  · intro pc hpc
    refine ⟨(h.straight pc hpc).1, ?_⟩
    intro p q ws' hst
    obtain ⟨ws, hst, -⟩ := hn.step p q ws' hst
    exact (h.straight pc hpc).2 p q ws hst
  · intro r hr
    rw [hs]
    exact h.live r hr

theorem editAt {p : Nat} {i : Instruction} {f : Instruction → Instruction}
    (h : Cert D code params P o live) (hi : code[p]? = some i) (hop : (f i).opcode? = i.opcode?)
    (hd : (f i).demand = i.demand) (ha : (f i).a = i.a) (hreads : (f i).reads = i.reads)
    (hflow : (f i).flow p = i.flow p ∨ p ∈ Pending.ownedBy P) :
    Cert D (code.modify p f) params P o live := by
  have hcases : ∀ (q : Nat) (k : Instruction), (code.modify p f)[q]? = some k →
      code[q]? = some k ∨ q = p ∧ k = f i := by
    intro q k hk
    by_cases hq : p = q
    · subst hq
      rw [JumpList.getElem?_modify_self hi f] at hk
      exact .inr ⟨rfl, (Option.some.inj hk).symm⟩
    · rw [JumpList.getElem?_modify_ne hq] at hk
      exact .inl hk
  refine h.narrow (by simp) ⟨?_, ?_, ?_, ?_⟩
  · intro k i' hi'
    rcases hcases k i' hi' with hk | ⟨rfl, rfl⟩
    · exact ⟨i', hk, rfl⟩
    · exact ⟨i, hi, hd⟩
  · intro k i' hi'
    rcases hcases k i' hi' with hk | ⟨rfl, rfl⟩
    · exact ⟨i', hk, fun r hr => hr⟩
    · exact ⟨i, hi, by rw [hreads]; exact fun r hr => hr⟩
  · intro q i' _ hi' hop'
    rcases hcases q i' hi' with hk | ⟨rfl, rfl⟩
    · exact ⟨i', hk, hop', rfl⟩
    · exact ⟨i, hi, hop.symm.trans hop', ha⟩
  · rintro q q' ws ⟨i', hi', hown, hq⟩
    rcases hcases q i' hi' with hk | ⟨rfl, rfl⟩
    · exact ⟨ws, ⟨i', hk, hown, hq⟩, fun r hr => .inl hr⟩
    · rcases hflow with hflow | hp
      · rw [hflow] at hq
        exact ⟨ws, ⟨i, hi, hown, hq⟩, fun r hr => .inl hr⟩
      · exact absurd hp hown

theorem release {p : Nat} {x : Pending} {i : Instruction}
    (h : Cert D code params (x :: Q) none live)
    (hi : code[p]? = some i) (hown : x.owned = [p]) (htab : ∀ q r, x ≠ .table q r)
    (hflow : ∀ q ws, (q, ws) ∈ i.flow p → q ≤ code.size ∧ (∀ r, D q r → D p r ∨ r ∈ ws) ∧
      (q ≠ p + 1 → ∀ (k : Nat) (j : Instruction), k + 1 = q → code[k]? = some j →
        j.demand = .free ∨ j.demand = .loadTrue) ∧ ∀ pc l, .goto pc l ∈ Q → q ≠ pc + 1) :
    Cert D code params Q none live := by
  have hstep : ∀ p' q ws, Step code Q p' q ws →
      Step code (x :: Q) p' q ws ∨ p' = p ∧ (q, ws) ∈ i.flow p := by
    rintro p' q ws ⟨k, hk, ho, hq⟩
    by_cases hp : p' = p
    · subst hp
      cases hk.symm.trans hi
      exact .inr ⟨rfl, hq⟩
    · refine .inl ⟨k, hk, ?_, hq⟩
      rw [Pending.ownedBy_cons, hown]
      intro h'
      rcases List.mem_append.1 h' with h' | h'
      · exact hp (List.mem_singleton.1 h')
      · exact ho h'
  refine ⟨h.entry, h.small, ?_, ?_, ?_, ?_, fun y hy => h.assigned y (List.mem_cons_of_mem _ hy),
    ?_,
    ?_, by simp, h.live⟩
  · intro p' k hk ht
    refine h.reads p' k hk ?_
    intro q r hx
    rcases List.mem_cons.1 hx with hx | hx
    · exact absurd hx.symm (htab q r)
    · exact ht q r hx
  · intro p' q ws hst r hr
    rcases hstep p' q ws hst with hst | ⟨rfl, hq⟩
    · exact h.step p' q ws hst r hr
    · exact (hflow q ws hq).2.1 r hr
  · intro p' q ws hst
    rcases hstep p' q ws hst with hst | ⟨rfl, hq⟩
    · exact h.bounded p' q ws hst
    · exact (hflow q ws hq).1
  · intro p' q ws hst hne
    rcases hstep p' q ws hst with hst | ⟨rfl, hq⟩
    · exact h.enters p' q ws hst hne
    · exact (hflow q ws hq).2.2.1 hne
  · rintro q k ⟨ms, l, hx, hm⟩
    exact h.tests q k ⟨ms, l, List.mem_cons_of_mem _ hx, hm⟩
  · intro pc l hx
    obtain ⟨hno, htg⟩ := h.rooms pc l (List.mem_cons_of_mem _ hx)
    refine ⟨?_, fun t lt ht => htg t lt (List.mem_cons_of_mem _ ht)⟩
    intro p' ws hst
    rcases hstep p' _ ws hst with hst | ⟨rfl, hq⟩
    · exact hno p' ws hst
    · exact (hflow _ ws hq).2.2.2 pc l hx rfl

theorem rethread {ms : List Nat} {l : Nat} (h : Cert D code params (.list ms l :: Q) o live)
    (hops : ∀ p ∈ ms, IsOp code p .jmp) (hj : JumpList.Joined code code' ms) :
    Cert D code' params (.list ms l :: Q) o live := by
  have hcases : ∀ (p : Nat) (i' : Instruction), code'[p]? = some i' →
      code[p]? = some i' ∨ p ∈ ms ∧ ∃ i, code[p]? = some i ∧ i.opcode? = some .jmp ∧
        i'.opcode? = some .jmp := by
    intro p i' hi'
    by_cases hp : p ∈ ms
    · obtain ⟨i, hi, hop⟩ := hops p hp
      obtain ⟨w, hw | hw⟩ := hj.jump p i hp hi
      · cases hi'.symm.trans hw
        exact .inr ⟨hp, i, hi, hop, by simpa using hop⟩
      · cases hi'.symm.trans hw
        exact .inl hi
    · exact .inl ((hj.same p hp).symm.trans hi')
  refine h.narrow hj.size ⟨?_, ?_, ?_, ?_⟩
  · intro k i' hi'
    rcases hcases k i' hi' with hi | ⟨-, i, hi, hop, hop'⟩
    · exact ⟨i', hi, rfl⟩
    · refine ⟨i, hi, ?_⟩
      rw [Instruction.demand_eq hop, Instruction.demand_eq hop']
      rfl
  · intro k i' hi'
    rcases hcases k i' hi' with hi | ⟨-, i, hi, hop, hop'⟩
    · exact ⟨i', hi, fun r hr => hr⟩
    · refine ⟨i, hi, ?_⟩
      rw [Instruction.reads_eq hop']
      exact fun r hr => absurd hr List.not_mem_nil
  · intro q i' _ hi' hop'
    rcases hcases q i' hi' with hi | ⟨-, i, -, -, hop⟩
    · exact ⟨i', hi, hop', rfl⟩
    · cases hop.symm.trans hop'
  · rintro p q ws ⟨i', hi', hown, hq⟩
    rcases hcases p i' hi' with hi | ⟨hp, -⟩
    · exact ⟨ws, ⟨i', hi, hown, hq⟩, fun r hr => .inl hr⟩
    · exact absurd (Pending.mem_ownedBy (List.mem_cons_self ..) hp) hown

theorem redirected_cases {i : Instruction} (hop : i.opcode? = some .testSet) (hb : i.b ≤ 255)
    (reg : Option Nat) (hr : ∀ ρ, reg = some ρ → ρ ≤ 255) :
    (JumpList.redirected i reg).reads = [i.b] ∧
      ((JumpList.redirected i reg).opcode? = some .test ∧ (∀ ρ, reg = some ρ → ρ = i.b) ∨
      (JumpList.redirected i reg).opcode? = some .testSet ∧
        ∃ ρ, reg = some ρ ∧ (JumpList.redirected i reg).a = ρ) := by
  have hk : i.k ≤ 1 := by
    have : i.k < 2 := Nat.mod_lt _ (by decide)
    omega
  have ho : (Opcode.test.abck i.b 0 0 i.k).opcode? = some .test := by simp [Instruction.opcode?]
  have ha := (@Draft.get_abck .test i.b 0 0 i.k (Draft.fits_abck.2 ⟨hb, Nat.zero_le 255,
    Nat.zero_le 255, hk⟩)).1
  simp only [Draft.word] at ha
  have hplain : (Opcode.test.abck i.b 0 0 i.k).reads = [i.b] := by
    rw [Instruction.reads_eq ho]
    exact congrArg (fun r => [r]) ha
  unfold JumpList.redirected
  cases reg with
  | none => exact ⟨hplain, .inl ⟨ho, by simp⟩⟩
  | some ρ =>
    simp only
    split
    · rename_i hρ
      refine ⟨hplain, .inl ⟨ho, ?_⟩⟩
      rintro _ ⟨⟩
      exact hρ
    · have ho : (i.setA ρ).opcode? = some .testSet := by
        rw [Instruction.setA, Instruction.opcode?_set i _ (by decide), hop]
      have hρ := hr ρ rfl
      have ha : (i.setA ρ).a = ρ := Instruction.get_set_fits i
        ((Instruction.Field.fits_iff _ _).2
          (by simp only [Instruction.Field.limit, Instruction.Field.a, Nat.pow_eq]; omega))
        (by decide) (by decide)
      have hb' : (i.setA ρ).b = i.b := Instruction.get_set_apart i _ (by decide)
      refine ⟨?_, .inr ⟨ho, ρ, rfl, ha⟩⟩
      rw [Instruction.reads_eq ho, show (i.setA ρ).readsOf .testSet = [(i.setA ρ).b] from rfl, hb']

theorem demand_redirected {i : Instruction} (hop : i.opcode? = some .testSet) (reg : Option Nat) :
    (JumpList.redirected i reg).demand = i.demand :=
  (Shape.redirected_alike hop reg).demand

theorem retest {ms : List Nat} (h : Cert D code params P o live)
    (hms : ∀ m ∈ ms, Pending.Listed P m) (hr : JumpList.Retested code code' ms none)
    (hb : ∀ (p : Nat) (i : Instruction), code[p]? = some i → i.opcode? = some .testSet →
    i.b ≤ 255) :
    Cert D code' params P o live := by
  have hcases : ∀ (p : Nat) (i' : Instruction), code'[p]? = some i' → code[p]? = some i' ∨
      p + 1 ∈ ms ∧ ∃ i, code[p]? = some i ∧ i.opcode? = some .testSet ∧
        i' = JumpList.redirected i none := by
    intro p i' hi'
    by_cases hp : p + 1 ∈ ms ∧ IsOp code p .testSet
    · obtain ⟨hm, i, hi, hop⟩ := hp
      rw [hr.test p i hm hi hop] at hi'
      cases hi'
      exact .inr ⟨hm, i, hi, hop, rfl⟩
    · exact .inl ((hr.same p fun hm ho => hp ⟨hm, ho⟩).symm.trans hi')
  refine h.narrow hr.size ⟨?_, ?_, ?_, ?_⟩
  · intro k i' hi'
    rcases hcases k i' hi' with hi | ⟨-, i, hi, hop, rfl⟩
    · exact ⟨i', hi, rfl⟩
    · exact ⟨i, hi, demand_redirected hop none⟩
  · intro k i' hi'
    rcases hcases k i' hi' with hi | ⟨-, i, hi, hop, rfl⟩
    · exact ⟨i', hi, fun r hr => hr⟩
    · refine ⟨i, hi, ?_⟩
      rw [(redirected_cases hop (hb k i hi hop) none (by simp)).1, Instruction.reads_eq hop]
      exact fun r hr => hr
  · intro q i' _ hi' hop'
    rcases hcases q i' hi' with hi | ⟨-, i, hi, hop, rfl⟩
    · exact ⟨i', hi, hop', rfl⟩
    · rcases (redirected_cases hop (hb q i hi hop) none (by simp)).2 with ⟨h, -⟩ | ⟨-, ρ, h, -⟩
      · cases hop'.symm.trans h
      · cases h
  · rintro p q ws ⟨i', hi', hown', hq⟩
    rcases hcases p i' hi' with hi | ⟨hm, i, hi, hop, rfl⟩
    · exact ⟨ws, ⟨i', hi, hown', hq⟩, fun r hr => .inl hr⟩
    · have ha := h.tests p i (hms _ hm) hi hop
      rcases (redirected_cases hop (hb p i hi hop) none (by simp)).2 with ⟨ho, -⟩ | ⟨-, ρ, h, -⟩
      · rw [Instruction.flow_eq ho] at hq
        rcases List.mem_cons.1 hq with hq | hq
        · cases hq
          refine ⟨[i.a], ⟨i, hi, hown', ?_⟩, ?_⟩
          · rw [Instruction.flow_eq hop]
            exact List.mem_cons_self ..
          · intro r hr
            rw [List.mem_singleton.1 hr, ha]
            exact .inr (Nat.le_refl _)
        · cases List.mem_singleton.1 hq
          refine ⟨[], ⟨i, hi, hown', ?_⟩, by simp⟩
          rw [Instruction.flow_eq hop]
          exact List.mem_cons_of_mem _ (List.mem_singleton.2 rfl)
      · cases h

theorem aim {ms : List Nat} {l vt : Nat} {reg plain : Option Nat} {new : List (Nat × Nat)}
    (h : Cert D code params (.list ms l :: Q) none live)
    (hs : Shape code aims L (.list ms l :: Q) none)
    (ha : JumpList.Aimed code code' ms vt reg plain new)
    (hv : (∃ q, q + 1 ∈ ms ∧ IsOp code q .testSet) →
      ∃ lt, .target vt lt ∈ Q ∧ ∀ r < lt, r < l ∨ reg = some r)
    (hp : ∀ t, plain = some t → ∃ lt, .target t lt ∈ Q ∧ lt ≤ l)
    (hreg : ∀ ρ, reg = some ρ → ρ < 255)
    (hb : ∀ (p : Nat) (i : Instruction), code[p]? = some i → i.opcode? = some .testSet →
    i.b ≤ 255) :
    Cert (fun p r => D p r ∨ reg = some r ∧ p ∈ ms ∧ ∃ q, p = q + 1 ∧ IsOp code q .testSet) code'
      params Q none live := by
  -- a position that a value is stored at is entered only from its test
  have hraised : ∀ p, (∃ q, p = q + 1 ∧ IsOp code q .testSet) →
      ∀ (k : Nat) (i : Instruction), k + 1 = p → code[k]? = some i →
        ¬ (i.demand = .free ∨ i.demand = .loadTrue) := by
    rintro _ ⟨q, rfl, j, hj, hop⟩ k i hk hi
    obtain rfl : k = q := by omega
    cases hi.symm.trans hj
    rw [Instruction.demand_eq hop]
    rintro (h | h) <;> cases h
  have htarget : ∀ t lt, .target t lt ∈ Q → ¬ ∃ q, t = q + 1 ∧ IsOp code q .testSet := by
    rintro t lt ht ⟨q, hq, i, hi, hop⟩
    exact hraised t ⟨q, hq, i, hi, hop⟩ q i hq.symm hi
      ((hs.holds _ (List.mem_cons_of_mem _ ht)).2 q i hq.symm hi)
  have hops : ∀ p ∈ ms, IsOp code p .jmp :=
    fun p hp => Chain.isOp (hs.holds _ (List.mem_cons_self ..)) hp
  have hcases : ∀ (p : Nat) (i' : Instruction), code'[p]? = some i' →
      (code[p]? = some i' ∧ p ∉ ms ∧ ¬ (p + 1 ∈ ms ∧ IsOp code p .testSet)) ∨
      (p ∈ ms ∧ i'.opcode? = some .jmp ∧ ∃ t lt : Nat, i'.sj = (t : Int) - (p + 1) ∧
      .target t lt ∈ Q ∧
        ∀ r < lt, r < l ∨ reg = some r ∧ ∃ q, p = q + 1 ∧ IsOp code q .testSet) ∨
      (p + 1 ∈ ms ∧ ∃ i, code[p]? = some i ∧ i.opcode? = some .testSet ∧
        i' = JumpList.redirected i reg) := by
    intro p i' hi'
    by_cases hm : p ∈ ms
    · right; left
      obtain ⟨i, hi, hop⟩ := hops p hm
      obtain ⟨t, -, ht, hsj, hval, hpl⟩ := ha.jump p i hm hi
      cases hi'.symm.trans ht
      refine ⟨hm, by simpa using hop, t, ?_⟩
      by_cases hq : ∃ q, p = q + 1 ∧ IsOp code q .testSet
      · obtain ⟨q, hpq, hts⟩ := hq
        obtain ⟨lt, hx, hlt⟩ := hv ⟨q, hpq ▸ hm, hts⟩
        refine ⟨lt, hsj, by rw [hval ⟨q, hpq, hts⟩]; exact hx, ?_⟩
        exact fun r hr => (hlt r hr).imp_right fun h => ⟨h, q, hpq, hts⟩
      · obtain ⟨lt, hx, hlt⟩ := hp t (hpl fun q hpq hts => hq ⟨q, hpq, hts⟩)
        exact ⟨lt, hsj, hx, fun r hr => .inl (by omega)⟩
    · by_cases ht : p + 1 ∈ ms ∧ IsOp code p .testSet
      · right; right
        obtain ⟨hm', i, hi, hop⟩ := ht
        rw [ha.test p i hm' hi hop] at hi'
        cases hi'
        exact ⟨hm', i, hi, hop, rfl⟩
      · exact .inl ⟨(ha.same p hm fun h h' => ht ⟨h, h'⟩).symm.trans hi', hm, ht⟩
  have hdemand : ∀ (k : Nat) (i' : Instruction), code'[k]? = some i' →
      ∃ i, code[k]? = some i ∧ i'.demand = i.demand := by
    intro k i' hi'
    rcases hcases k i' hi' with ⟨hi, -⟩ | ⟨hm, hop', -⟩ | ⟨-, i, hi, hop, rfl⟩
    · exact ⟨i', hi, rfl⟩
    · obtain ⟨i, hi, hop⟩ := hops k hm
      refine ⟨i, hi, ?_⟩
      rw [Instruction.demand_eq hop, Instruction.demand_eq hop']
      rfl
    · exact ⟨i, hi, demand_redirected hop reg⟩
  have hown : ∀ p, p ∉ Pending.ownedBy Q → p ∉ ms → p ∉ Pending.ownedBy (.list ms l :: Q) := by
    intro p h₁ h₂
    rw [Pending.ownedBy_cons, List.mem_append]
    exact fun h => h.elim h₂ h₁
  -- each step is one that was there, or that of a jump that was sent to its destination
  have hstep : ∀ p q ws, Step code' Q p q ws →
      (∃ ws', Step code (.list ms l :: Q) p q ws' ∧ ∀ r ∈ ws', r ∈ ws ∨
        Instruction.noRegister ≤ r) ∨
      (p ∈ ms ∧ ∃ lt, .target q lt ∈ Q ∧
        ∀ r < lt, r < l ∨ reg = some r ∧ ∃ q, p = q + 1 ∧ IsOp code q .testSet) := by
    rintro p q ws ⟨i', hi', hown', hq⟩
    rcases hcases p i' hi' with ⟨hi, hm, -⟩ | ⟨hm, hop', t, lt, hsj, hx, hlt⟩ | ⟨hm, i, hi, hop,
        rfl⟩
    · exact .inl ⟨ws, ⟨i', hi, hown p hown' hm, hq⟩, fun r hr => .inl hr⟩
    · rw [Instruction.flow_eq hop'] at hq
      obtain ⟨rfl, -⟩ := Prod.mk.inj (List.mem_singleton.1 hq)
      right
      refine ⟨hm, lt, ?_, hlt⟩
      rw [hsj, show ((p : Int) + 1 + ((t : Int) - (p + 1))).toNat = t by omega]
      exact hx
    · left
      have hm' : p ∉ ms := by
        intro hm'
        cases (hops p hm').unique ⟨i, hi, hop⟩
      have hst : ∀ ws', (q, ws') ∈ i.flow p → Step code (.list ms l :: Q) p q ws' :=
        fun ws' h => ⟨i, hi, hown p hown' hm', h⟩
      rw [Instruction.flow_eq hop] at hst
      have hna := h.tests p i ⟨ms, l, List.mem_cons_self .., hm⟩ hi hop
      obtain ⟨-, ⟨ho, -⟩ | ⟨ho, ρ, -, -⟩⟩ :=
        redirected_cases hop (hb p i hi hop) reg (fun ρ h => Nat.le_of_lt (hreg ρ h))
      · rw [Instruction.flow_eq ho] at hq
        rcases List.mem_cons.1 hq with hq | hq
        · cases hq
          refine ⟨[i.a], hst _ (List.mem_cons_self ..), ?_⟩
          intro r hr
          rw [List.mem_singleton.1 hr, hna]
          exact .inr (Nat.le_refl _)
        · cases List.mem_singleton.1 hq
          exact ⟨[], hst _ (List.mem_cons_of_mem _ (List.mem_singleton.2 rfl)), by simp⟩
      · rw [Instruction.flow_eq ho] at hq
        rcases List.mem_cons.1 hq with hq | hq
        · cases hq
          refine ⟨[i.a], hst _ (List.mem_cons_self ..), ?_⟩
          intro r hr
          rw [List.mem_singleton.1 hr, hna]
          exact .inr (Nat.le_refl _)
        · cases List.mem_singleton.1 hq
          exact ⟨[], hst _ (List.mem_cons_of_mem _ (List.mem_singleton.2 rfl)), by simp⟩
  have hassigned : ∀ m ∈ ms, ∀ r < l, D m r := h.assigned _ (List.mem_cons_self ..)
  refine ⟨?_, ?_, ?_, ?_, ?_, ?_, ?_, ?_, ?_, by simp, ?_⟩
  · rintro r (hr | ⟨-, -, q, hq, -⟩)
    · exact h.entry r hr
    · omega
  · rintro p r (hr | ⟨hr, -⟩)
    · exact h.small p r hr
    · exact hreg r hr
  · intro p i' hi' ht r hr
    rcases hcases p i' hi' with ⟨hi, -⟩ | ⟨-, hop', -⟩ | ⟨-, i, hi, hop, rfl⟩
    · refine .inl (h.reads p i' hi ?_ r hr)
      intro q r hx
      exact ht q r (by simpa using hx)
    · rw [Instruction.reads_eq hop'] at hr
      cases hr
    · rw [(redirected_cases hop (hb p i hi hop) reg fun ρ h => Nat.le_of_lt (hreg ρ h)).1] at hr
      refine .inl (h.reads p i hi ?_ r ?_)
      · intro q r hx
        exact ht q r (by simpa using hx)
      · rw [Instruction.reads_eq hop]
        exact hr
  · intro p q ws hst r hr
    rcases hstep p q ws hst with ⟨ws', hst', hsub⟩ | ⟨hm, lt, hx, hlt⟩
    · rcases hr with hr | ⟨hr, hm, hq⟩
      · rcases h.step p q ws' hst' r hr with hd | hw
        · exact .inl (.inl hd)
        · rcases hsub r hw with hw | hw
          · exact .inr hw
          · have := h.small q r hr
            omega
      · -- the value is stored by the test right before
        by_cases hpq : q = p + 1
        · subst hpq
          obtain ⟨q, hpq, i, hi, hop⟩ := hq
          obtain rfl : p = q := by omega
          have hb := hb p i hi hop
          obtain ⟨i', hi', hown', hq⟩ := hst
          rw [ha.test p i hm hi hop] at hi'
          cases hi'
          obtain ⟨-, ⟨ho, heq⟩ | ⟨ho, ρ, hρ, hra⟩⟩ :=
            redirected_cases hop hb reg (fun ρ h => Nat.le_of_lt (hreg ρ h))
          · left; left
            refine h.reads p i hi ?_ r ?_
            · intro q r' hx heq
              have := (hs.holds _ hx).2
              rw [← heq] at this
              cases this.unique ⟨i, hi, hop⟩
            · rw [Instruction.reads_eq hop, heq r hr]
              exact List.mem_singleton.2 rfl
          · right
            rw [Instruction.flow_eq ho] at hq
            rcases List.mem_cons.1 hq with hq | hq
            · cases hq
              rw [hra]
              rw [hr] at hρ
              cases hρ
              exact List.mem_singleton.2 rfl
            · have := (Prod.mk.inj (List.mem_singleton.1 hq)).1
              omega
        · obtain ⟨k, hk, i, hi, hop⟩ := hq
          exact absurd (h.enters p q ws' hst' hpq k i hk.symm hi)
            (hraised q ⟨k, hk, i, hi, hop⟩ k i hk.symm hi)
    · rcases hr with hr | ⟨-, -, hq⟩
      · have hr' := h.assigned _ (List.mem_cons_of_mem _ hx) r hr
        rcases hlt r hr' with hr' | ⟨hr', hq⟩
        · exact .inl (.inl (hassigned p hm r hr'))
        · exact .inl (.inr ⟨hr', hm, hq⟩)
      · exact absurd hq (htarget q lt hx)
  · intro p q ws hst
    rw [ha.size]
    rcases hstep p q ws hst with ⟨ws', hst', -⟩ | ⟨-, lt, hx, -⟩
    · exact h.bounded p q ws' hst'
    · exact Nat.le_trans (hs.holds _ (List.mem_cons_of_mem _ hx)).1 hs.last
  · intro p q ws hst hne k i' hk hi'
    obtain ⟨i, hi, hd⟩ := hdemand k i' hi'
    rw [hd]
    rcases hstep p q ws hst with ⟨ws', hst', -⟩ | ⟨-, lt, hx, -⟩
    · exact h.enters p q ws' hst' hne k i hk hi
    · exact (hs.holds _ (List.mem_cons_of_mem _ hx)).2 k i hk hi
  · intro x hx
    have hh := hs.holds x (List.mem_cons_of_mem _ hx)
    have hx' := h.assigned x (List.mem_cons_of_mem _ hx)
    cases x with
    | list ms' l' => exact fun m hm r hr => .inl (hx' m hm r hr)
    | goto pc l' => exact fun r hr => .inl (hx' r hr)
    | target t lt =>
      rintro r (hr | ⟨-, -, hq⟩)
      · exact hx' r hr
      · exact absurd hq (htarget t lt hx)
    | table pc ρ =>
      rintro r (hr | ⟨-, -, q, hq, ho⟩)
      · exact (hx' r hr).imp_left .inl
      · obtain rfl : q = pc + 1 := by omega
        cases hh.2.unique ho
    | loop pc base l' g =>
      refine ⟨?_, fun r hr => .inl (hx'.2 r hr)⟩
      rintro r (hr | ⟨-, -, q, hq, i, hi, hop⟩)
      · exact hx'.1 r hr
      · obtain rfl : q = pc := by omega
        obtain ⟨j, hj, -, hopj⟩ := hh
        cases hi.symm.trans hj
        rw [hop] at hopj
        cases g <;> cases hopj
  · rintro q i' ⟨ms', l', hx, hm⟩ hi' hop'
    have hn : q + 1 ∉ ms := fun hm' => hs.disjoint hx hm' hm
    rcases hcases q i' hi' with ⟨hi, -⟩ | ⟨-, hop, -⟩ | ⟨hm', -⟩
    · exact h.tests q i' ⟨ms', l', List.mem_cons_of_mem _ hx, hm⟩ hi hop'
    · cases hop.symm.trans hop'
    · exact absurd hm' hn
  · intro pc l' hx
    obtain ⟨hno, htg⟩ := h.rooms pc l' (List.mem_cons_of_mem _ hx)
    refine ⟨?_, fun t lt ht => htg t lt (List.mem_cons_of_mem _ ht)⟩
    intro p ws hst
    rcases hstep p _ ws hst with ⟨ws', hst', -⟩ | ⟨-, lt, ht, -⟩
    · exact hno p ws' hst'
    · exact htg _ lt (List.mem_cons_of_mem _ ht) rfl
  · intro r hr
    rw [ha.size]
    exact .inl (h.live r hr)

/-! ### Results that are open -/

theorem flow_relocatable {i : Instruction} {op : Opcode} (hop : i.opcode? = some op)
    (hr : op.isRelocatable = true) (hv : op = .vararg → i.c = 2) (pc : Nat) :
    i.flow pc = [(pc + 1, [i.a])] := by
  rw [Instruction.flow_eq hop]
  by_cases hva : op = .vararg
  · subst hva
    rw [show i.flowOf pc .vararg = [(pc + 1, List.range' i.a (i.c - 1))] from rfl, hv rfl]
    rfl
  · cases op <;> first | rfl | exact absurd hr (by decide) | exact absurd rfl hva

theorem setOpen {pc reg : Nat} {i : Instruction} {op : Opcode} {f : Instruction → Instruction}
    (h : Cert D code params P (some pc) live) (hs : Shape code aims L P (some pc))
    (hi : code[pc]? = some i) (hop : i.opcode? = some op) (hr : op.isRelocatable = true)
    (hv : op = .vararg → i.c = 2) (hop' : (f i).opcode? = some op)
    (hv' : op = .vararg → (f i).c = 2) (ha : (f i).a = reg) (hreads : (f i).reads = i.reads)
    (hd : (f i).demand = i.demand) (hreg : reg < 255) (hlive : ∀ r, live' r → live r ∨ r = reg) :
    Cert (fun p r => D p r ∨ r = reg ∧ pc < p) (code.modify pc f) params P none live' := by
  have hrel := hs.reloc pc rfl
  obtain ⟨hdown, hstraight⟩ := h.straight pc rfl
  have hlt := (Array.getElem?_eq_some_iff.1 hi).1
  have hcases : ∀ (p : Nat) (k : Instruction), (code.modify pc f)[p]? = some k →
      p ≠ pc ∧ code[p]? = some k ∨ p = pc ∧ k = f i := by
    intro p k hk
    by_cases hp : pc = p
    · subst hp
      rw [JumpList.getElem?_modify_self hi f] at hk
      exact .inr ⟨rfl, (Option.some.inj hk).symm⟩
    · rw [JumpList.getElem?_modify_ne hp] at hk
      exact .inl ⟨Ne.symm hp, hk⟩
  have hstep : ∀ p q ws, Step (code.modify pc f) P p q ws →
      p ≠ pc ∧ Step code P p q ws ∨ p = pc ∧ q = pc + 1 ∧ ws = [reg] ∧ Step code P p q [i.a] := by
    rintro p q ws ⟨k, hk, hown, hq⟩
    rcases hcases p k hk with ⟨hp, hk⟩ | ⟨rfl, rfl⟩
    · exact .inl ⟨hp, k, hk, hown, hq⟩
    · rw [flow_relocatable hop' hr hv', ha] at hq
      cases List.mem_singleton.1 hq
      refine .inr ⟨rfl, rfl, rfl, i, hi, hown, ?_⟩
      rw [flow_relocatable hop hr hv]
      exact List.mem_singleton.2 rfl
  -- no table and no loop is open after the instruction
  have hafter : ∀ (q : Nat) (op' : Opcode), IsOp code q op' → op'.isPlain = false →
      op'.isRelocatable = false → q < pc := by
    intro q op' ho hp hr'
    apply Nat.lt_of_not_le
    intro hq
    rcases hrel.isOp hq ho with h | h
    · rw [hp] at h
      cases h
    · rw [hr'] at h
      cases h
  refine ⟨?_, ?_, ?_, ?_, ?_, ?_, ?_, ?_, ?_, by simp, ?_⟩
  · rintro r (hr | ⟨-, hlt⟩)
    · exact h.entry r hr
    · omega
  · rintro p r (hr | ⟨rfl, -⟩)
    · exact h.small p r hr
    · exact hreg
  · intro p k hk ht r hr
    rcases hcases p k hk with ⟨-, hk⟩ | ⟨rfl, rfl⟩
    · exact .inl (h.reads p k hk ht r hr)
    · rw [hreads] at hr
      exact .inl (h.reads p i hi ht r hr)
  · intro p q ws hst r hr
    rcases hstep p q ws hst with ⟨hp, hst⟩ | ⟨rfl, rfl, rfl, hst⟩
    · rcases hr with hr | ⟨rfl, hq⟩
      · exact (h.step p q ws hst r hr).imp_left .inl
      · rcases hstraight p q ws hst with h' | ⟨h', -⟩
        · omega
        · exact .inl (.inr ⟨rfl, by omega⟩)
    · rcases hr with hr | ⟨rfl, -⟩
      · exact .inl (.inl (hdown r hr))
      · exact .inr (List.mem_singleton.2 rfl)
  · intro p q ws hst
    rw [Array.size_modify]
    rcases hstep p q ws hst with ⟨-, hst⟩ | ⟨-, -, -, hst⟩
    · exact h.bounded p q ws hst
    · exact h.bounded p q _ hst
  · intro p q ws hst hne k j hk hj
    have hdj : ∃ j', code[k]? = some j' ∧ j.demand = j'.demand := by
      rcases hcases k j hj with ⟨-, hj⟩ | ⟨rfl, rfl⟩
      · exact ⟨j, hj, rfl⟩
      · exact ⟨i, hi, hd⟩
    obtain ⟨j', hj', hdj⟩ := hdj
    rw [hdj]
    rcases hstep p q ws hst with ⟨-, hst⟩ | ⟨rfl, rfl, -⟩
    · exact h.enters p q ws hst hne k j' hk hj'
    · exact absurd rfl hne
  · intro x hx
    have hh := hs.holds x hx
    have hx' := h.assigned x hx
    cases x with
    | list ms l => exact fun m hm r hr => .inl (hx' m hm r hr)
    | goto pc' l => exact fun r hr => .inl (hx' r hr)
    | target t l =>
      rintro r (hr | ⟨-, ht⟩)
      · exact hx' r hr
      · have := hh.1
        have := hrel.last
        omega
    | table pc' ρ =>
      rintro r (hr | ⟨-, ht⟩)
      · exact (hx' r hr).imp_left .inl
      · have h₁ := hafter _ _ hh.1 rfl rfl
        have h₂ : pc' + 1 ≠ pc := by
          rintro rfl
          cases hh.2.unique ⟨i, hi, hop⟩
          cases hr
        omega
    | loop pc' base l g =>
      refine ⟨?_, fun r hr => .inl (hx'.2 r hr)⟩
      rintro r (hr | ⟨-, ht⟩)
      · exact hx'.1 r hr
      · obtain ⟨j, hj, -, hopj⟩ := hh
        have := hafter pc' _ ⟨j, hj, hopj⟩ (by cases g <;> rfl) (by cases g <;> rfl)
        omega
  · intro q k hl hk hopk
    rcases hcases q k hk with ⟨-, hk⟩ | ⟨rfl, rfl⟩
    · exact h.tests q k hl hk hopk
    · cases hop'.symm.trans hopk
      cases hr
  · intro pc' l hx
    refine ⟨?_, (h.rooms pc' l hx).2⟩
    intro p ws hst
    rcases hstep p _ ws hst with ⟨-, hst⟩ | ⟨-, -, -, hst⟩
    · exact (h.rooms pc' l hx).1 p ws hst
    · exact (h.rooms pc' l hx).1 p _ hst
  · intro r hr
    rw [Array.size_modify]
    rcases hlive r hr with hr | rfl
    · exact .inl (h.live r hr)
    · exact .inr ⟨rfl, hlt⟩

/-! ### The last instruction -/

/-- The end of the code is entered from the last instruction only, unless jumps lead there. -/
theorem step_end (hs : Shape code aims L P o) (hL : L < code.size) {op : Opcode} {p : Nat}
    (hp : p + 1 = code.size) (hop : IsOp code p op)
    (hpl : op = .call ∨ op = .vararg ∨ op = .loadNil ∨ op = .concat) {p' : Nat} {ws : List Nat}
    (hst : Step code P p' code.size ws) : p' = p := by
  obtain ⟨i, hi, hown, hq⟩ := hst
  have hlt := (Array.getElem?_eq_some_iff.1 hi).1
  cases hopi : i.opcode? with
  | none => simp [Instruction.flow, hopi] at hq
  | some op' =>
    by_cases hpp : p' = p
    · exact hpp
    exfalso
    have hne : ∀ op'', IsOp code p op'' → op'' = op := fun op'' h => h.unique hop
    have hnext : p' + 2 = code.size → i.demand.MetBy code[p' + 1]? := by
      intro h2
      refine hs.next p' i hi ?_
      intro r hr
      exact hown (Pending.mem_ownedBy hr (by simp [Pending.owned]))
    have hmet : ∀ d op'', i.demand = d → (∀ j, d.Met j → j.opcode? = some op'') →
        p' + 2 = code.size → op'' = op := by
      intro d op'' hd hdm h2
      have hm := hnext h2
      rw [show p' + 1 = p by omega] at hm
      obtain ⟨j, hj, hopj⟩ := hop
      rw [hj, hd] at hm
      exact Option.some.inj ((hdm j hm).symm.trans hopj)
    rw [Instruction.flow_eq hopi] at hq
    have hnotest : i.demand = .jump → p' + 2 ≠ code.size := by
      intro hd h2
      have := hmet .jump .jmp hd (fun j h => h) h2
      subst this
      simp at hpl
    have hdef : ∀ ws', (code.size, ws) ∈ [(p' + 1, ws')] → False := by
      intro ws' h
      have := (Prod.mk.inj (List.mem_singleton.1 h)).1
      omega
    have htest : ∀ ws₁ ws₂, (code.size, ws) ∈ [(p' + 1, ws₁), (p' + 2, ws₂)] →
        i.demand ≠ .jump := by
      intro ws₁ ws₂ h hd
      rcases List.mem_cons.1 h with h | h
      · have := (Prod.mk.inj h).1
        omega
      · exact hnotest hd (Prod.mk.inj (List.mem_singleton.1 h)).1.symm
    have hdem := Instruction.demand_eq hopi
    cases op' with
    | jmp =>
      have hq := (Prod.mk.inj (List.mem_singleton.1 hq)).1
      rcases hs.jumps p' i hi hopi with h | ⟨t, -, hsj, ht⟩
      · exact hown h
      · have := ht.1
        omega
    | lFalseSkip =>
      have hq := (Prod.mk.inj (List.mem_singleton.1 hq)).1
      have := hmet .loadTrue .loadTrue hdem (fun j h => h) hq.symm
      subst this
      simp at hpl
    | forPrep =>
      rcases List.mem_cons.1 hq with hq | hq
      · have := (Prod.mk.inj hq).1
        omega
      · have hq := (Prod.mk.inj (List.mem_singleton.1 hq)).1
        obtain ⟨i', j, hi', hj, hopj, -⟩ := (hs.numeric p' ⟨i, hi, hopi⟩).resolve_left hown
        cases hi.symm.trans hi'
        have := hne .forLoop ⟨j, by rw [← hj]; congr 1; omega, hopj⟩
        subst this
        simp at hpl
    | tforPrep =>
      have hq := (Prod.mk.inj (List.mem_singleton.1 hq)).1
      obtain ⟨i', c, j, hi', hc, -⟩ := (hs.generic p' ⟨i, hi, hopi⟩).resolve_left hown
      cases hi.symm.trans hi'
      have := (Array.getElem?_eq_some_iff.1 hc).1
      omega
    | forLoop =>
      rcases List.mem_cons.1 hq with hq | hq
      · have := (Prod.mk.inj hq).1
        omega
      · have := (Prod.mk.inj (List.mem_singleton.1 hq)).1
        omega
    | tforLoop =>
      rcases List.mem_cons.1 hq with hq | hq
      · have := (Prod.mk.inj hq).1
        omega
      · have := (Prod.mk.inj (List.mem_singleton.1 hq)).1
        omega
    | _ =>
      first
        | exact absurd hq List.not_mem_nil
        | exact hdef _ hq
        | exact htest _ _ hq hdem

def setAt (D : Nat → Nat → Prop) (n : Nat) (K : Nat → Prop) (p r : Nat) : Prop :=
  if p = n then K r else D p r

theorem setAt_self {n r : Nat} {K : Nat → Prop} : setAt D n K n r ↔ K r := by simp [setAt]

theorem setAt_ne {n p r : Nat} {K : Nat → Prop} (h : p ≠ n) : setAt D n K p r ↔ D p r := by
  simp [setAt, h]

/-- The operands of the last instruction change, and with them what is assigned after it. -/
theorem editLast {p : Nat} {i : Instruction} {op : Opcode} {f : Instruction → Instruction}
    (h : Cert D code params P none live) (hs : Shape code aims L P none) (hL : L ≤ p)
    (hp : p + 1 = code.size) (hi : code[p]? = some i) (hop : i.opcode? = some op)
    (hpl : op = .call ∨ op = .vararg ∨ op = .loadNil ∨ op = .concat)
    (hflow : ∀ q ws, (q, ws) ∈ (f i).flow p → q = p + 1 ∧ ∀ r, live' r → D p r ∨ r ∈ ws)
    (hreads : ∀ r ∈ (f i).reads, D p r) (hd : (f i).demand = i.demand)
    (hnt : (f i).opcode? ≠ some .testSet) (hlt : ∀ r, live' r → r < 255)
    (ho : ∀ pc, o' = some pc → pc = p ∧ ∀ r, live' r → D p r) :
    Cert (setAt D code.size live') (code.modify p f) params P o' live' := by
  have hcases : ∀ (q : Nat) (k : Instruction), (code.modify p f)[q]? = some k →
      q ≠ p ∧ code[q]? = some k ∨ q = p ∧ k = f i := by
    intro q k hk
    by_cases hq : p = q
    · subst hq
      rw [JumpList.getElem?_modify_self hi f] at hk
      exact .inr ⟨rfl, (Option.some.inj hk).symm⟩
    · rw [JumpList.getElem?_modify_ne hq] at hk
      exact .inl ⟨Ne.symm hq, hk⟩
  have hin : ∀ (q : Nat) (k : Instruction), (code.modify p f)[q]? = some k → q ≠ code.size := by
    intro q k hk
    have := (Array.getElem?_eq_some_iff.1 hk).1
    simp only [Array.size_modify] at this
    omega
  have hstep : ∀ p' q ws, Step (code.modify p f) P p' q ws →
      p' ≠ p ∧ q ≠ code.size ∧ Step code P p' q ws ∨
      p' = p ∧ q = p + 1 ∧ ∀ r, live' r → D p r ∨ r ∈ ws := by
    rintro p' q ws ⟨k, hk, hown, hq⟩
    rcases hcases p' k hk with ⟨hp', hk⟩ | ⟨rfl, rfl⟩
    · refine .inl ⟨hp', ?_, k, hk, hown, hq⟩
      rintro rfl
      exact hp' (step_end hs (by omega) hp ⟨i, hi, hop⟩ hpl ⟨k, hk, hown, hq⟩)
    · exact .inr ⟨rfl, hflow q ws hq⟩
  have hne : ∀ op', IsOp code p op' → op' = op := fun op' h => h.unique ⟨i, hi, hop⟩
  refine ⟨?_, ?_, ?_, ?_, ?_, ?_, ?_, ?_, ?_, ?_, ?_⟩
  · intro r hr
    exact h.entry r ((setAt_ne (by omega)).1 hr)
  · intro q r hr
    unfold setAt at hr
    split at hr
    · exact hlt r hr
    · exact h.small q r hr
  · intro q k hk ht r hr
    refine (setAt_ne (hin q k hk)).2 ?_
    rcases hcases q k hk with ⟨-, hk⟩ | ⟨rfl, rfl⟩
    · exact h.reads q k hk ht r hr
    · exact hreads r hr
  · intro p' q ws hst r hr
    rcases hstep p' q ws hst with ⟨-, hq, hst⟩ | ⟨rfl, rfl, hd⟩
    · have hp' := hst.lt
      exact (h.step p' q ws hst r ((setAt_ne hq).1 hr)).imp_left (setAt_ne (by omega)).2
    · rw [hp, setAt_self] at hr
      exact (hd r hr).imp_left (setAt_ne (by omega)).2
  · intro p' q ws hst
    rw [Array.size_modify]
    rcases hstep p' q ws hst with ⟨-, -, hst⟩ | ⟨-, rfl, -⟩
    · exact h.bounded p' q ws hst
    · omega
  · intro p' q ws hst hne' k j hk hj
    rcases hstep p' q ws hst with ⟨-, -, hst'⟩ | ⟨rfl, rfl, -⟩
    · rcases hcases k j hj with ⟨-, hj⟩ | ⟨rfl, rfl⟩
      · exact h.enters p' q ws hst' hne' k j hk hj
      · rw [hd]
        exact h.enters p' q ws hst' hne' k i hk hi
    · exact absurd rfl hne'
  · intro x hx
    have hh := hs.holds x hx
    have hx' := h.assigned x hx
    cases x with
    | list ms l =>
      intro m hm r hr
      have := (Chain.isOp hh hm).lt
      exact (setAt_ne (by omega)).2 (hx' m hm r hr)
    | goto pc l =>
      intro r hr
      have := hh.1.1.lt
      exact (setAt_ne (by omega)).2 (hx' r hr)
    | target t l =>
      intro r hr
      have := hh.1
      exact hx' r ((setAt_ne (by omega)).1 hr)
    | table pc ρ =>
      intro r hr
      have h₁ := hh.2.lt
      have h₂ : pc + 2 ≠ code.size := by
        intro h₂
        obtain rfl : pc + 1 = p := by omega
        have := hne _ hh.2
        subst this
        simp at hpl
      exact (hx' r ((setAt_ne h₂).1 hr)).imp_left (setAt_ne (by omega)).2
    | loop pc base l g =>
      obtain ⟨j, hj, -, hopj⟩ := hh
      have h₁ := (Array.getElem?_eq_some_iff.1 hj).1
      have h₂ : pc + 1 ≠ code.size := by
        intro h₂
        obtain rfl : pc = p := by omega
        have := hne _ ⟨j, hj, hopj⟩
        subst this
        cases g <;> simp at hpl
      exact ⟨fun r hr => hx'.1 r ((setAt_ne h₂).1 hr),
        fun r hr => (setAt_ne (by omega)).2 (hx'.2 r hr)⟩
  · intro q k hl hk hopk
    rcases hcases q k hk with ⟨-, hk⟩ | ⟨rfl, rfl⟩
    · exact h.tests q k hl hk hopk
    · exact absurd hopk hnt
  · intro pc l hx
    refine ⟨?_, (h.rooms pc l hx).2⟩
    intro p' ws hst
    rcases hstep p' _ ws hst with ⟨-, -, hst⟩ | ⟨rfl, hq, -⟩
    · exact (h.rooms pc l hx).1 p' ws hst
    · have := (hs.holds _ hx).2.1.lt
      omega
  · intro pc hpc
    obtain ⟨rfl, hl⟩ := ho pc hpc
    refine ⟨?_, ?_⟩
    · intro r hr
      rw [hp, setAt_self] at hr
      exact (setAt_ne (by omega)).2 (hl r hr)
    · intro p' q ws hst
      rcases hstep p' q ws hst with ⟨-, hq, hst⟩ | ⟨rfl, rfl, -⟩
      · have := h.bounded p' q ws hst
        exact .inl (by omega)
      · exact .inr ⟨Nat.le_refl _, rfl⟩
  · intro r hr
    rw [Array.size_modify, setAt_self]
    exact hr

theorem pop {pc : Nat} {i : Instruction} (h : Cert D code params P (some pc) live)
    (hs : Shape code aims L P (some pc)) (hpc : pc + 1 = code.size) (hi : code[pc]? = some i)
    (hop : i.opcode? = some .not) (hlive : ∀ r, live' r → live r ∨ r ∈ i.reads) :
    Cert D code.pop params P none live' := by
  obtain ⟨hdown, hstraight⟩ := h.straight pc rfl
  have hcases : ∀ (p : Nat) (k : Instruction), code.pop[p]? = some k → p < pc ∧
      code[p]? = some k := by
    intro p k hk
    rw [Array.getElem?_pop] at hk
    split at hk
    · exact ⟨by omega, hk⟩
    · cases hk
  have hstep : ∀ p q ws, Step code.pop P p q ws → p < pc ∧ Step code P p q ws := by
    rintro p q ws ⟨k, hk, hown, hq⟩
    exact ⟨(hcases p k hk).1, k, (hcases p k hk).2, hown, hq⟩
  refine ⟨h.entry, h.small, ?_, ?_, ?_, ?_, h.assigned, ?_, ?_, by simp, ?_⟩
  · intro p k hk
    exact h.reads p k (hcases p k hk).2
  · intro p q ws hst
    exact h.step p q ws (hstep p q ws hst).2
  · intro p q ws hst
    obtain ⟨hp, hst⟩ := hstep p q ws hst
    rw [Array.size_pop]
    rcases hstraight p q ws hst with h' | ⟨h', -⟩ <;> omega
  · intro p q ws hst hne k j hk hj
    exact h.enters p q ws (hstep p q ws hst).2 hne k j hk (hcases k j hj).2
  · intro q k hl hk
    exact h.tests q k hl (hcases q k hk).2
  · intro pc' l hx
    exact ⟨fun p ws hst => (h.rooms pc' l hx).1 p ws (hstep p _ ws hst).2, (h.rooms pc' l hx).2⟩
  · intro r hr
    rw [Array.size_pop, ← hpc, Nat.add_sub_cancel]
    rcases hlive r hr with hr | hr
    · have := h.live r hr
      rw [← hpc] at this
      exact hdown r this
    · refine h.reads pc i hi ?_ r hr
      intro q ρ hx heq
      have := (hs.holds _ hx).2
      rw [← heq] at this
      cases this.unique ⟨i, hi, hop⟩

/-! ### Tables and gotos -/

/-- The instruction at `pc` and the one after it change. -/
structure Rewritten (code code' : Code) (pc : Nat) (i j : Instruction) : Prop where
  size : code'.size = code.size
  first : code'[pc]? = some i
  second : code'[pc + 1]? = some j
  same : ∀ p, p ≠ pc → p ≠ pc + 1 → code'[p]? = code[p]?

theorem Rewritten.cases {pc : Nat} {i j : Instruction} (h : Rewritten code code' pc i j) {p : Nat}
    {k : Instruction} (hk : code'[p]? = some k) :
    p ≠ pc ∧ p ≠ pc + 1 ∧ code[p]? = some k ∨ p = pc ∧ k = i ∨ p = pc + 1 ∧ k = j := by
  by_cases hp : p = pc
  · subst hp
    exact .inr (.inl ⟨rfl, Option.some.inj (hk.symm.trans h.first)⟩)
  · by_cases hp' : p = pc + 1
    · subst hp'
      exact .inr (.inr ⟨rfl, Option.some.inj (hk.symm.trans h.second)⟩)
    · exact .inl ⟨hp, hp', (h.same p hp hp').symm.trans hk⟩

/-- The second of two instructions that change is entered from the first one only. What is assigned
between them is not said by the old certificate. -/
theorem rewrite {pc : Nat} {i j : Instruction} {x : Pending} {X : List Pending} {K : Nat → Prop}
    (h : Cert D code params (x :: Q) none live) (hs : Shape code aims L (x :: Q) none)
    (hown : x.owned = [pc]) (hr : Rewritten code code' pc i j) (hlt : pc + 1 < code.size)
    (hsecond : ∀ op, IsOp code (pc + 1) op → op = .move ∨ op = .close)
    (henter : ∀ p ws, ¬ Step code (x :: Q) p (pc + 1) ws)
    (htarget : ∀ t l, .target t l ∈ Q → t ≠ pc + 1) (hK : ∀ r, K r → r < 255)
    (hi : ∀ q ws, (q, ws) ∈ i.flow pc → q = pc + 1 ∧ ∀ r, K r → D pc r ∨ r ∈ ws)
    (hj : pc + 1 ∉ Pending.ownedBy X → ∀ q ws, (q, ws) ∈ j.flow (pc + 1) →
      q = pc + 2 ∧ ∀ r, D (pc + 2) r → K r ∨ r ∈ ws)
    (hireads : i.reads = []) (hjreads : j.reads = [])
    (hidemand : ∀ k, code[pc]? = some k → i.demand = k.demand) (hjdemand : j.demand = .free)
    (hitest : i.opcode? ≠ some .testSet) (hjtest : j.opcode? ≠ some .testSet)
    (hX : ∀ y ∈ X, ∃ l, y = .list [pc + 1] l ∧ ∀ r < l, K r) :
    Cert (setAt D (pc + 1) K) code' params (X ++ Q) none live := by
  have hXowned : ∀ p, p ∈ Pending.ownedBy X → p = pc + 1 := by
    intro p hp
    obtain ⟨y, hy, hp⟩ := List.mem_flatMap.1 hp
    obtain ⟨l, rfl, -⟩ := hX y hy
    exact List.mem_singleton.1 hp
  have hsop : ∀ op, IsOp code (pc + 1) op → ¬ op.IsAimed ∧ op ≠ .newTable := by
    intro op ho
    rcases hsecond op ho with rfl | rfl <;> simp [Opcode.IsAimed]
  have hstep : ∀ p q ws, Step code' (X ++ Q) p q ws →
      p ≠ pc ∧ p ≠ pc + 1 ∧ q ≠ pc + 1 ∧ Step code (x :: Q) p q ws ∨
      p = pc ∧ q = pc + 1 ∧ (∀ r, K r → D pc r ∨ r ∈ ws) ∨
      p = pc + 1 ∧ q = pc + 2 ∧ ∀ r, D (pc + 2) r → K r ∨ r ∈ ws := by
    rintro p q ws ⟨k, hk, ho, hq⟩
    rw [Pending.ownedBy_append] at ho
    rcases hr.cases hk with ⟨hp, hp', hk⟩ | ⟨rfl, rfl⟩ | ⟨rfl, rfl⟩
    · left
      have hst : Step code (x :: Q) p q ws := by
        refine ⟨k, hk, ?_, hq⟩
        rw [Pending.ownedBy_cons, hown]
        intro h'
        rcases List.mem_append.1 h' with h' | h'
        · exact hp (List.mem_singleton.1 h')
        · exact ho (List.mem_append_right _ h')
      refine ⟨hp, hp', ?_, hst⟩
      rintro rfl
      exact henter p ws hst
    · exact .inr (.inl ⟨rfl, hi q ws hq⟩)
    · exact .inr (.inr ⟨rfl, hj (fun h' => ho (List.mem_append_left _ h')) q ws hq⟩)
  have hQ : ∀ y ∈ Q, ∀ p ∈ y.owned, p ≠ pc ∧ p ≠ pc + 1 := by
    intro y hy p hp
    constructor
    · rintro rfl
      exact hs.disjoint hy (hown ▸ List.mem_singleton.2 rfl) hp
    · rintro rfl
      have hp' := Pending.mem_ownedBy (List.mem_cons_of_mem x hy) hp
      obtain ⟨op, ho, hcase⟩ := hs.owned_op hp'
      obtain ⟨h₁, h₂⟩ := hsop op ho
      exact hcase.elim h₁ h₂
  refine ⟨?_, ?_, ?_, ?_, ?_, ?_, ?_, ?_, ?_, by simp, ?_⟩
  · intro r hr
    exact h.entry r ((setAt_ne (by omega)).1 hr)
  · intro q r hr
    unfold setAt at hr
    split at hr
    · exact hK r hr
    · exact h.small q r hr
  · intro p k hk ht r hrr
    rcases hr.cases hk with ⟨hp, hp', hk⟩ | ⟨rfl, rfl⟩ | ⟨rfl, rfl⟩
    · refine (setAt_ne hp').2 (h.reads p k hk ?_ r hrr)
      intro q ρ hx
      rcases List.mem_cons.1 hx with rfl | hx
      · have hq : q = pc := by simpa [Pending.owned] using hown
        omega
      · exact ht q ρ (List.mem_append_right _ hx)
    · rw [hireads] at hrr
      cases hrr
    · rw [hjreads] at hrr
      cases hrr
  · intro p q ws hst r hr
    rcases hstep p q ws hst with ⟨-, hp', hq, hst⟩ | ⟨rfl, rfl, hd⟩ | ⟨rfl, rfl, hd⟩
    · exact (h.step p q ws hst r ((setAt_ne hq).1 hr)).imp_left (setAt_ne hp').2
    · exact (hd r (setAt_self.1 hr)).imp_left (setAt_ne (by omega)).2
    · exact (hd r ((setAt_ne (by omega)).1 hr)).imp_left setAt_self.2
  · intro p q ws hst
    rw [hr.size]
    rcases hstep p q ws hst with ⟨-, -, -, hst⟩ | ⟨-, rfl, -⟩ | ⟨-, rfl, -⟩
    · exact h.bounded p q ws hst
    · omega
    · omega
  · intro p q ws hst hne k l hk hl
    rcases hstep p q ws hst with ⟨-, -, -, hst⟩ | ⟨rfl, rfl, -⟩ | ⟨rfl, rfl, -⟩
    · rcases hr.cases hl with ⟨-, -, hl⟩ | ⟨rfl, rfl⟩ | ⟨-, rfl⟩
      · exact h.enters p q ws hst hne k l hk hl
      · have hk' : k < code.size := by omega
        have hk'' := Array.getElem?_eq_getElem hk'
        rw [hidemand _ hk'']
        exact h.enters p q ws hst hne k _ hk hk''
      · exact .inl hjdemand
    · exact absurd rfl hne
    · exact absurd rfl hne
  · intro y hy
    rcases List.mem_append.1 hy with hy | hy
    · obtain ⟨l, rfl, hl⟩ := hX y hy
      intro m hm r hr
      cases List.mem_singleton.1 hm
      exact setAt_self.2 (hl r hr)
    · have hh := hs.holds y (List.mem_cons_of_mem _ hy)
      have hy' := h.assigned y (List.mem_cons_of_mem _ hy)
      have ho := hQ y hy
      cases y with
      | list ms l => exact fun m hm r hr => (setAt_ne (ho m hm).2).2 (hy' m hm r hr)
      | goto pc' l =>
        intro r hr
        exact (setAt_ne (ho pc' (by simp [Pending.owned])).2).2 (hy' r hr)
      | target t l => exact fun r hr => hy' r ((setAt_ne (htarget t l hy)).1 hr)
      | table pc' ρ =>
        have hne := ho pc' (by simp [Pending.owned])
        have hne' : pc' + 2 ≠ pc + 1 := by
          intro he
          have hpc : pc' + 1 = pc := by omega
          obtain ⟨op, hop, hcase⟩ := hs.owned_op (p := pc)
            (Pending.mem_ownedBy (List.mem_cons_self ..) (hown ▸ List.mem_singleton.2 rfl))
          rw [← hpc] at hop
          cases hop.unique hh.2
          simp [Opcode.IsAimed] at hcase
        exact fun r hr => (hy' r ((setAt_ne hne').1 hr)).imp_left (setAt_ne hne.2).2
      | loop pc' base l g =>
        have hne := ho pc' (by simp [Pending.owned])
        exact ⟨fun r hr => hy'.1 r ((setAt_ne (by omega)).1 hr),
          fun r hr => (setAt_ne hne.2).2 (hy'.2 r hr)⟩
  · rintro q k ⟨ms, l, hx, hm⟩ hk hopk
    rcases hr.cases hk with ⟨hp, hp', hk⟩ | ⟨rfl, rfl⟩ | ⟨rfl, rfl⟩
    · rcases List.mem_append.1 hx with hx | hx
      · have := hXowned (q + 1) (Pending.mem_ownedBy hx hm)
        omega
      · exact h.tests q k ⟨ms, l, List.mem_cons_of_mem _ hx, hm⟩ hk hopk
    · exact absurd hopk hitest
    · exact absurd hopk hjtest
  · intro pc' l hx
    have hx : .goto pc' l ∈ Q := by
      rcases List.mem_append.1 hx with hx | hx
      · obtain ⟨l', h', -⟩ := hX _ hx
        cases h'
      · exact hx
    have hne := hQ _ hx pc' (by simp [Pending.owned])
    obtain ⟨hno, htg⟩ := h.rooms pc' l (List.mem_cons_of_mem _ hx)
    constructor
    · intro p ws hst
      rcases hstep p _ ws hst with ⟨-, -, -, hst⟩ | ⟨-, hq, -⟩ | ⟨-, hq, -⟩
      · exact hno p ws hst
      · omega
      · omega
    · intro t lt ht
      rcases List.mem_append.1 ht with ht | ht
      · obtain ⟨l', h', -⟩ := hX _ ht
        cases h'
      · exact htg t lt (List.mem_cons_of_mem _ ht)
  · intro r hrl
    rw [hr.size]
    exact (setAt_ne (by omega)).2 (h.live r hrl)

end Cert

end LuaChunk
