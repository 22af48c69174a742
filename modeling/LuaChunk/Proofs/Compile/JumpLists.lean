import LuaChunk.Proofs.Compile.Chunk

/-!
Lists of jumps. A list that is threaded through the operands of its jumps behaves as the list of its
members: joining, sending and clearing lists do to the members what they should and to nothing else.
And all lists that a compilation holds are threaded like this, without a common member.
-/

set_option autoImplicit false

namespace LuaChunk

namespace JumpList

/-- The list that starts at `first` visits these jumps, each once, and ends. -/
structure Lists (code : Code) (first : Option Nat) (ms : List Nat) : Prop where
  chain : Chain code ms
  nodup : ms.Nodup
  first : first = ms.head?

/-- A storing test after its jump was sent: it stores into the register, or it is a plain test of
the same register if there is nowhere to store or the value is there already. -/
structure Stores (i i' : Instruction) (reg : Option Nat) : Prop where
  plain : (∀ r, reg = some r → r = i.b) → i'.opcode? = some .test ∧ i'.a = i.b ∧ i'.k = i.k
  storing : ∀ r, reg = some r → r ≠ i.b → r < Instruction.noRegister →
    i'.opcode? = some .testSet ∧ i'.a = r ∧ i'.b = i.b ∧ i'.k = i.k

/-- What becomes of the jumps of a list and of the storing tests before them; all else stays. -/
structure Sent (code code' : Code) (ms : List Nat) (valueTarget : Nat) (reg plain : Option Nat) :
    Prop where
  jump : ∀ m ∈ ms, ∃ (i i' : Instruction) (t : Nat), code[m]? = some i ∧ code'[m]? = some i' ∧
    i'.opcode? = some .jmp ∧
    i'.sj = (t : Int) - (m + 1) ∧ Destined code valueTarget plain m t
  test : ∀ q i, q + 1 ∈ ms → code[q]? = some i → i.opcode? = some .testSet →
    ∃ i', code'[q]? = some i' ∧ Stores i i' reg
  same : ∀ q, q ∉ ms → (q + 1 ∈ ms → ¬ IsOp code q .testSet) → code'[q]? = code[q]?

theorem stores_redirected (i : Instruction) (reg : Option Nat) (hop : i.opcode? = some .testSet) :
    Stores i (redirected i reg) reg := by
  have hk : i.k < 2 := Nat.mod_lt _ (by decide)
  have hb : i.b < 256 := Nat.mod_lt _ (by decide)
  have hplain : (Opcode.test.abck i.b 0 0 i.k).opcode? = some .test ∧
      (Opcode.test.abck i.b 0 0 i.k).a = i.b ∧
      (Opcode.test.abck i.b 0 0 i.k).k = i.k := by
    obtain ⟨ha, -, -, hk⟩ := @Draft.get_abck .test i.b 0 0 i.k (Draft.fits_abck.2 (by omega))
    exact ⟨Draft.opcode?_word (.abck .test i.b 0 0 i.k), ha, hk⟩
  cases reg with
  | none => exact ⟨fun _ => hplain, nofun⟩
  | some r =>
    unfold redirected
    by_cases hr : r = i.b
    · simp only [hr, if_true]
      exact ⟨fun _ => hplain, fun r' he hne => absurd (Option.some.inj he).symm hne⟩
    · simp only [hr, if_false]
      refine ⟨fun he => absurd (he r rfl) hr, ?_⟩
      rintro _ ⟨⟩ - hlt
      have hfits : Instruction.Field.a.fits r = true :=
        (Instruction.Field.fits_iff _ _).2 (Nat.le_of_lt hlt)
      exact ⟨(Instruction.opcode?_set i _ (by decide)).trans hop,
        Instruction.get_set_fits i hfits (by decide) (by decide),
        Instruction.get_set_apart i _ (by decide), Instruction.get_set_apart i _ (by decide)⟩

namespace Lists

variable {code : Code} {first second : Option Nat} {ms ms' : List Nat}

theorem length_le (h : Lists code first ms) : ms.length ≤ code.size := h.chain.length_le h.nodup

theorem append (h : Lists code first ms) (h' : Lists code second ms') (hd : ms.Disjoint ms') :
    (JumpList.append code first second = .error .tooLong ∧
      ∃ z b, ms.getLast? = some z ∧ ms'.head? = some b ∧ ¬ Reaches z b) ∨
    ∃ code' list, JumpList.append code first second = .ok (code', list) ∧
      Lists code' list (ms ++ ms') ∧
      ∀ p, ms.getLast? ≠ some p ∨ ms' = [] → code'[p]? = code[p]? := by
  obtain ⟨hc, hn, rfl⟩ := h
  obtain ⟨hc', hn', rfl⟩ := h'
  have hboth : (ms ++ ms').Nodup :=
    List.nodup_append.2 ⟨hn, hn', fun p hp q hq he => hd hp (he ▸ hq)⟩
  obtain he | ⟨code', he, hj⟩ := append_spec hc hc' hboth
  · exact .inl ⟨he, not_reaches_of_append hc hn he⟩
  · exact .inr ⟨code', _, he, ⟨hj.chain, hboth, rfl⟩, fun _ => append_same hc hn he⟩

theorem patch (h : Lists code first ms) (valueTarget : Nat) (reg plain : Option Nat)
    (hp : plain = none → ∀ m ∈ ms, Storing code m) :
    (JumpList.patch code valueTarget reg plain [] (code.size + 1) first = .error .tooLong ∧
      ∃ m ∈ ms, ∃ t, Destined code valueTarget plain m t ∧ ¬ Reaches m t) ∨
    ∃ code' aims, JumpList.patch code valueTarget reg plain [] (code.size + 1) first =
      .ok (code', aims) ∧
      aims.map Prod.fst = ms.reverse ∧ Sent code code' ms valueTarget reg plain := by
  have hlen := h.length_le
  obtain ⟨hc, hn, rfl⟩ := h
  obtain herror | ⟨code', aims, he, ha⟩ :=
    patch_spec valueTarget reg plain [] hc hn hp (code.size + 1) (by omega)
  · exact .inl herror
  · refine .inr
      ⟨code', aims, by rw [he, List.append_nil], ha.visited, ?_, fun q i hq hi hop => ?_, ha.same⟩
    · intro m hm
      obtain ⟨i, hi, hop⟩ := hc.isOp hm
      obtain ⟨t, -, hi', hsj, hstoring, hother⟩ := ha.jump m i hm hi
      refine ⟨i, _, t, hi,
        hi', by rw [Instruction.opcode?_setSJ, hop], hsj, hstoring, fun hno => hother ?_⟩
      exact fun q hq hop => hno ⟨q, hq, hop⟩
    · exact ⟨_, ha.test q i hq hi hop, stores_redirected i reg hop⟩

theorem removeValues (h : Lists code first ms) :
    ∃ code', JumpList.removeValues code (code.size + 1) first = .ok code' ∧
      (∀ first ms, Lists code first ms → Lists code' first ms) ∧
      (∀ q i, q + 1 ∈ ms → code[q]? = some i → i.opcode? = some .testSet →
        ∃ i', code'[q]? = some i' ∧ Stores i i' none) ∧
      ∀ q, (q + 1 ∈ ms → ¬ IsOp code q .testSet) → code'[q]? = code[q]? := by
  have hlen := h.length_le
  obtain ⟨hc, hn, rfl⟩ := h
  obtain ⟨code', he, hr⟩ := removeValues_spec hc hn (code.size + 1) (by omega)
  refine ⟨code', he, fun first ms hl => ⟨hr.chain hl.chain, hl.nodup, hl.first⟩,
    fun q i hq hi hop => ?_, hr.same⟩
  exact ⟨_, hr.test q i hq hi hop, stores_redirected i none hop⟩

theorem needsValue (h : Lists code first ms) :
    ∃ b, JumpList.needsValue code (code.size + 1) first = .ok b ∧
      (b = true ↔ ∃ m ∈ ms, ¬ Storing code m) := by
  have hlen := h.length_le
  obtain ⟨hc, -, rfl⟩ := h
  exact needsValue_spec hc (code.size + 1) (by omega)

end Lists

end JumpList

section

open Compile

variable (chunk : Bytes) (interner : Interner) (source : Bytes)

/-- At every moment of a compilation, whether it succeeds or fails, the lists that are held are in
order. -/
theorem sound_moments {m : Moment} (h : (run { chunk, interner } source).moments m) : m.Sound :=
  (run_sound (o := { chunk, interner }) rfl (Int.le_refl _) source).moments m h

end

open JumpList Compile in
/-- Jump lists behave as lists, in any code: what is put behind a list is added to its members; each
member is sent to its destination once; the members stay when their values are removed; and whether
a value is needed depends on each member alone. And in every compilation the lists that are held
have all jumps without a destination as their members, each in one list and once, the waiting gotos
among them. -/
theorem jumpLists_behave :
    (∀ code first second ms ms', Lists code first ms → Lists code second ms' → ms.Disjoint ms' →
      (append code first second = .error .tooLong ∧
        ∃ z b, ms.getLast? = some z ∧ ms'.head? = some b ∧ ¬ Reaches z b) ∨
      ∃ code' list, append code first second = .ok (code', list) ∧ Lists code' list (ms ++ ms') ∧
        ∀ p, ms.getLast? ≠ some p ∨ ms' = [] → code'[p]? = code[p]?) ∧
    (∀ code first ms, Lists code first ms → ∀ valueTarget reg plain,
      (plain = none → ∀ m ∈ ms, Storing code m) →
      (patch code valueTarget reg plain [] (code.size + 1) first = .error .tooLong ∧
        ∃ m ∈ ms, ∃ t, Destined code valueTarget plain m t ∧ ¬ Reaches m t) ∨
      ∃ code' aims, patch code valueTarget reg plain [] (code.size + 1) first = .ok (code', aims) ∧
        aims.map Prod.fst = ms.reverse ∧ Sent code code' ms valueTarget reg plain) ∧
    (∀ code first ms, Lists code first ms →
      ∃ code', removeValues code (code.size + 1) first = .ok code' ∧
        (∀ first ms, Lists code first ms → Lists code' first ms) ∧
        (∀ q i, q + 1 ∈ ms → code[q]? = some i → i.opcode? = some .testSet →
          ∃ i', code'[q]? = some i' ∧ Stores i i' none) ∧
        ∀ q, (q + 1 ∈ ms → ¬ IsOp code q .testSet) → code'[q]? = code[q]?) ∧
    (∀ code first ms, Lists code first ms →
      ∃ b, needsValue code (code.size + 1) first = .ok b ∧
        (b = true ↔ ∃ m ∈ ms, ¬ Storing code m)) ∧
    ∀ chunk interner source m, (run { chunk, interner } source).moments m → m.Sound :=
  ⟨fun _ _ _ _ _ h h' hd => h.append h' hd, fun _ _ _ h vt reg plain hp => h.patch vt reg plain hp,
    fun _ _ _ h => h.removeValues, fun _ _ _ h => h.needsValue, fun chunk interner source _ =>
      sound_moments chunk interner source⟩

/-- Code with a list of two jumps, the first one behind a test that stores a value, and a list of
one. -/
def threadedCode : JumpList.Code :=
  #[Opcode.testSet.abck 255 3 0 0, (Draft.sj .jmp 1).word, Opcode.test.abck 2 0 0 1,
    (Draft.sj .jmp (-1)).word,
    (Draft.sj .jmp (-1)).word]

theorem lists_threadedCode :
    JumpList.Lists threadedCode (some 1) [1, 3] ∧ JumpList.Lists threadedCode (some 4) [4] := by
  refine ⟨⟨⟨⟨_, rfl, ?_⟩, ?_, ⟨_, rfl, ?_⟩, ?_, trivial⟩, by decide, rfl⟩,
    ⟨⟨⟨_, rfl, ?_⟩, ?_, trivial⟩, by decide, rfl⟩⟩
  all_goals decide

open JumpList Compile in
/-- The second list is put behind the first one, and one jump of the first list needs a value. The
other one is sent to its own destination, with its test storing into a register. -/
theorem jumpLists_threadedCode :
    (∃ code' list, append threadedCode (some 1) (some 4) = .ok (code', list) ∧
      Lists code' list [1, 3, 4]) ∧
    needsValue threadedCode 6 (some 1) = .ok true ∧
    (∃ code' aims, patch threadedCode 9 (some 5) (some 7) [] 6 (some 1) = .ok (code', aims) ∧
      aims.map Prod.fst = [3, 1] ∧ Sent threadedCode code' [1, 3] 9 (some 5) (some 7)) ∧
    (∃ code', removeValues threadedCode 6 (some 1) = .ok code' ∧ Lists code' (some 1) [1, 3]) ∧
    ∀ m, (run { chunk := utf8 "=lists" } (utf8 "while a and b do goto done end ::done::")).moments
      m → m.Sound := by
  obtain ⟨happend, hpatch, hremove, hneeds, hrun⟩ := jumpLists_behave
  obtain ⟨h, h'⟩ := lists_threadedCode
  have hdisjoint : List.Disjoint [1, 3] [4] := fun p hp hq => by
    cases List.mem_singleton.1 hq
    exact absurd hp (by decide)
  refine ⟨?_, ?_, ?_, ?_, hrun _ _ _⟩
  · obtain ⟨-, z, b, hz, hb, hfar⟩ | ⟨code', list, he, hl, -⟩ := happend _ _ _ _ _ h h' hdisjoint
    · cases hz
      cases hb
      exact absurd ⟨by decide, by decide⟩ hfar
    · exact ⟨code', list, he, hl⟩
  · obtain ⟨b, hb, hiff⟩ := hneeds _ _ _ h
    refine hb.trans (congrArg Except.ok (hiff.2 ⟨3, by decide, ?_⟩))
    rintro ⟨q, hq, i, hi, hop⟩
    cases hq
    cases hi
    exact absurd hop (by decide)
  · obtain ⟨he, -⟩ | hsent := hpatch _ _ _ h 9 (some 5) (some 7) nofun
    · exact absurd (congrArg Except.isOk he) (by decide)
    · exact hsent
  · obtain ⟨code', he, hl, -⟩ := hremove _ _ _ h
    exact ⟨code', he, hl _ _ h⟩

end LuaChunk
