import LuaChunk.Proofs.Action.Floats

set_option autoImplicit false

namespace LuaChunk

open JumpList (Code)

namespace Value

theorem SameAs.eq {w v : Value} (h : w.SameAs v) (hw : w.Regular) (hv : v.Regular) : w = v := by
  obtain h | ⟨x, y, rfl, rfl, hxy⟩ := h
  · exact h
  · rw [Binary64.Regular.eq_of_beq hw hv hxy]

end Value

/-- The indices of the constants that the instruction at `pc` refers to, by itself or by its extra
operand. -/
def constantsAt (code : Code) (pc : Nat) : List Nat :=
  match code[pc]? with
  | none => []
  | some i =>
    if i.opcode? = some .loadKX then code[pc + 1]?.toList.map Instruction.ax else i.constants

/-- The constants that are there are those that are meant, floats that compare as equal included. -/
theorem Stand.map_eq {constants : Array Value} {ks : List Nat} {vs : List Value}
    (h : Stand constants ks vs)
    (hconstants : ∀ v ∈ constants, v.Regular) (hvs : ∀ v ∈ vs, v.Regular) :
    ks.map (constants[·]?) = vs.map some := by
  induction h with
  | nil => rfl
  | @cons k v ks vs hk _ ih =>
    obtain ⟨w, hw, hsame⟩ := hk
    obtain ⟨hv, hvs⟩ := List.forall_mem_cons.1 hvs
    rw [List.map_cons, List.map_cons, ih hvs, hw,
      hsame.eq (hconstants w (Array.mem_of_getElem? hw)) hv]

theorem Faithful.map_constantsAt {constants : Array Value} {code : Code}
    {meant : Array (List Value)}
    (h : Faithful constants code meant) (hconstants : ∀ v ∈ constants, v.Regular)
    (hmeant : Compile.RegularRows meant) (pc : Nat) :
    (constantsAt code pc).map (constants[·]?) = (meant.getD pc []).map some := by
  have hrow : ∀ {ks vs}, meant[pc]? = some vs → Stand constants ks vs →
      ks.map (constants[·]?) = (meant.getD pc []).map some := fun hvs hstand => by
    rw [Array.getD_eq_getD_getElem?, hvs, Option.getD_some]
    exact hstand.map_eq hconstants (hmeant _ (Array.mem_of_getElem? hvs))
  unfold constantsAt
  cases hi : code[pc]? with
  | none =>
    have hnone : meant[pc]? = none := by
      rw [Array.getElem?_eq_none_iff] at hi ⊢
      rwa [h.size]
    rw [Array.getD_eq_getD_getElem?, hnone]
    rfl
  | some i =>
    dsimp only
    split
    · rename_i hop
      obtain ⟨x, vs, hx, -, hvs, hstand⟩ := h.large pc i hi hop
      rw [hx]
      exact hrow hvs hstand
    · rename_i hop
      obtain ⟨vs, hvs, hstand⟩ := h.stands pc i hi hop
      exact hrow hvs hstand

open Compile

/-- In every function of a compiled chunk the operands that are indices refer to what their opcodes
demand, and so do the upvalues of the nested functions. The constants of each instruction are
exactly those that it was emitted for. -/
theorem compile_references {chunk source : Bytes} {p : Prototype}
    (h : compile chunk source = .ok p) :
    ∀ q ∈ p.walk, Referring ⟨q.constants, q.upvalues.size, q.nested.length⟩ q.code ∧
      (∀ child ∈ q.nested, ∀ u ∈ child.upvalues, u.Within q.maxStackSize q.upvalues.size) ∧
      ∃ c ∈ (run { chunk } source).closings, c.Describes q ∧ c.meant.size = q.code.size ∧
        ∀ pc, (constantsAt q.code pc).map (q.constants[·]?) = (c.meant.getD pc []).map some := by
  have hsound := run_sound (o := { chunk }) rfl (Int.le_refl _) source
  obtain ⟨hp, -, hclosings⟩ := run_clean h
  intro q hq
  have hf := hsound.functions p h q hq
  obtain ⟨c, hc, hd⟩ := hsound.recorded p h q hq
  exact ⟨hf.refers, hf.adopts, c, hc, hd, hd.meaning.size,
    hd.meaning.map_constantsAt (hp q hq) (hclosings c hc)⟩

/-- A source with two functions, one within the other, that use a variable of the main one. -/
def capturingSource : Bytes :=
  utf8 "local t = {} local function f() return function() t[1] = t end, t end"

theorem capturingSource_references : ∃ p, compile (utf8 "captured") capturingSource = .ok p ∧
    ∀ q ∈ p.walk, Referring ⟨q.constants, q.upvalues.size, q.nested.length⟩ q.code ∧
      ∀ child ∈ q.nested, ∀ u ∈ child.upvalues, u.Within q.maxStackSize q.upvalues.size := by
  have hok : (compile (utf8 "captured") capturingSource).toOption.isSome = true := by
    unfold compile run initial Lexer.start
    rw [Interner.reservedIndex_markAll]
    decide +kernel
  obtain ⟨p, hp⟩ := exists_ok hok
  exact ⟨p, hp, fun q hq => ⟨(compile_references hp q hq).1, (compile_references hp q hq).2.1⟩⟩

end LuaChunk
