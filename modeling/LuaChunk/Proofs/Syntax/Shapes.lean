import LuaChunk.Proofs.Syntax.Grammar

set_option autoImplicit false

namespace LuaChunk.Compile

open LuaChunk Grammar

variable {i j k : List Token}

/-- What an expression can be that starts with a name or a parenthesis and has no operators. -/
inductive Shape where
  | target
  | call
  | group

namespace Shape

/-- The grammar of a shape. -/
def row : Shape → List Part
  | .target => [.phrase .target]
  | .call => [.phrase .call]
  | .group => [.char '(', .phrase .expression, .char ')']

def Starts : Shape → (i j : List Token) → Prop
  | .target => Derives [.token .name]
  | .call => fun _ _ => False
  | .group => Derives [.char '(', .phrase .expression, .char ')']

def Ends : Shape → (i j : List Token) → Prop
  | .target, i, j =>
    Derives [.char '.', .token .name] i j ∨ Derives [.char '[', .phrase .expression, .char ']'] i j
  | .call, i, j =>
    Derives [.phrase .arguments] i j ∨ Derives [.char ':', .token .name, .phrase .arguments] i j
  | .group, _, _ => False

inductive Becomes : Shape → List Token → Shape → List Token → Prop
  | refl (a : Shape) (i : List Token) : Becomes a i a i
  | step {a b c : Shape} {i k j : List Token} (h : b.Ends i k) (hb : Becomes b k c j) : Becomes a i
    c j

end Shape

theorem primary_iff : Derives [.phrase .primary] i j ↔ ∃ a : Shape, a.Starts i j := by
  rw [Derives.single_iff]
  constructor
  · rintro ⟨Y, hY, hd⟩
    rcases List.mem_cons.1 hY with rfl | hY
    · exact ⟨.target, hd⟩
    · obtain rfl := List.mem_singleton.1 hY
      exact ⟨.group, hd⟩
  · rintro ⟨a, ha⟩
    cases a with
    | target => exact ⟨_, .head _, ha⟩
    | call => exact ha.elim
    | group => exact ⟨_, .tail _ (.head _), ha⟩

theorem suffix_iff : Derives [.phrase .suffix] i j ↔ ∃ a : Shape, a.Ends i j := by
  rw [Derives.single_iff]
  constructor
  · rintro ⟨Y, hY, hd⟩
    simp only [productions, List.mem_cons, List.not_mem_nil, or_false] at hY
    rcases hY with rfl | rfl | rfl | rfl
    · exact ⟨.target, .inl hd⟩
    · exact ⟨.target, .inr hd⟩
    · exact ⟨.call, .inl hd⟩
    · exact ⟨.call, .inr hd⟩
  · rintro ⟨a, ha⟩
    cases a with
    | target => exact ha.elim (fun h => ⟨_, .head _, h⟩) fun h => ⟨_, .tail _ (.head _), h⟩
    | call =>
      exact ha.elim (fun h => ⟨_, .tail _ (.tail _ (.head _)), h⟩) fun h =>
        ⟨_, .tail _ (.tail _ (.tail _ (.head _))), h⟩
    | group => exact ha.elim

theorem prefixed_iff : Derives [.phrase .prefixed] i j ↔
    ∃ k, Derives [.phrase .primary] i k ∧ Derives [.repeated [.phrase .suffix]] k j := by
  rw [Derives.single_iff]
  constructor
  · rintro ⟨Y, hY, hd⟩
    obtain rfl := List.mem_singleton.1 hY
    exact Derives.cons_iff.1 hd
  · intro h
    exact ⟨_, List.mem_singleton.2 rfl, Derives.cons_iff.2 h⟩

theorem Shape.row_iff {a : Shape} : Derives a.row i j ↔ a.Starts i j ∨
    ∃ k, Derives [.phrase .prefixed] i k ∧ a.Ends k j := by
  have hrow : ∀ X : List Part, Derives (.phrase .prefixed :: X) i j ↔
      ∃ k, Derives [.phrase .prefixed] i k ∧ Derives X k j :=
    fun X => Derives.cons_iff
  cases a with
  | target =>
    have hsingle : Derives [.phrase .target] i j ↔ _ := Derives.single_iff
    simp only [row, hsingle, productions, List.mem_cons, List.not_mem_nil, or_false,
      exists_eq_or_imp, exists_eq_left, hrow, Starts,
      Ends, ← exists_or, ← and_or_left]
  | call =>
    have hsingle : Derives [.phrase .call] i j ↔ _ := Derives.single_iff
    simp only [row, hsingle, productions, List.mem_cons, List.not_mem_nil, or_false,
      exists_eq_or_imp, exists_eq_left, hrow, Starts,
      Ends, ← exists_or, ← and_or_left, false_or]
  | group => simp [row, Starts, Ends]

theorem Shape.prefixed {a : Shape} (h : Derives a.row i j) : Derives [.phrase .prefixed] i j := by
  rcases Shape.row_iff.1 h with h | ⟨k, hk, h⟩
  · exact prefixed_iff.2 ⟨j, primary_iff.2 ⟨a, h⟩, .stop (.nil j)⟩
  · obtain ⟨l, hp, hs⟩ := prefixed_iff.1 hk
    exact prefixed_iff.2 ⟨l, hp, hs.repeated_append (.again (suffix_iff.2 ⟨a, h⟩) (.stop (.nil j)))⟩

theorem Shape.Becomes.row {a b : Shape} (h : a.Becomes k b j) (ha : Derives a.row i k) :
    Derives b.row i j := by
  induction h with
  | refl => exact ha
  | step hb _ ih => exact ih (Shape.row_iff.2 (.inr ⟨_, Shape.prefixed ha, hb⟩))

theorem Shape.Becomes.snoc {a b c : Shape} (h : a.Becomes i b k) (hc : c.Ends k j) :
    a.Becomes i c j := by
  induction h with
  | refl a i => exact .step hc (.refl c j)
  | step hb _ ih => exact .step hb (ih hc)

theorem becomes_of_suffixes (h : Derives [.repeated [.phrase .suffix]] i j) (a : Shape) :
    ∃ b : Shape, a.Becomes i b j := by
  generalize hX : [Part.repeated [.phrase .suffix]] = X at h
  induction h generalizing a with
  | nil => cases hX
  | stop h =>
    cases hX
    rw [Derives.nil_iff.1 h]
    exact ⟨a, .refl a _⟩
  | again hY _ _ ih =>
    cases hX
    obtain ⟨b, hb⟩ := suffix_iff.1 hY
    obtain ⟨c, hc⟩ := ih b rfl
    exact ⟨c, .step hb hc⟩
  | _ => cases hX

theorem Shape.row_becomes {a : Shape} : Derives a.row i j ↔ ∃ (b : Shape) (k : List Token),
    b.Starts i k ∧ b.Becomes k a j := by
  constructor
  · intro h
    rcases Shape.row_iff.1 h with h | ⟨k, hk, h⟩
    · exact ⟨a, j, h, .refl a j⟩
    · obtain ⟨l, hp, hs⟩ := prefixed_iff.1 hk
      obtain ⟨b, hb⟩ := primary_iff.1 hp
      obtain ⟨c, hc⟩ := becomes_of_suffixes hs b
      exact ⟨b, l, hb, hc.snoc h⟩
  · rintro ⟨b, k, hb, h⟩
    exact h.row (Shape.row_iff.2 (.inl hb))

theorem prefixed_shape : Derives [.phrase .prefixed] i j ↔ ∃ a : Shape, Derives a.row i j := by
  constructor
  · intro h
    obtain ⟨k, hp, hs⟩ := prefixed_iff.1 h
    obtain ⟨b, hb⟩ := primary_iff.1 hp
    obtain ⟨c, hc⟩ := becomes_of_suffixes hs b
    exact ⟨c, hc.row (Shape.row_iff.2 (.inl hb))⟩
  · rintro ⟨a, h⟩
    exact Shape.prefixed h

end LuaChunk.Compile
