import Std.Data.HashMap
import LuaChunk.Text.Bytes

/-!
The table of names and string constants that compilations share. Each text is recorded once, as an
entry with a handle of its own and with its position among the reserved words if it is one. A handle
stays with its text, so two handles are the same exactly where their texts are, and whoever compares
names can compare texts.
-/

set_option autoImplicit false

namespace LuaChunk

/-- A recorded text. -/
structure Interner.Entry where
  text : Bytes
  /-- its position among the reserved words, counted from one; zero for an ordinary text -/
  reserved : Nat := 0
  deriving DecidableEq, Repr

/-- The texts recorded so far. The handle of a text is where its entry stands. -/
structure Interner where
  entries : Array Interner.Entry := #[]
  handles : Std.HashMap Bytes Nat := {}
  handles_iff : ∀ s i, handles[s]? = some i ↔ (entries[i]?).map Interner.Entry.text = some s := by
    simp

namespace Interner

def empty : Interner := {}

def size (t : Interner) : Nat := t.entries.size

def handle? (t : Interner) (s : Bytes) : Option Nat := t.handles[s]?

def text? (t : Interner) (i : Nat) : Option Bytes := (t.entries[i]?).map Entry.text

/-- The position among the reserved words that is recorded for a handle. -/
def numberAt (t : Interner) (i : Nat) : Nat := ((t.entries[i]?).map Entry.reserved).getD 0

def lookup? (t : Interner) (s : Bytes) : Option Nat := (t.handle? s).map t.numberAt

theorem handle?_eq_some_iff (t : Interner) {s : Bytes} {i : Nat} : t.handle? s = some i ↔
    t.text? i = some s :=
  t.handles_iff s i

theorem text?_eq_none_of_le (t : Interner) {i : Nat} (h : t.size ≤ i) : t.text? i = none := by
  rw [text?, Array.getElem?_eq_none h, Option.map_none]

theorem lt_size_of_text? (t : Interner) {s : Bytes} {i : Nat} (h : t.text? i = some s) :
    i < t.size := by
  refine Nat.lt_of_not_le fun hle => ?_
  rw [t.text?_eq_none_of_le hle] at h
  cases h

def push (t : Interner) (s : Bytes) (n : Nat) (h : t.handle? s = none) : Interner where
  entries := t.entries.push ⟨s, n⟩
  handles := t.handles.insert s t.entries.size
  handles_iff := by
    intro u i
    have hold := t.handles_iff u i
    rw [Std.HashMap.getElem?_insert, Array.getElem?_push]
    by_cases hi : i = t.entries.size
    · subst hi
      by_cases hu : s = u
      · simp [hu]
      · simpa [hu] using hold
    · by_cases hu : s = u
      · subst hu
        have hnone := fun hsome => Option.some_ne_none _ ((hold.2 hsome).symm.trans h)
        simpa [hi, Ne.symm hi] using hnone
      · simpa [hu, hi] using hold

def setNumber (t : Interner) (i n : Nat) : Interner where
  entries := t.entries.modify i fun e => { e with reserved := n }
  handles := t.handles
  handles_iff := by
    intro u j
    rw [t.handles_iff u j, Array.getElem?_modify]
    by_cases hj : i = j
    · subst hj
      cases t.entries[i]? <;> simp
    · simp [hj]

def intern (t : Interner) (s : Bytes) : Interner :=
  match h : t.handle? s with
  | some _ => t
  | none => t.push s 0 h

def mark (t : Interner) (s : Bytes) (n : Nat) : Interner :=
  match h : t.handle? s with
  | some i => t.setNumber i n
  | none => t.push s n h

def markAll (t : Interner) (words : List Bytes) : Interner :=
  words.zipIdx.foldl (fun t (w, i) => t.mark w (i + 1)) t

def reservedIndex (t : Interner) (s : Bytes) : Nat := (t.lookup? s).getD 0

section

variable (t : Interner) {s u : Bytes} {i n : Nat}

theorem text?_push (h : t.handle? s = none) :
    (t.push s n h).text? i = if i = t.size then some s else t.text? i := by
  unfold text? push size
  rw [Array.getElem?_push]
  split <;> rfl

theorem handle?_push (h : t.handle? s = none) :
    (t.push s n h).handle? u = if s = u then some t.size else t.handle? u := by
  simp [handle?, push, size, Std.HashMap.getElem?_insert]

theorem numberAt_push (h : t.handle? s = none) :
    (t.push s n h).numberAt i = if i = t.size then n else t.numberAt i := by
  unfold numberAt push size
  rw [Array.getElem?_push]
  split <;> rfl

theorem text?_setNumber {j : Nat} : (t.setNumber j n).text? i = t.text? i := by
  unfold text? setNumber
  rw [Array.getElem?_modify]
  split
  · cases t.entries[i]? <;> rfl
  · rfl

theorem handle?_setNumber {j : Nat} : (t.setNumber j n).handle? u = t.handle? u := rfl

theorem numberAt_setNumber {j : Nat} (h : i < t.size) :
    (t.setNumber j n).numberAt i = if j = i then n else t.numberAt i := by
  unfold numberAt setNumber
  rw [Array.getElem?_modify]
  split
  · rw [Array.getElem?_eq_getElem h]
    rfl
  · rfl

theorem lookup?_push (h : t.handle? s = none) :
    (t.push s n h).lookup? u = if s = u then some n else t.lookup? u := by
  unfold lookup?
  rw [handle?_push]
  split
  · rw [Option.map_some, numberAt_push, if_pos rfl]
  · cases hu : t.handle? u with
    | none => rfl
    | some i =>
      have hlt := t.lt_size_of_text? (t.handle?_eq_some_iff.1 hu)
      rw [Option.map_some, Option.map_some, numberAt_push, if_neg (Nat.ne_of_lt hlt)]

theorem lookup?_intern : (t.intern s).lookup? u = if s = u then some (t.reservedIndex s)
    else t.lookup? u := by
  unfold intern
  split
  · rename_i i hs
    split
    · rename_i hu
      rw [← hu, reservedIndex, lookup?, hs]
      rfl
    · rfl
  · rename_i hs
    have hnumber : t.reservedIndex s = 0 := by
      rw [reservedIndex, lookup?, hs]
      rfl
    rw [lookup?_push, hnumber]

@[simp] theorem lookup?_intern_self (s : Bytes) :
    (t.intern s).lookup? s = some (t.reservedIndex s) := by
  rw [lookup?_intern, if_pos rfl]

theorem lookup?_intern_of_ne (h : s ≠ u) : (t.intern s).lookup? u = t.lookup? u := by
  rw [lookup?_intern, if_neg h]

theorem lookup?_mark : (t.mark s n).lookup? u = if s = u then some n else t.lookup? u := by
  unfold mark
  split
  · rename_i i hs
    have hi := t.handle?_eq_some_iff.1 hs
    unfold lookup?
    rw [handle?_setNumber]
    by_cases hu : s = u
    · subst hu
      rw [if_pos rfl, hs, Option.map_some, numberAt_setNumber t (t.lt_size_of_text? hi), if_pos rfl]
    · rw [if_neg hu]
      cases hj : t.handle? u with
      | none => rfl
      | some j =>
        have htext := t.handle?_eq_some_iff.1 hj
        have hne : i ≠ j := by
          rintro rfl
          exact hu (Option.some.inj (hi.symm.trans htext))
        rw [Option.map_some, Option.map_some, numberAt_setNumber t (t.lt_size_of_text? htext),
          if_neg hne]
  · rename_i hs
    exact t.lookup?_push hs

end

end Interner

end LuaChunk
