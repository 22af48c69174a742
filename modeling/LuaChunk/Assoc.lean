set_option autoImplicit false

namespace LuaChunk.Assoc

variable {κ α : Type} [BEq κ]

def erase (k : κ) (xs : List (κ × α)) : List (κ × α) := xs.filter fun x => x.1 != k

def insert (k : κ) (a : α) (xs : List (κ × α)) : List (κ × α) := (k, a) :: erase k xs

variable [LawfulBEq κ]

@[simp] theorem lookup_erase_self (k : κ) (xs : List (κ × α)) : (erase k xs).lookup k = none := by
  induction xs with
  | nil => rfl
  | cons x xs ih =>
    obtain ⟨j, a⟩ := x
    by_cases hj : j = k
    · simpa [erase, hj] using ih
    · have : (k == j) = false := by simpa using Ne.symm hj
      simpa [erase, hj, List.lookup_cons, this] using ih

theorem lookup_erase_of_ne {k j : κ} (h : j ≠ k) (xs : List (κ × α)) :
    (erase k xs).lookup j = xs.lookup j := by
  induction xs with
  | nil => rfl
  | cons x xs ih =>
    obtain ⟨i, a⟩ := x
    by_cases hi : i = k
    · subst hi
      have : (j == i) = false := by simpa using h
      simpa [erase, List.lookup_cons, this] using ih
    · by_cases hj : j = i
      · simp [erase, hi, hj]
      · have : (j == i) = false := by simpa using hj
        simpa [erase, List.lookup_cons, hi, this] using ih

@[simp] theorem lookup_insert_self (k : κ) (a : α) (xs : List (κ × α)) :
    (insert k a xs).lookup k = some a := by
  simp [insert]

theorem lookup_insert_of_ne {k j : κ} (h : j ≠ k) (a : α) (xs : List (κ × α)) :
    (insert k a xs).lookup j = xs.lookup j := by
  have : (j == k) = false := by simpa using h
  simp [insert, List.lookup_cons, this, lookup_erase_of_ne h]

end LuaChunk.Assoc
