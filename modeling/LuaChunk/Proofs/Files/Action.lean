import LuaChunk.Files.Tree
import LuaChunk.Proofs.Files.Writing

set_option autoImplicit false

namespace LuaChunk

namespace OnFiles

variable {ε ε' α β : Type} {s s' t : FileTree}

theorem get_bind (f : FileTree → OnFiles ε α) (t : FileTree) : (get >>= f) t = f t t := rfl

theorem bind_eq_ok {m : OnFiles ε α} {f : α → OnFiles ε β} {b : β} (h : (m >>= f) s = .ok b s') :
    ∃ a r, m s = .ok a r ∧ f a r = .ok b s' := by
  change EStateM.bind m f s = _ at h
  unfold EStateM.bind at h
  cases hm : m s with
  | ok a r =>
    rw [hm] at h
    exact ⟨a, r, rfl, h⟩
  | error e r =>
    rw [hm] at h
    cases h

theorem adaptExcept_bind {f : ε → ε'} {m : OnFiles ε α} {k : α → OnFiles ε' β} :
    (EStateM.adaptExcept f m >>= k) s = match m s with
      | .ok a s' => k a s'
      | .error e s' => .error (f e) s' := by
  show EStateM.bind _ k s = _
  unfold EStateM.bind EStateM.adaptExcept
  cases m s <;> rfl

theorem makeDirectories_eq_ok {path : Bytes} {fail : FileError → ε} {u : Unit}
    (h : makeDirectories path fail s = .ok u s') : s' = (s.makeDirectories path).1 := by
  unfold makeDirectories at h
  obtain ⟨_, _, hget, h⟩ := bind_eq_ok h
  cases hget
  cases hmade : s.makeDirectories path with
  | mk made e =>
    rw [hmade] at h
    obtain ⟨_, _, hset, h⟩ := bind_eq_ok h
    cases hset
    cases e with
    | none =>
      cases h
      rfl
    | some e => cases h

theorem writeFile_eq_ok {path content : Bytes} {fail : FileError → ε} {u : Unit}
    (h : writeFile path content fail s = .ok u s') : s.write [] path content = .ok s' := by
  unfold writeFile at h
  obtain ⟨_, _, hget, h⟩ := bind_eq_ok h
  cases hget
  cases hw : s.write [] path content with
  | ok t =>
    rw [hw] at h
    cases h
    rfl
  | error e =>
    rw [hw] at h
    cases h

theorem kept_makeDirectories {P : Place → Prop} {path : Bytes} {fail : FileError → ε} {u : Unit}
    (hpath : ∀ n ∈ Path.names path, Path.IsStep n) (hs : s.Sane)
    (h : makeDirectories path fail s = .ok u s') :
    FileTree.Kept P s s' := by
  rw [makeDirectories_eq_ok h]
  exact .makeDirectories hs hpath

/-- An action keeps what holds of the files, and what it gives is as wanted. -/
def Keeps (I : FileTree → Prop) (Q : α → Prop) (m : OnFiles ε α) : Prop :=
  ∀ s, I s → match m s with
    | .ok a s' => I s' ∧ Q a
    | .error _ s' => I s'

namespace Keeps

variable {I : FileTree → Prop} {Q : α → Prop} {R : β → Prop} {m : OnFiles ε α}

theorem ok {a : α} (h : Keeps I Q m) (hs : I s) (hrun : m s = .ok a s') : I s' ∧ Q a := by
  have := h s hs
  rwa [hrun] at this

theorem pure {a : α} (h : Q a) : Keeps I Q (Pure.pure a : OnFiles ε α) := fun _ hs => ⟨hs, h⟩

theorem get : Keeps I I (MonadState.get : OnFiles ε FileTree) := fun _ hs => ⟨hs, hs⟩

theorem set (h : I t) : Keeps I (fun _ => True) (MonadStateOf.set t : OnFiles ε PUnit) :=
  fun _ _ => ⟨h, trivial⟩

theorem throw (e : ε) : Keeps I Q (MonadExcept.throw e : OnFiles ε α) := fun _ hs => hs

theorem bind {f : α → OnFiles ε β} (hm : Keeps I Q m) (hf : ∀ a, Q a → Keeps I R (f a)) :
    Keeps I R (m >>= f) := by
  intro s hs
  have hfirst := hm s hs
  show match EStateM.bind m f s with
    | .ok a s' => I s' ∧ R a
    | .error _ s' => I s'
  unfold EStateM.bind
  cases hrun : m s with
  | ok a s' =>
    rw [hrun] at hfirst
    exact hf a hfirst.2 s' hfirst.1
  | error e s' =>
    rw [hrun] at hfirst
    exact hfirst

theorem adaptExcept {f : ε → ε'} (h : Keeps I Q m) : Keeps I Q (EStateM.adaptExcept f m) := by
  intro s hs
  have := h s hs
  unfold EStateM.adaptExcept
  cases hrun : m s <;> rw [hrun] at this <;> exact this

theorem getDefault {a : α} (h : Keeps I Q m) (ha : Q a) :
    Keeps I Q (LuaChunk.getDefault m a : OnFiles ε' α) := by
  intro s hs
  have := h s hs
  unfold LuaChunk.getDefault
  rw [get_bind]
  unfold EStateM.run
  cases hrun : m s with
  | ok b s' =>
    rw [hrun] at this
    exact this
  | error e s' =>
    rw [hrun] at this
    exact ⟨this, ha⟩

theorem mapM {ι : Type} {f : ι → OnFiles ε α} {xs : List ι} (h : ∀ x, Keeps I Q (f x)) :
    Keeps I (fun as => ∀ a ∈ as, Q a) (xs.mapM f) := by
  induction xs with
  | nil => exact .pure fun a ha => absurd ha List.not_mem_nil
  | cons x xs ih =>
    rw [List.mapM_cons]
    refine (h x).bind fun a ha => ih.bind fun as has => .pure fun b hb => ?_
    rcases List.mem_cons.1 hb with rfl | hb
    · exact ha
    · exact has b hb

theorem makeDirectories {path : Bytes} {fail : FileError → ε}
    (h : ∀ t, I t → I (t.makeDirectories path).1) :
    Keeps I (fun _ => True) (LuaChunk.makeDirectories path fail) := by
  refine Keeps.get.bind fun t ht => ?_
  have := h t ht
  cases hmade : t.makeDirectories path with
  | mk made e =>
    rw [hmade] at this
    refine (Keeps.set this).bind fun _ _ => ?_
    cases e with
    | none => exact .pure trivial
    | some e => exact .throw _

theorem writeFile {path content : Bytes} {fail : FileError → ε}
    (h : ∀ t t', I t → t.write [] path content = .ok t' → I t') :
    Keeps I (fun _ => True) (LuaChunk.writeFile path content fail) := by
  refine Keeps.get.bind fun t ht => ?_
  cases hw : t.write [] path content with
  | ok t' => exact .set (h t t' ht hw)
  | error e => exact .throw _

end Keeps

end OnFiles

end LuaChunk
