import LuaChunk.Project.Build
import LuaChunk.Proofs.Project.Resolution

set_option autoImplicit false

namespace LuaChunk.Project

theorem byte_of_mem_moduleName {d : Bytes} {b : UInt8} (h : b ∈ moduleName d) : b ≠ Path.slash ∧
    b ≠ byte '.' := by
  have hpart : ∀ r : Utf8.Rune, b ∈ modulePart r → b ≠ Path.slash ∧ b ≠ byte '.' := by
    intro r hb
    cases r with
    | stray c => cases hb
    | char code =>
      rw [modulePart] at hb
      split at hb
      · rw [List.mem_singleton.1 hb]
        decide
      · split at hb
        · rename_i hcode
          have hall : ∀ c : Fin 128, isLetter c.val || isDigit c.val → c.val.toUInt8 ≠ Path.slash ∧
              c.val.toUInt8 ≠ byte '.' := by
            decide
          have hsmall : code < 128 := by
            simp only [isLetter, isDigit, Bool.or_eq_true, Bool.and_eq_true, decide_eq_true_eq]
              at hcode
            omega
          rw [List.mem_singleton.1 hb]
          exact hall ⟨code, hsmall⟩ hcode
        · cases hb
  rw [moduleName] at h
  rcases List.mem_append.1 h with h | h
  · split at h
    · rw [List.mem_singleton.1 h]
      decide
    · cases h
  · obtain ⟨r, -, hb⟩ := List.mem_flatMap.1 h
    exact hpart r hb

theorem isStep_of_checkedModuleName {d m : Bytes} (h : checkedModuleName d = .ok m) :
    Path.IsStep m := by
  unfold checkedModuleName at h
  dsimp only at h
  split at h
  · cases h
  · rename_i hne
    split at h
    · cases h
    · cases h
      have hdot : byte '.' ∉ moduleName d := fun hb => (byte_of_mem_moduleName hb).2 rfl
      refine ⟨by simpa using hne, fun hb => (byte_of_mem_moduleName hb).1 rfl, fun heq => ?_,
        fun heq => ?_⟩
      · rw [heq] at hdot
        exact hdot (by decide)
      · rw [heq] at hdot
        exact hdot (by decide)

namespace Resolve

open OnFiles

variable {root : Manifest} {git : Git}

theorem stays_sane (hroot : Path.isAbsolute root.dir = true)
    (hgit : ∀ dir args (t : FileTree), t.Sane → (git.finish dir args t).files.Sane) : Stays root git
    FileTree.Sane :=
  ⟨fun _ ht => (FileTree.Kept.makeDirectories (P := fun _ => False) ht
    (Path.isStep_names_join hroot _)).sane, hgit⟩

theorem keeps_writeLock (hroot : Path.isAbsolute root.dir = true)
    (hgit : ∀ dir args (t : FileTree), t.Sane → (git.finish dir args t).files.Sane)
    (found : List Resolved) :
    Keeps FileTree.Sane (fun _ => True) (writeLock root git found) := by
  have hentry : ∀ r, Keeps FileTree.Sane (fun _ => True) (lockEntry root git r) := by
    intro r
    unfold lockEntry
    split
    · exact .pure trivial
    · split
      · exact ((keeps_run (stays_sane hroot hgit) _ _ _).getDefault trivial).bind fun _ _ =>
          .pure trivial
      · split <;> exact .pure trivial
  refine (Keeps.mapM hentry).bind fun _ _ => (Keeps.makeDirectories fun t ht => ?_).bind fun _ _ =>
    .writeFile fun t t' ht hw => ?_
  · exact (FileTree.Kept.makeDirectories (P := fun _ => False) ht
      (Path.isStep_names_parent (Path.isAbsolute_join hroot _))).sane
  · obtain ⟨q, hfree, rfl⟩ := FileTree.write_eq_ok hw
    exact ht.set hfree _

end Resolve

/-- Resolving leaves a tree as a file system can have it, and gives out dependencies with names of
directories. -/
theorem sane_of_resolve {root : Manifest} {git : Git} {bound : FileTree → Nat} {t t' : FileTree}
    {rs : List Resolved}
    (hroot : Path.isAbsolute root.dir = true)
    (hgit : ∀ dir args (t : FileTree), t.Sane → (git.finish dir args t).files.Sane) (ht : t.Sane)
    (h : resolve root git bound t = .ok rs t') : t'.Sane ∧ ∀ r ∈ rs, Path.IsStep r.module := by
  rcases resolve_eq_ok h with ⟨-, rfl, rfl⟩ | ⟨-, lock, p, s, rfl, hall, hlock⟩
  · exact ⟨ht, fun r hr => absurd hr List.not_mem_nil⟩
  · obtain ⟨hs, hmodules⟩ := (Resolve.run_of_all hall).keeps (Resolve.stays_sane hroot hgit) rfl ht
    refine ⟨((Resolve.keeps_writeLock hroot hgit p.found).ok hs hlock).1, fun r hr => ?_⟩
    exact isStep_of_checkedModuleName ((hmodules r hr).resolve_left List.not_mem_nil)

end LuaChunk.Project
