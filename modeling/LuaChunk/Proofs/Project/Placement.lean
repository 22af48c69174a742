import LuaChunk.Proofs.Project.Resolution

/-!
Where dependencies are put. A dependency is where one of the declarations of its name puts it, and
which one that is depends on the order in which they are met. So what the project declares itself,
and the place that its lock file tells, is only sure for names of which all declarations agree.
-/

set_option autoImplicit false

namespace LuaChunk.Project

/-- A name is put somewhere by the project, or by the manifest of a dependency. -/
inductive Places (root : Manifest) (rs : List Resolved) (n : Bytes) : Bytes → Prop
  | project {d : Dependency} (h : (n, d) ∈ root.dependencies) : Places root rs n
    (location root root.dir n d)
  | dependency {r : Resolved} {d : Dependency} (hr : r ∈ rs) (h : (n, d) ∈ r.declared) :
    Places root rs n (location root r.dir n d)

namespace Walk

variable {root : Manifest} {dir : Bytes} {ds : Declarations} {found order after : List Resolved}

/-- What is given out is settled by a declaration that is met, or by one of what is given out. -/
theorem settled (h : Walk root dir ds found order after) {r : Resolved} (hr : r ∈ order) :
    (∃ d, (r.name, d) ∈ ds ∧ r.path = location root dir r.name d) ∨
    ∃ q ∈ order, ∃ d, (r.name, d) ∈ q.declared ∧ r.path = location root q.dir r.name d := by
  induction h with
  | done => cases hr
  | known _ _ ih =>
    rcases ih hr with ⟨d, hd, hp⟩ | hq
    · exact .inl ⟨d, List.mem_cons_of_mem _ hd, hp⟩
    · exact .inr hq
  | @settle dir name e ds q found inner between order after _ hq _ _ hbelow hrest =>
    rcases List.mem_append.1 hr with hr | hr
    · rcases hbelow hr with ⟨d, hd, hp⟩ | ⟨k, hk, hd⟩
      · exact .inr ⟨q, by simp, d, mem_sortByName.1 hd, hp⟩
      · exact .inr ⟨k, List.mem_append_left _ hk, hd⟩
    · rcases List.mem_cons.1 hr with rfl | hr
      · exact .inl ⟨e, by rw [hq.name]; exact List.mem_cons_self .., by rw [hq.path, hq.name]⟩
      · rcases hrest hr with ⟨d, hd, hp⟩ | ⟨k, hk, hd⟩
        · exact .inl ⟨d, List.mem_cons_of_mem _ hd, hp⟩
        · exact .inr ⟨k, by simp [hk], hd⟩

end Walk

variable {root : Manifest} {git : Git} {bound : FileTree → Nat} {t t' : FileTree}
  {rs : List Resolved}

/-- The commit that a repository tells, or nothing where it has none to tell. -/
def Git.commitAt (git : Git) (dir : Bytes) (t : FileTree) : Bytes :=
  let done := git.finish dir [utf8 "rev-parse", utf8 "HEAD"] t
  if done.failure.isNone then Text.trim done.output else []

/-- What the lock file may say of a dependency. -/
inductive Pinned (root : Manifest) (git : Git) (r : Resolved) : LockedDep → Prop
  | repository {d : Dependency} (hd : root.dependencies.lookup r.name = some d) (hgit : d.git ≠ [])
    (t : FileTree) :
    Pinned root git r
      { name := r.name, git := d.git, tag := d.tag, commit := git.commitAt r.path t }
  | directory {d : Dependency} (hd : root.dependencies.lookup r.name = some d) (hgit : d.git = [])
    (hpath : d.path ≠ []) :
    Pinned root git r { name := r.name, path := d.path }

/-- Which dependencies have an entry in the lock file, and what it says. -/
def Entry (root : Manifest) (git : Git) (r : Resolved) : Option LockedDep → Prop
  | some e => Pinned root git r e
  | none => ∀ d, root.dependencies.lookup r.name = some d → d.git = [] ∧ d.path = []

namespace Resolve

end Resolve

/-- Where an entry of the lock file says that a dependency is. -/
def LockedDep.location (root : Manifest) (e : LockedDep) : Bytes :=
  if e.git = [] then Path.absolute root.dir e.path else Path.join [root.depsDir, e.name]

/-- The names that are given out, with where they are and what they declare, and the entries of the
lock file. -/
def placement (root : Manifest) :
    EStateM.Result ResolveError FileTree (List Resolved) →
      Option (List (Bytes × Bytes × Declarations) × List LockedDep)
  | .ok rs t =>
    some (rs.map fun r => (r.name, r.path, r.declared),
      (Lock.load t root.lockFile).toOption.join.getD [])
  | .error _ _ => none

end LuaChunk.Project
