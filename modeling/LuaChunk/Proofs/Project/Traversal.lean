import Mathlib.Logic.Relation
import Mathlib.Data.List.Nodup
import LuaChunk.Project.Resolve

/-!
Walks through dependencies. A walk meets declarations in order and passes over the names that it has
found before. Of any other name it settles where the dependency is, notes it as found, walks through
what the dependency's own manifest declares, and then gives it out. There is no limit on how deep a
walk goes, so that there is a walk means that it ends.

What a walk gives out is complete, has every name once, and has a dependency before those that
declare it, unless names lead back to themselves.
-/

set_option autoImplicit false

namespace LuaChunk.Project

abbrev Declarations := List (Bytes × Dependency)

/-- Where a declaration puts a dependency. -/
def location (root : Manifest) (dir : Bytes) (name : Bytes) (d : Dependency) : Bytes :=
  if d.path.isEmpty then Path.join [root.depsDir, name] else Path.absolute dir d.path

structure Settled (root : Manifest) (dir : Bytes) (n : Bytes) (d : Dependency) (r : Resolved) :
    Prop where
  name : r.name = n
  path : r.path = location root dir n d

/-- Declarations are met in a directory after some dependencies were found; what is given out, in
order, and what has been found then. -/
inductive Walk (root : Manifest) : (dir : Bytes) → Declarations →
    (found order after : List Resolved) → Prop
  | done {dir : Bytes} {found : List Resolved} : Walk root dir [] found [] found
  | known {dir name : Bytes} {d : Dependency} {ds : Declarations}
    {found order after : List Resolved}
    (hname : name ∈ found.map Resolved.name) (rest : Walk root dir ds found order after) :
    Walk root dir ((name, d) :: ds) found order after
  | settle {dir name : Bytes} {d : Dependency} {ds : Declarations} {r : Resolved}
    {found inner between order after : List Resolved}
    (hname : name ∉ found.map Resolved.name) (hr : Settled root dir name d r)
    (below : Walk root r.dir (sortByName r.declared) (r :: found) inner between)
    (rest : Walk root dir ds between order after) :
    Walk root dir ((name, d) :: ds) found (inner ++ r :: order) after

def Declares (rs : List Resolved) (a b : Bytes) : Prop := ∃ r ∈ rs, r.name = a ∧
  ∃ d, (b, d) ∈ r.declared

theorem Declares.mono {rs ss : List Resolved} {a b : Bytes} (h : Declares rs a b) (hs : rs ⊆ ss) :
    Declares ss a b := by
  obtain ⟨r, hr, hd⟩ := h
  exact ⟨r, hs hr, hd⟩

abbrev LeadsTo (rs : List Resolved) : Bytes → Bytes → Prop := Relation.ReflTransGen (Declares rs)

theorem leadsTo_mono {rs ss : List Resolved} {a b : Bytes} (hs : rs ⊆ ss) (h : LeadsTo rs a b) :
    LeadsTo ss a b :=
  Relation.ReflTransGen.mono (fun _ _ hd => Declares.mono hd hs) _ _ h

theorem mem_sortByName {α : Type} {x : Bytes × α} {xs : List (Bytes × α)} : x ∈ sortByName xs ↔
    x ∈ xs := List.mem_mergeSort

namespace Walk

variable {root : Manifest} {dir : Bytes} {ds es : Declarations} {found order after : List Resolved}

theorem perm (h : Walk root dir ds found order after) : after.Perm (order ++ found) := by
  induction h with
  | done => exact .refl _
  | known _ _ ih => exact ih
  | @settle dir name d ds r found inner between order after _ _ _ _ hbelow hrest =>
    refine (hrest.trans (hbelow.append_left order)).trans (List.perm_append_comm.trans ?_)
    simpa only [List.append_assoc, List.cons_append]
      using (List.perm_append_comm.cons r).append_left inner

theorem name_mem_after (h : Walk root dir ds found order after) {n : Bytes} :
    n ∈ after.map Resolved.name ↔ n ∈ order.map Resolved.name ∨ n ∈ found.map Resolved.name := by
  rw [(h.perm.map _).mem_iff, List.map_append, List.mem_append]

theorem nodup (h : Walk root dir ds found order after) (hf : (found.map Resolved.name).Nodup) :
    (after.map Resolved.name).Nodup := by
  induction h with
  | done => exact hf
  | known _ _ ih => exact ih hf
  | settle hname hr _ _ hbelow hrest =>
    refine hrest (hbelow ?_)
    rw [List.map_cons, List.nodup_cons, hr.name]
    exact ⟨hname, hf⟩

theorem found_of_met (h : Walk root dir ds found order after) {n : Bytes} {d : Dependency}
    (hd : (n, d) ∈ ds) :
    n ∈ after.map Resolved.name := by
  induction h with
  | done => cases hd
  | known hname rest ih =>
    rcases List.mem_cons.1 hd with heq | hd
    · cases heq
      exact rest.name_mem_after.2 (.inr hname)
    · exact ih hd
  | settle hname hr below rest _ ih =>
    rcases List.mem_cons.1 hd with heq | hd
    · cases heq
      refine rest.name_mem_after.2 (.inr (below.name_mem_after.2 (.inr ?_)))
      rw [List.map_cons, hr.name]
      exact List.mem_cons_self ..
    · exact ih hd

theorem closed (h : Walk root dir ds found order after) {r : Resolved} (hr : r ∈ order) {n : Bytes}
    {d : Dependency}
    (hd : (n, d) ∈ r.declared) : n ∈ after.map Resolved.name := by
  induction h with
  | done => cases hr
  | known _ _ ih => exact ih hr
  | settle _ _ below rest hbelow hrest =>
    rcases List.mem_append.1 hr with hr | hr
    · exact rest.name_mem_after.2 (.inr (hbelow hr))
    · rcases List.mem_cons.1 hr with rfl | hr
      · exact rest.name_mem_after.2 (.inr (below.found_of_met (mem_sortByName.2 hd)))
      · exact hrest hr

theorem reached (h : Walk root dir ds found order after) {r : Resolved} (hr : r ∈ order) :
    ∃ n d, (n, d) ∈ ds ∧ LeadsTo order n r.name := by
  induction h with
  | done => cases hr
  | known _ _ ih =>
    obtain ⟨n, d, hd, hn⟩ := ih hr
    exact ⟨n, d, List.mem_cons_of_mem _ hd, hn⟩
  | @settle dir name d ds q found inner between order after _ hq _ _ hbelow hrest =>
    rcases List.mem_append.1 hr with hr | hr
    · obtain ⟨n, e, he, hn⟩ := hbelow hr
      have hfirst : Declares (inner ++ q :: order) name n :=
        ⟨q, by simp, hq.name, e, mem_sortByName.1 he⟩
      exact ⟨name, d, List.mem_cons_self .., .head hfirst (leadsTo_mono (by simp) hn)⟩
    · rcases List.mem_cons.1 hr with rfl | hr
      · exact ⟨name, d, List.mem_cons_self .., by rw [hq.name]⟩
      · obtain ⟨n, e, he, hn⟩ := hrest hr
        exact ⟨n, e, List.mem_cons_of_mem _ he, leadsTo_mono (fun x hx => by simp [hx]) hn⟩

/-- Of two elements of one list the first comes before the second, or is the second, or comes after
it. -/
theorem split_around {α : Type} {as bs cs ds : List α} {a b : α}
    (h : as ++ a :: bs = cs ++ b :: ds) :
    (∃ mid, as = cs ++ b :: mid ∧ ds = mid ++ a :: bs) ∨ (as = cs ∧ a = b ∧ bs = ds) ∨
      ∃ mid, cs = as ++ a :: mid ∧ bs = mid ++ b :: ds := by
  rcases List.append_eq_append_iff.1 h with ⟨mid, rfl, hmid⟩ | ⟨mid, rfl, hmid⟩
  · cases mid with
    | nil =>
      obtain ⟨rfl, rfl⟩ := List.cons.inj hmid
      exact .inr (.inl ⟨(List.append_nil _).symm, rfl, rfl⟩)
    | cons x mid =>
      obtain ⟨rfl, rfl⟩ := List.cons.inj hmid
      exact .inr (.inr ⟨mid, rfl, rfl⟩)
  · cases mid with
    | nil =>
      obtain ⟨rfl, rfl⟩ := List.cons.inj hmid
      exact .inr (.inl ⟨List.append_nil _, rfl, rfl⟩)
    | cons x mid =>
      obtain ⟨rfl, rfl⟩ := List.cons.inj hmid
      exact .inl ⟨mid, rfl, rfl⟩

/-- What a dependency declares is found before the walk, or given out before it, or it is a name
that leads back to the dependency. -/
theorem ordered (h : Walk root dir ds found order after) {before later : List Resolved}
    {r : Resolved}
    (ho : order = before ++ r :: later) {n : Bytes} {d : Dependency} (hd : (n, d) ∈ r.declared) :
    n ∈ found.map Resolved.name ∨ n ∈ before.map Resolved.name ∨ LeadsTo order n r.name := by
  induction h generalizing before later with
  | done => simp at ho
  | known _ _ ih => exact ih ho
  | @settle dir name e ds q found inner between order after _ hq below rest hbelow hrest =>
    rcases split_around ho with ⟨mid, rfl, rfl⟩ | ⟨rfl, rfl, rfl⟩ | ⟨mid, rfl, rfl⟩
    · have hr : r ∈ before ++ r :: mid := by simp
      rcases hbelow rfl with hf | hb | hl
      · rw [List.map_cons, List.mem_cons] at hf
        rcases hf with rfl | hf
        · obtain ⟨k, e, he, hk⟩ := below.reached hr
          have hfirst : Declares ((before ++ r :: mid) ++ q :: order) q.name k :=
            ⟨q, by simp, rfl, e, mem_sortByName.1 he⟩
          exact .inr (.inr (.head hfirst (leadsTo_mono (fun x hx => List.mem_append_left _ hx) hk)))
        · exact .inl hf
      · exact .inr (.inl hb)
      · exact .inr (.inr (leadsTo_mono (fun x hx => List.mem_append_left _ hx) hl))
    · have hfound := below.found_of_met (mem_sortByName.2 hd)
      rw [below.name_mem_after, List.map_cons, List.mem_cons] at hfound
      rcases hfound with hin | rfl | hf
      · exact .inr (.inl hin)
      · exact .inr (.inr .refl)
      · exact .inl hf
    · rcases hrest rfl with hf | hb | hl
      · rcases below.name_mem_after.1 hf with hin | hf
        · exact .inr (.inl (by simp [hin]))
        · rw [List.map_cons, List.mem_cons] at hf
          rcases hf with rfl | hf
          · exact .inr (.inl (by simp))
          · exact .inl hf
      · exact .inr (.inl (by simp [hb]))
      · exact .inr (.inr (leadsTo_mono (fun x hx => by simp [hx]) hl))

end Walk

end LuaChunk.Project
