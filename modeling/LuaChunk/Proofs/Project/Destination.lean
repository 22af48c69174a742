import LuaChunk.Proofs.Project.Effects

/-!
Where the chunks of a build go. A walk through source directories finds a file with its path from
there, and its chunk goes below the output directory by its module and that path. So chunks of one
directory never meet; those of different directories, or of a dependency and of a directory that is
named like its module, can.
-/

set_option autoImplicit false

namespace LuaChunk

namespace Bytes

variable {sep : UInt8} {s p : Bytes}

theorem dropSuffix?_append (s p : Bytes) : dropSuffix? p (s ++ p) = some s := by
  rw [dropSuffix?, List.reverse_append, dropPrefix?_self_append, Option.map_some,
    List.reverse_reverse]

theorem eq_append_of_dropSuffix? {stem : Bytes} (h : dropSuffix? p s = some stem) :
    s = stem ++ p := by
  obtain ⟨r, hr, rfl⟩ := Option.map_eq_some_iff.1 h
  rw [← List.reverse_reverse s, eq_append_of_dropPrefix? hr, List.reverse_append,
    List.reverse_reverse]

theorem endsWith_iff : endsWith s p = true ↔ ∃ stem, s = stem ++ p := by
  constructor
  · intro h
    obtain ⟨stem, hstem⟩ := Option.isSome_iff_exists.1 h
    exact ⟨stem, eq_append_of_dropSuffix? hstem⟩
  · rintro ⟨stem, rfl⟩
    rw [endsWith, dropSuffix?_append]
    rfl

theorem exists_splitAt (sep : UInt8) (s : Bytes) : ∃ pieces last,
    splitAt sep s = pieces ++ [last] :=
  ⟨_, _, (List.dropLast_concat_getLast (splitAt_ne_nil sep s)).symm⟩

theorem splitAt_append_of_not_mem {pieces : List Bytes} {last : Bytes} (hp : sep ∉ p)
    (h : splitAt sep s = pieces ++ [last]) :
    splitAt sep (s ++ p) = pieces ++ [last ++ p] := by
  induction s generalizing pieces last with
  | nil =>
    obtain ⟨rfl, rfl⟩ : pieces = [] ∧ last = [] := by
      cases pieces with
      | nil => exact ⟨rfl, (List.cons.inj h).1.symm⟩
      | cons q qs => exact absurd (List.cons.inj h).2.symm (by simp)
    exact splitAt_eq_self hp
  | cons b s ih =>
    obtain ⟨more, piece, hs⟩ := exists_splitAt sep s
    have ih := ih hs
    by_cases hb : b = sep
    · subst hb
      rw [splitAt_cons_sep, hs, ← List.cons_append] at h
      obtain ⟨rfl, hlast⟩ := List.append_inj' h rfl
      cases hlast
      rw [List.cons_append, splitAt_cons_sep, ih]
      rfl
    · cases more with
      | nil =>
        rw [splitAt_cons_of_ne hb hs] at h
        obtain ⟨rfl, rfl⟩ : pieces = [] ∧ last = b :: piece := by
          cases pieces with
          | nil => exact ⟨rfl, (List.cons.inj h).1.symm⟩
          | cons q qs => exact absurd (List.cons.inj h).2.symm (by simp)
        exact splitAt_cons_of_ne hb ih
      | cons m more =>
        rw [splitAt_cons_of_ne hb hs] at h
        obtain ⟨rfl, hlast⟩ := List.append_inj'
          (show ((b :: m) :: more) ++ [piece] = pieces ++ [last] from h) rfl
        cases hlast
        exact splitAt_cons_of_ne hb ih

end Bytes

namespace Project

variable {t : FileTree} {f : SourceFile}

namespace SourceFile

def stem (f : SourceFile) : Bytes := (Bytes.dropSuffix? (utf8 ".lua") f.inside).getD f.inside

/-- The names from the output directory to the chunk. -/
def output (f : SourceFile) : List Bytes := [f.module, f.stem ++ utf8 ".luac"].flatMap Path.names

/-- How a walk through source directories finds files: the path leads to a place and ends as a
source does, and the chunk goes below the output directory. -/
structure Sound (f : SourceFile) : Prop where
  path : ∃ ns last, f.path = Path.ofNames (ns ++ [last ++ utf8 ".lua"]) ∧
    ∀ n ∈ ns ++ [last ++ utf8 ".lua"], Path.IsStep n
  output : ∃ ns last, f.output = ns ++ [last ++ utf8 ".luac"]
  steps : ∀ n ∈ f.output, Path.IsStep n

end SourceFile

theorem ends_of_endsWith {ns : List Bytes} (hsteps : ∀ n ∈ ns, Path.IsStep n)
    (h : Bytes.endsWith (Path.ofNames ns) (utf8 ".lua") = true) : ∃ above last,
    ns = above ++ [last ++ utf8 ".lua"] := by
  obtain ⟨stem, hstem⟩ := Bytes.endsWith_iff.1 h
  have hne : ns ≠ [] := by
    rintro rfl
    have : (Path.ofNames []).length = (stem ++ utf8 ".lua").length := congrArg List.length hstem
    rw [List.length_append, show (utf8 ".lua").length = 4 by decide] at this
    simp only [Path.ofNames, Bytes.joinWith, List.length_cons, List.length_nil] at this
    omega
  obtain ⟨pieces, last, hpieces⟩ := Bytes.exists_splitAt Path.slash stem
  have hsplit := Path.splitAt_ofNames hsteps hne
  rw [hstem, Bytes.splitAt_append_of_not_mem (by decide) hpieces] at hsplit
  cases pieces with
  | nil => exact absurd (List.cons.inj hsplit).2.symm hne
  | cons p pieces => exact ⟨pieces, last, (List.cons.inj hsplit).2.symm⟩

theorem names_chunk {above : List Bytes} {last : Bytes}
    (hsteps : ∀ n ∈ above ++ [last ++ utf8 ".lua"], Path.IsStep n)
    (hf : f.inside = Bytes.joinWith [Path.slash] (above ++ [last ++ utf8 ".lua"])) :
    Path.names (f.stem ++ utf8 ".luac") = above ++ [last ++ utf8 ".luac"] := by
  obtain ⟨before, hbefore⟩ := Bytes.exists_joinWith_append [Path.slash] (last ++ utf8 ".lua") above
  have hinside : f.inside = (before ++ last) ++ utf8 ".lua" := by
    rw [hf, hbefore, List.append_assoc]
  have hstem : f.stem = before ++ last := by
    rw [SourceFile.stem, hinside, Bytes.dropSuffix?_append]; rfl
  obtain ⟨pieces, l, hpieces⟩ := Bytes.exists_splitAt Path.slash f.stem
  have hsplit := Path.splitAt_joinWith hsteps (by simp)
  rw [← hf, hinside, ← hstem, Bytes.splitAt_append_of_not_mem (by decide) hpieces] at hsplit
  obtain ⟨rfl, hlast⟩ := List.append_inj' hsplit rfl
  obtain rfl := List.append_cancel_right (List.cons.inj hlast).1
  rw [Path.names, Bytes.splitAt_append_of_not_mem (by decide) hpieces, List.filter_eq_self]
  intro n hn
  rcases List.mem_append.1 hn with hn | hn
  · simp [(hsteps n (List.mem_append_left _ hn)).nonempty]
  · rw [List.mem_singleton.1 hn]
    simp [show utf8 ".luac" ≠ [] by decide]

theorem isStep_chunk {last : Bytes} (h : Path.slash ∉ last) :
    Path.IsStep (last ++ utf8 ".luac") := by
  have hlen : 5 ≤ (last ++ utf8 ".luac").length := by
    rw [List.length_append, show (utf8 ".luac").length = 5 by decide]
    omega
  refine ⟨fun heq => ?_, ?_, fun heq => ?_, fun heq => ?_⟩
  · rw [heq] at hlen
    exact absurd hlen (by decide)
  · rw [List.mem_append, not_or]
    exact ⟨h, by decide⟩
  · rw [heq] at hlen
    exact absurd hlen (by decide)
  · rw [heq] at hlen
    exact absurd hlen (by decide)

theorem names_module {module : Bytes} (h : module = [] ∨ Path.IsStep module) :
    ∀ n ∈ Path.names module, Path.IsStep n := by
  rcases h with rfl | h
  · exact fun n hn => absurd hn List.not_mem_nil
  · rw [h.names]
    intro n hn
    rwa [List.mem_singleton.1 hn]

theorem destination_eq {outDir : Bytes} (hout : Path.isAbsolute outDir = true) (hf : f.Sound) :
    Build.destination outDir f = Path.ofNames (Path.cleanNames outDir ++ f.output) :=
  Path.join_below hout hf.steps

theorem mem_filesBelow {p q : Place} (h : q ∈ t.filesBelow p) :
    (∃ e, (q, e) ∈ t.entries ∧ e.isDirectory = false) ∧ ∃ ns, q = p ++ ns := by
  rw [FileTree.filesBelow, List.mem_mergeSort, List.mem_filterMap] at h
  obtain ⟨⟨q', e⟩, hmem, hq⟩ := h
  dsimp only at hq
  split at hq
  · rename_i hboth
    cases hq
    rw [Bool.and_eq_true, List.isPrefixOf_iff_prefix] at hboth
    obtain ⟨ns, hns⟩ := hboth.1
    exact ⟨⟨e, hmem, by simpa using hboth.2⟩, ns, hns.symm⟩
  · cases hq

/-- The names that a walk finds below a directory, none where the directory is a file itself, and
those of the chunk. -/
inductive ChunkOf : List Bytes → List Bytes → Prop
  | here : ChunkOf [] [Path.dot ++ utf8 ".luac"]
  | below {ns : List Bytes} {last : Bytes} : ChunkOf (ns ++ [last ++ utf8 ".lua"])
    (ns ++ [last ++ utf8 ".luac"])

theorem ChunkOf.inj {ns ms ks : List Bytes} (h : ChunkOf ns ks) (h' : ChunkOf ms ks) (hns : ns ≠ [])
    (hms : ms ≠ []) :
    ns = ms := by
  cases h with
  | here => exact absurd rfl hns
  | @below ns last =>
    generalize hks : ns ++ [last ++ utf8 ".luac"] = ks at h'
    cases h' with
    | here => exact absurd rfl hms
    | @below ms last' =>
      obtain ⟨rfl, hlast⟩ := List.append_inj' hks rfl
      rw [List.append_cancel_right (List.cons.inj hlast).1]

/-- A file at a place, as it is found from a directory at or above it. -/
structure FoundAt (f : SourceFile) (above ns : List Bytes) : Prop where
  steps : ∀ n ∈ above ++ ns, Path.IsStep n
  path : f.path = Path.ofNames (above ++ ns)
  ending : Bytes.endsWith f.path (utf8 ".lua") = true
  module : f.module = [] ∨ Path.IsStep f.module
  inside : f.inside = if ns = [] then Path.dot else Bytes.joinWith [Path.slash] ns

namespace FoundAt

variable {above ns : List Bytes}

theorem exists_last (h : FoundAt f above ns) : ∃ higher last,
    above ++ ns = higher ++ [last ++ utf8 ".lua"] :=
  ends_of_endsWith h.steps (h.path ▸ h.ending)

theorem output (h : FoundAt f above ns) :
    ∃ ks, ChunkOf ns ks ∧ f.output = Path.names f.module ++ ks ∧ ∀ n ∈ ks, Path.IsStep n := by
  obtain ⟨higher, last, hlast⟩ := h.exists_last
  have hslash : Path.slash ∉ last := fun hmem =>
    (h.steps _ (hlast ▸ List.mem_concat_self)).noSlash (List.mem_append_left _ hmem)
  suffices hchunk : ∃ ks, ChunkOf ns ks ∧ Path.names (f.stem ++ utf8 ".luac") = ks ∧
      ∀ n ∈ ks, Path.IsStep n by
    obtain ⟨ks, hks, hnames, hsteps⟩ := hchunk
    refine ⟨ks, hks, ?_, hsteps⟩
    rw [SourceFile.output, List.flatMap_cons, List.flatMap_cons, List.flatMap_nil, List.append_nil,
      hnames]
  have hinside := h.inside
  by_cases hns : ns = []
  · subst hns
    refine ⟨_, ChunkOf.here, ?_, fun n hn => ?_⟩
    · rw [SourceFile.stem, hinside, if_pos rfl]
      decide
    · rw [List.mem_singleton.1 hn]
      exact isStep_chunk (by decide)
  · rw [if_neg hns] at hinside
    obtain ⟨init, hinit⟩ : ∃ init, ns = init ++ [last ++ utf8 ".lua"] := by
      have hcat := List.dropLast_concat_getLast hns
      rw [← hcat, ← List.append_assoc] at hlast
      exact ⟨ns.dropLast, by rw [← (List.cons.inj (List.append_inj' hlast rfl).2).1, hcat]⟩
    have hbelow : ∀ n ∈ init ++ [last ++ utf8 ".lua"], Path.IsStep n := fun n hn =>
      h.steps n (List.mem_append_right _ (hinit ▸ hn))
    refine ⟨_, hinit ▸ .below, names_chunk hbelow (hinit ▸ hinside), fun n hn => ?_⟩
    rcases List.mem_append.1 hn with hn | hn
    · exact hbelow n (List.mem_append_left _ hn)
    · rw [List.mem_singleton.1 hn]
      exact isStep_chunk hslash

theorem sound (h : FoundAt f above ns) : f.Sound := by
  obtain ⟨higher, last, hlast⟩ := h.exists_last
  obtain ⟨ks, hks, hout, hsteps⟩ := h.output
  refine ⟨⟨higher, last, hlast ▸ h.path, hlast ▸ h.steps⟩, ?_, fun n hn => ?_⟩
  · rw [hout]
    cases hks with
    | here => exact ⟨_, _, rfl⟩
    | below => exact ⟨_, _, (List.append_assoc _ _ _).symm⟩
  · rw [hout] at hn
    rcases List.mem_append.1 hn with hn | hn
    · exact names_module h.module n hn
    · exact hsteps n hn

end FoundAt

namespace Build

/-- The source that a walk takes a file for, unless it passes over it. -/
def sourceAt (module : Bytes) (owner : Manifest) (place file : Place) : Option SourceFile :=
  let path := Path.ofNames file
  let inside := match file.drop place.length with
    | [] => Path.dot
    | names => Bytes.joinWith [Path.slash] names
  if Bytes.endsWith path (utf8 ".lua") && !owner.excludes path
    then some { path, inside, module, owner } else none

theorem sourcesIn_eq_ok {module dir : Bytes} {owner : Manifest} {fs : List SourceFile}
    (h : sourcesIn t module owner dir = .ok fs) :
    fs = [] ∨ ∃ place, fs = (t.filesBelow place).filterMap (sourceAt module owner place) := by
  unfold sourcesIn at h
  split at h
  · cases h
    exact .inl rfl
  · cases h
  · rename_i place _
    cases h
    exact .inr ⟨place, rfl⟩

theorem foundAt_of_sourceAt {module : Bytes} {owner : Manifest} {place ns : Place} (ht : t.Sane)
    (hmodule : module = [] ∨ Path.IsStep module) (hfile : place ++ ns ∈ t.filesBelow place)
    (h : sourceAt module owner place (place ++ ns) = some f) : f.module = module ∧
    FoundAt f place ns := by
  obtain ⟨⟨e, hmem, -⟩, -⟩ := mem_filesBelow hfile
  unfold sourceAt at h
  dsimp only at h
  split at h
  · rename_i hends
    rw [Bool.and_eq_true] at hends
    cases h
    refine ⟨rfl, ht.steps _ e hmem, rfl, hends.1, hmodule, ?_⟩
    dsimp only
    rw [List.drop_left]
    cases ns <;> rfl
  · cases h

theorem foundAt_of_sourcesIn {module dir : Bytes} {owner : Manifest} {fs : List SourceFile}
    (ht : t.Sane)
    (hmodule : module = [] ∨ Path.IsStep module) (h : sourcesIn t module owner dir = .ok fs)
    (hf : f ∈ fs) :
    f.module = module ∧ ∃ place ns, FoundAt f place ns := by
  rcases sourcesIn_eq_ok h with rfl | ⟨place, rfl⟩
  · cases hf
  · obtain ⟨file, hfile, hsome⟩ := List.mem_filterMap.1 hf
    obtain ⟨-, ns, rfl⟩ := mem_filesBelow hfile
    obtain ⟨heq, hat⟩ := foundAt_of_sourceAt ht hmodule hfile hsome
    exact ⟨heq, place, ns, hat⟩

theorem nodup_filesBelow (ht : t.Sane) (place : Place) : (t.filesBelow place).Nodup := by
  have hdistinct := ht.distinct
  rw [List.Nodup, List.pairwise_map] at hdistinct
  rw [FileTree.filesBelow, (List.mergeSort_perm _ _).nodup_iff, List.Nodup, List.pairwise_filterMap]
  refine hdistinct.imp fun {x y} hne q hq q' hq' heq => hne ?_
  have hfst : ∀ (z : Place × FileEntry) (q : Place),
      (if place.isPrefixOf z.1 && !z.2.isDirectory then some z.1 else none) = some q → z.1 = q := by
    intro z q hz
    split at hz
    · exact Option.some.inj hz
    · cases hz
  rw [hfst x q hq, hfst y q' hq', heq]

theorem eq_nil_of_foundAt {place ns : Place} (ht : t.Sane) (h : FoundAt f place [])
    (hfile : place ++ [] ∈ t.filesBelow place)
    (hbelow : place ++ ns ∈ t.filesBelow place) : ns = [] := by
  obtain ⟨⟨e, hmem, he⟩, -⟩ := mem_filesBelow hfile
  obtain ⟨⟨e', hmem', -⟩, -⟩ := mem_filesBelow hbelow
  obtain ⟨higher, last, hlast⟩ := h.exists_last
  rw [List.append_nil] at hmem hlast
  have hne : place ≠ [] := by simp [hlast]
  by_contra hns
  have hsome : (t.lookup? (place ++ ns)).isSome = true := by
    rw [ht.lookup?_of_mem hmem' (by simp [hne])]
    rfl
  have hdir := ht.well.isDirectory hsome hns
  rw [FileTree.isDirectory_of_file he (ht.lookup?_of_mem hmem hne)] at hdir
  cases hdir

theorem nodup_output_sourcesIn {module dir : Bytes} {owner : Manifest} {fs : List SourceFile}
    (ht : t.Sane)
    (hmodule : module = [] ∨ Path.IsStep module) (h : sourcesIn t module owner dir = .ok fs) :
    (fs.map SourceFile.output).Nodup := by
  rcases sourcesIn_eq_ok h with rfl | ⟨place, rfl⟩
  · exact List.nodup_nil
  · rw [List.Nodup, List.pairwise_map, List.pairwise_filterMap]
    refine (nodup_filesBelow ht place).imp_of_mem fun {q q'} hq hq' hne f hf f' hf' hsame => hne ?_
    obtain ⟨-, ns, rfl⟩ := mem_filesBelow hq
    obtain ⟨-, ms, rfl⟩ := mem_filesBelow hq'
    obtain ⟨hm, hat⟩ := foundAt_of_sourceAt ht hmodule hq hf
    obtain ⟨hm', hat'⟩ := foundAt_of_sourceAt ht hmodule hq' hf'
    obtain ⟨ks, hks, hout, -⟩ := hat.output
    obtain ⟨ks', hks', hout', -⟩ := hat'.output
    rw [hout, hout', hm, hm'] at hsame
    obtain rfl := List.append_cancel_left hsame
    by_cases hns : ns = []
    · subst hns
      rw [eq_nil_of_foundAt ht hat hq hq']
    · by_cases hms : ms = []
      · subst hms
        rw [eq_nil_of_foundAt ht hat' hq' hq]
      · rw [hks.inj hks' hns hms]

theorem exists_of_mapM_eq_ok {ε α β : Type} {g : α → Except ε β} {xs : List α} {ys : List β}
    (h : xs.mapM g = .ok ys)
    {y : β} (hy : y ∈ ys) : ∃ x ∈ xs, g x = .ok y := by
  induction xs generalizing ys with
  | nil =>
    cases h
    cases hy
  | cons x xs ih =>
    rw [List.mapM_cons] at h
    cases hx : g x with
    | error e =>
      rw [hx] at h
      cases h
    | ok z =>
      cases hxs : xs.mapM g with
      | error e =>
        rw [hx, hxs] at h
        cases h
      | ok zs =>
        rw [hx, hxs] at h
        cases h
        rcases List.mem_cons.1 hy with rfl | hy
        · exact ⟨x, List.mem_cons_self .., hx⟩
        · obtain ⟨k, hk, hky⟩ := ih hxs hy
          exact ⟨k, List.mem_cons_of_mem _ hk, hky⟩

theorem foundAt_of_collect {module : Bytes} {owner : Manifest} {dirs : List Bytes}
    {fs : List SourceFile} (ht : t.Sane)
    (hmodule : module = [] ∨ Path.IsStep module) (h : collect t module owner dirs = .ok fs)
    (hf : f ∈ fs) :
    f.module = module ∧ ∃ place ns, FoundAt f place ns := by
  unfold collect at h
  cases hm : dirs.mapM (sourcesIn t module owner) with
  | error e =>
    rw [hm] at h
    cases h
  | ok found =>
    rw [hm] at h
    cases h
    obtain ⟨gs, hgs, hf⟩ := List.mem_flatten.1 hf
    obtain ⟨dir, -, hdir⟩ := exists_of_mapM_eq_ok hm hgs
    exact foundAt_of_sourcesIn ht hmodule hdir hf

theorem sound_of_sources {root : Manifest} {deps : List Resolved} {files : List SourceFile}
    (ht : t.Sane)
    (hdeps : ∀ r ∈ deps, Path.IsStep r.module) (h : sources t root deps = .ok files)
    (hf : f ∈ files) : f.Sound := by
  unfold sources at h
  cases hm : deps.mapM fun r => collect t r.module (ownerOf root r) r.sourceDirs with
  | error e =>
    rw [hm] at h
    cases h
  | ok found =>
    cases hc : collect t [] root root.sourceDirs with
    | error e =>
      rw [hm, hc] at h
      cases h
    | ok own =>
      rw [hm, hc] at h
      cases h
      rcases List.mem_append.1 hf with hf | hf
      · obtain ⟨gs, hgs, hf⟩ := List.mem_flatten.1 hf
        obtain ⟨r, hr, hcr⟩ := exists_of_mapM_eq_ok hm hgs
        obtain ⟨-, place, ns, hat⟩ := foundAt_of_collect ht (.inr (hdeps r hr)) hcr hf
        exact hat.sound
      · obtain ⟨-, place, ns, hat⟩ := foundAt_of_collect ht (.inl rfl) hc hf
        exact hat.sound

theorem nodup_output_collect {module : Bytes} {owner : Manifest} {dirs : List Bytes}
    {fs : List SourceFile} (ht : t.Sane)
    (hmodule : module = [] ∨ Path.IsStep module) (hdirs : dirs.length ≤ 1)
    (h : collect t module owner dirs = .ok fs) :
    (fs.map SourceFile.output).Nodup := by
  match dirs, hdirs with
  | [], _ =>
    cases h
    exact List.nodup_nil
  | [dir], _ =>
    unfold collect at h
    rw [List.mapM_cons] at h
    cases hs : sourcesIn t module owner dir with
    | error e =>
      rw [hs] at h
      cases h
    | ok found =>
      rw [hs] at h
      cases h
      rw [List.flatten_cons, List.reverse_nil, List.flatten_nil, List.append_nil]
      exact nodup_output_sourcesIn ht hmodule hs

theorem head?_output {place ns : List Bytes} (h : FoundAt f place ns)
    (hmodule : Path.IsStep f.module) :
    f.output.head? = some f.module := by
  obtain ⟨ks, -, hout, -⟩ := h.output
  rw [hout, hmodule.names]
  rfl

/-- A project whose chunks cannot meet: the modules of its dependencies differ, sources are in one
directory each, and the project's own directory has none that is named like a module. -/
structure Separate (root : Manifest) (deps : List Resolved) (files : List SourceFile) : Prop where
  modules : (deps.map Resolved.module).Nodup
  directories : ∀ r ∈ deps, r.sourceDirs.length ≤ 1
  own : root.dirs.length ≤ 1
  apart : ∀ f ∈ files, f.module = [] → ∀ r ∈ deps, f.output.head? ≠ some r.module

theorem nodup_output_dependencies {root : Manifest} {deps : List Resolved}
    {found : List (List SourceFile)} (ht : t.Sane)
    (hdeps : ∀ r ∈ deps, Path.IsStep r.module) (hmodules : (deps.map Resolved.module).Nodup)
    (hdirs : ∀ r ∈ deps, r.sourceDirs.length ≤ 1)
    (h : deps.mapM (fun r => collect t r.module (ownerOf root r) r.sourceDirs) = .ok found) :
    (found.flatten.map SourceFile.output).Nodup ∧
      ∀ f ∈ found.flatten, ∃ r ∈ deps, f.module = r.module ∧ f.output.head? = some r.module := by
  induction deps generalizing found with
  | nil =>
    cases h
    exact ⟨List.nodup_nil, fun f hf => absurd hf List.not_mem_nil⟩
  | cons r deps ih =>
    rw [List.forall_mem_cons] at hdeps hdirs
    rw [List.map_cons, List.nodup_cons] at hmodules
    rw [List.mapM_cons] at h
    cases hr : collect t r.module (ownerOf root r) r.sourceDirs with
    | error e =>
      rw [hr] at h
      cases h
    | ok fs =>
      cases hrest : deps.mapM fun r => collect t r.module (ownerOf root r) r.sourceDirs with
      | error e =>
        rw [hr, hrest] at h
        cases h
      | ok rest =>
        rw [hr, hrest] at h
        cases h
        obtain ⟨hnodup, hheads⟩ := ih hdeps.2 hmodules.2 hdirs.2 hrest
        have hfs : ∀ f ∈ fs, f.module = r.module ∧ f.output.head? = some r.module := by
          intro f hf
          obtain ⟨hm, place, ns, hat⟩ := foundAt_of_collect ht (.inr hdeps.1) hr hf
          exact ⟨hm, hm ▸ head?_output hat (hm ▸ hdeps.1)⟩
        rw [List.flatten_cons]
        constructor
        · rw [List.map_append, List.nodup_append]
          refine ⟨nodup_output_collect ht (.inr hdeps.1) hdirs.1 hr, hnodup, fun x hx y hy heq =>
            ?_⟩
          obtain ⟨f, hf, rfl⟩ := List.mem_map.1 hx
          obtain ⟨g, hg, rfl⟩ := List.mem_map.1 hy
          obtain ⟨q, hq, -, hhead⟩ := hheads g hg
          rw [← heq, (hfs f hf).2, Option.some.injEq] at hhead
          exact hmodules.1 (hhead ▸ List.mem_map_of_mem hq)
        · intro f hf
          rcases List.mem_append.1 hf with hf | hf
          · exact ⟨r, List.mem_cons_self .., hfs f hf⟩
          · obtain ⟨q, hq, hg⟩ := hheads f hf
            exact ⟨q, List.mem_cons_of_mem _ hq, hg⟩

theorem Separate.nodup_output {root : Manifest} {deps : List Resolved} {files : List SourceFile}
    (ht : t.Sane)
    (hdeps : ∀ r ∈ deps, Path.IsStep r.module) (hsep : Separate root deps files)
    (h : sources t root deps = .ok files) :
    (files.map SourceFile.output).Nodup := by
  unfold sources at h
  cases hm : deps.mapM fun r => collect t r.module (ownerOf root r) r.sourceDirs with
  | error e =>
    rw [hm] at h
    cases h
  | ok found =>
    cases hc : collect t [] root root.sourceDirs with
    | error e =>
      rw [hm, hc] at h
      cases h
    | ok own =>
      rw [hm, hc] at h
      cases h
      obtain ⟨hnodup, hheads⟩ := nodup_output_dependencies ht hdeps hsep.modules hsep.directories hm
      have hown := nodup_output_collect ht (.inl rfl)
        (by rw [Manifest.sourceDirs, List.length_map]; exact hsep.own) hc
      rw [List.map_append, List.nodup_append]
      refine ⟨hnodup, hown, fun x hx y hy heq => ?_⟩
      obtain ⟨f, hf, rfl⟩ := List.mem_map.1 hx
      obtain ⟨g, hg, rfl⟩ := List.mem_map.1 hy
      obtain ⟨r, hr, -, hhead⟩ := hheads f hf
      obtain ⟨hmodule, -⟩ := foundAt_of_collect ht (.inl rfl) hc hg
      exact hsep.apart g (List.mem_append_right _ hg) hmodule r hr (heq ▸ hhead)

end Build

end Project

end LuaChunk
