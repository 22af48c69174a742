import LuaChunk.Proofs.Project.Destination
import LuaChunk.Proofs.Project.Transparency

/-!
What a build leaves in its output directory. Every source that is built has a destination there, and
the destination holds the chunk of the last source that was built for it. So a build loses nothing
exactly if no two of its sources have the same path below the output directory; this is not checked,
and two source directories with a file of one name are enough.
-/

set_option autoImplicit false

namespace LuaChunk

namespace Project

variable {t : FileTree} {f : SourceFile}

namespace Build

structure CacheAt (place : Place) (t : FileTree) : Prop where
  nonempty : place ≠ []
  steps : ∀ n ∈ place, Path.IsStep n
  database : ∃ s, t.lookup? place = some (.database s)

variable {place : Place}

theorem CacheAt.free (h : CacheAt place t) (ht : t.Sane) : t.Free place := by
  obtain ⟨s, hs⟩ := h.database
  have hbelow : (t.lookup? (place.dropLast ++ [place.getLast h.nonempty])).isSome = true := by
    rw [List.dropLast_concat_getLast, hs]
    rfl
  exact ⟨h.nonempty, h.steps, ht.well.isDirectory hbelow (List.cons_ne_nil _ _),
    FileTree.isDirectory_of_file rfl hs⟩

theorem CacheAt.kept {P : Place → Prop} {t' : FileTree} (h : CacheAt place t)
    (hk : FileTree.Kept P t t')
    (hP : ¬ P place) : CacheAt place t' ∧ store t' place = store t place := by
  obtain ⟨s, hs⟩ := h.database
  have hs' := (hk.files place (.database s) rfl hP).2 hs
  exact ⟨⟨h.nonempty, h.steps, s, hs'⟩, by rw [store, store, hs, hs']⟩

theorem CacheAt.set (h : CacheAt place t) (ht : t.Sane) (s : Cache.Store) :
    FileTree.Kept (· = place) t (t.set place (.database s)) ∧
      CacheAt place (t.set place (.database s)) :=
  ⟨.set ht (h.free ht) _, h.nonempty, h.steps, s, FileTree.lookup?_set_self t _ h.nonempty⟩

theorem kept_of_prepared {r : Request} {j : Job} {t' : FileTree} (h : CacheAt place t) (ht : t.Sane)
    (hp : r.Prepared place t j t') : FileTree.Kept (· = place) t t' ∧ CacheAt place t' := by
  cases hp with
  | forced | missing => exact ⟨.refl ht, h⟩
  | dropped => exact h.set ht _

theorem kept_of_request {r : Request} (h : CacheAt place t) (ht : t.Sane) :
    FileTree.Kept (· = place) t (r.after place t) ∧ CacheAt place (r.after place t) := by
  have ho := r.outcome place t
  unfold Request.after
  generalize r.run place t = res at ho
  cases ho with
  | unreadable | cached => exact ⟨.refl ht, h⟩
  | refused _ hp => exact kept_of_prepared h ht hp
  | compiled _ hp =>
    obtain ⟨hkept, hat⟩ := kept_of_prepared h ht hp
    obtain ⟨hkept', hat'⟩ := hat.set hkept.sane _
    exact ⟨hkept.trans hkept', hat'⟩

theorem store_of_kept {P : Place → Prop} {t' : FileTree} (h : FileTree.Kept P t t')
    (hP : ¬ P place) :
    store t' place = store t place := by
  have hiff := fun d => h.files place (.database d) rfl hP
  by_cases hd : ∃ d, t.lookup? place = some (.database d)
  · obtain ⟨d, hd⟩ := hd
    rw [store, store, hd, (hiff d).2 hd]
  · have hnone : ∀ s : FileTree, (¬ ∃ d, s.lookup? place = some (.database d)) →
        store s place = {} := by
      intro s hs
      unfold store
      split
      · rename_i d hl
        exact absurd ⟨d, hl⟩ hs
      · rfl
    have hd' : ¬ ∃ d, t'.lookup? place = some (.database d) := by
      rintro ⟨d, h⟩
      exact hd ⟨d, (hiff d).1 h⟩
    rw [hnone t hd, hnone t' hd']

theorem openCache_eq_ok {path : Bytes} {s s' : FileTree} (hs : s.Sane)
    (hpath : Path.isAbsolute path = true)
    (h : openCache path s = .ok place s') :
    FileTree.Kept (· = place) s s' ∧ CacheAt place s' ∧ store s' place = store s place ∧
      ∃ before last, path.takeWhile (· != byte '?') = before ++ last ∧
        place.getLast? = some last := by
  unfold openCache at h
  obtain ⟨_, t, hmake, h⟩ := OnFiles.bind_eq_ok h
  have hdirs : ∀ P, FileTree.Kept P s t := fun P =>
    OnFiles.kept_makeDirectories (Path.isStep_names_parent hpath) hs hmake
  obtain ⟨_, _, hget, h⟩ := OnFiles.bind_eq_ok h
  cases hget
  cases hnew : t.findNew [] (path.takeWhile (· != byte '?')) with
  | error e =>
    rw [hnew] at h
    cases h
  | ok q =>
    rw [hnew] at h
    dsimp only at h
    obtain ⟨hfree, hends⟩ := FileTree.findNew_eq_ok hnew
    have hsame : store t q = store s q := store_of_kept (hdirs fun _ => False) fun h => h.elim
    have hfresh : (∀ d, t.lookup? q ≠ some (.database d)) →
        FileTree.Kept (· = q) s (t.set q (.database {})) ∧
        CacheAt q (t.set q (.database {})) ∧ store (t.set q (.database {})) q = store s q := by
      intro hnone
      have hset := FileTree.lookup?_set_self t (.database {}) hfree.nonempty
      refine ⟨(hdirs _).trans (.set (hdirs fun _ => False).sane hfree _),
        ⟨hfree.nonempty, hfree.steps, _, hset⟩, ?_⟩
      rw [← hsame, store_set hfree.nonempty, store]
      split
      · rename_i d hl
        exact absurd hl (hnone d)
      · rfl
    suffices hall : place = q ∧ FileTree.Kept (· = q) s s' ∧ CacheAt q s' ∧
        store s' q = store s q by
      obtain ⟨rfl, hkept, hat, hstore⟩ := hall
      exact ⟨hkept, hat, hstore, hends⟩
    cases hl : t.lookup? q with
    | none =>
      rw [hl] at h
      cases h
      exact ⟨rfl, hfresh (by simp [hl])⟩
    | some e =>
      rw [hl] at h
      cases e with
      | directory =>
        cases h
        exact ⟨rfl, hfresh (by simp [hl])⟩
      | database d =>
        cases h
        exact ⟨rfl, hdirs _, ⟨hfree.nonempty, hfree.steps, d, hl⟩, hsame⟩
      | file content =>
        cases content with
        | nil =>
          cases h
          exact ⟨rfl, hfresh (by simp [hl])⟩
        | cons b content => cases h

/-- The request that a build makes for a source. -/
def request (root : Manifest) (o : BuildOptions) (f : SourceFile) : Request :=
  ⟨f, root.strip, o.force⟩

/-- Where the output of a build goes. -/
def outDir (root : Manifest) (o : BuildOptions) : Bytes :=
  if Path.isAbsolute o.outDir then o.outDir else Path.join [root.dir, o.outDir]

/-- Opens the cache of a project, if it has one. -/
def cacheOf (root : Manifest) : OnFiles BuildError (Option Place) :=
  if root.cacheEnabled then some <$> openCache root.cacheFile else pure none

def chunkPlace (outDir : Bytes) (f : SourceFile) : Place := Path.cleanNames outDir ++ f.output

end Build

/-- A source with the function that a build has for it; the flag says whether that was in the
cache. -/
structure Built where
  file : SourceFile
  function : Prototype
  cached : Bool

namespace Build

/-- A row that a build can find in its cache: one that was there before, or that of one of its own
sources. -/
def Row (root : Manifest) (o : BuildOptions) (files : List SourceFile) (t : FileTree)
    (place : Place) (key : Bytes)
    (row : Cache.Row) : Prop :=
  (store t place).row? key = some row ∨
    ∃ f ∈ files, ∃ j p, (request root o f).job t = .ok j ∧ j.result = .ok p ∧ key = j.key ∧
      row = j.row p

/-- The function of a source is what the compiler makes of its text, or what the cache has under the
key of that. -/
inductive Origin (root : Manifest) (o : BuildOptions) (files : List SourceFile) (t : FileTree)
    (cache : Option Place) :
    Built → Prop
  | compiled {f : SourceFile} {j : Job} {p : Prototype} (hj : (request root o f).job t = .ok j)
    (hp : j.result = .ok p) :
    Origin root o files t cache ⟨f, p, false⟩
  | cached {f : SourceFile} {j : Job} {p : Prototype} {place : Place} {row : Cache.Row}
    (hj : (request root o f).job t = .ok j) (hforce : o.force = false) (hplace : cache = some place)
    (hrow : Row root o files t place j.key row) (hp : row.prototype = .ok p) : Origin root o files t
    cache ⟨f, p, true⟩

def filesAfter {ε α : Type} : EStateM.Result ε FileTree α → FileTree
  | .ok _ t => t
  | .error _ t => t

variable {root : Manifest} {o : BuildOptions} {files : List SourceFile} {cache : Option Place}
  {t₁ : FileTree}

def Touched (root : Manifest) (o : BuildOptions) (files : List SourceFile) (cache : Option Place)
    (p : Place) : Prop :=
  cache = some p ∨ ∃ f ∈ files, p = chunkPlace (outDir root o) f

/-- In the middle of a build: only caches and chunks were written since it began, and the cache has
no rows but those that it had and those of the sources. -/
structure Midway (root : Manifest) (o : BuildOptions) (files : List SourceFile)
    (cache : Option Place) (t₁ t : FileTree) :
    Prop where
  kept : FileTree.Kept (Touched root o files cache) t₁ t
  cacheAt : ∀ place, cache = some place → CacheAt place t
  rows : ∀ place, cache = some place → ∀ key row, (store t place).row? key = some row →
    Row root o files t₁ place key row

/-- What a build relies on: sources have the paths of sources, and the cache is neither source nor
chunk by its name. -/
structure Layout (root : Manifest) (o : BuildOptions) (files : List SourceFile)
    (cache : Option Place) (t₁ : FileTree) :
    Prop where
  sane : t₁.Sane
  sound : ∀ f ∈ files, f.Sound
  absolute : Path.isAbsolute (outDir root o) = true
  apart : ∀ place, cache = some place → ∃ last, place.getLast? = some last ∧
    Bytes.endsWith last (utf8 ".lua") = false ∧
    Bytes.endsWith last (utf8 ".luac") = false

theorem ne_of_endings (s t : Bytes) : s ++ utf8 ".lua" ≠ t ++ utf8 ".luac" := by
  intro h
  have hlast := congrArg List.getLast? h
  rw [List.getLast?_append_of_ne_nil _ (by decide), List.getLast?_append_of_ne_nil _ (by decide)]
    at hlast
  exact absurd hlast (by decide)

namespace Layout

theorem not_touched (h : Layout root o files cache t₁) {ns : List Bytes} {last : Bytes} :
    ¬ Touched root o files cache (ns ++ [last ++ utf8 ".lua"]) := by
  rintro (hcache | ⟨f, hf, heq⟩)
  · obtain ⟨l, hl, hlua, -⟩ := h.apart _ hcache
    rw [List.getLast?_concat, Option.some.injEq] at hl
    rw [← hl, Bytes.endsWith_iff.2 ⟨last, rfl⟩] at hlua
    cases hlua
  · obtain ⟨ks, l, hout⟩ := (h.sound f hf).output
    rw [chunkPlace, hout, ← List.append_assoc] at heq
    exact ne_of_endings _ _ (List.cons.inj (List.append_inj' heq rfl).2).1

theorem chunkPlace_ne (h : Layout root o files cache t₁) (hf : f ∈ files) {place : Place}
    (hplace : cache = some place) :
    chunkPlace (outDir root o) f ≠ place := by
  rintro rfl
  obtain ⟨l, hl, -, hluac⟩ := h.apart _ hplace
  obtain ⟨ks, last, hout⟩ := (h.sound f hf).output
  rw [chunkPlace, hout, ← List.append_assoc, List.getLast?_concat, Option.some.injEq] at hl
  rw [← hl, Bytes.endsWith_iff.2 ⟨last, rfl⟩] at hluac
  cases hluac

theorem isStep_chunkPlace (h : Layout root o files cache t₁) (hf : f ∈ files) :
    ∀ n ∈ chunkPlace (outDir root o) f, Path.IsStep n := by
  intro n hn
  rcases List.mem_append.1 hn with hn | hn
  · exact Path.isStep_cleanNames h.absolute n hn
  · exact (h.sound f hf).steps n hn

theorem chunkPlace_ne_nil (h : Layout root o files cache t₁) (hf : f ∈ files) :
    chunkPlace (outDir root o) f ≠ [] := by
  obtain ⟨ks, last, hout⟩ := (h.sound f hf).output
  simp [chunkPlace, hout]

end Layout

theorem compileSource_none {res : EStateM.Result Bytes FileTree (Prototype × Bool)}
    (h : compileSource f root.strip o.force none t = res) :
    filesAfter res = t ∧ ∀ p cached t', res = .ok (p, cached) t' →
      cached = false ∧ ∃ j, (request root o f).job t = .ok j ∧ j.result = .ok p := by
  subst h
  unfold compileSource request Request.job Job.result
  simp only [OnFiles.get_bind]
  cases t.read [] f.path with
  | error e => exact ⟨rfl, fun p cached t' hrun => by cases hrun⟩
  | ok text =>
    dsimp only
    cases hc : compile (f.owner.chunkName f.path) (skipShebang text) with
    | error e => exact ⟨rfl, fun p cached t' hrun => by cases hrun⟩
    | ok p =>
      refine ⟨rfl, fun q cached t' hrun => ?_⟩
      cases hrun
      exact ⟨rfl, _, rfl, by rw [hc]⟩

namespace Midway

variable (hl : Layout root o files cache t₁) (hf : f ∈ files) (h : Midway root o files cache t₁ t)
include hl hf h

theorem job_eq_ok {j : Job} (hj : (request root o f).job t = .ok j) :
    (request root o f).job t₁ = .ok j := by
  unfold Request.job request at hj ⊢
  dsimp only at hj ⊢
  obtain ⟨ns, last, hpath, hsteps⟩ := (hl.sound f hf).path
  cases hread : t.read [] f.path with
  | error e =>
    rw [hread] at hj
    cases hj
  | ok text =>
    rw [hread] at hj
    rw [hpath] at hread
    rw [hpath, hl.sane.well.read_eq hsteps (by simp) hread fun e he hlook =>
      (h.kept.files _ e he hl.not_touched).1 hlook,
      ← hpath]
    exact hj

theorem origin {place : Place} (hcache : cache = some place) {p : Prototype} {cached : Bool}
    {t' : FileTree}
    (hrun : (request root o f).run place t = .ok (p, cached) t') : Origin root o files t₁ cache
    ⟨f, p, cached⟩ := by
  have ho := (request root o f).outcome place t
  rw [hrun] at ho
  cases ho with
  | cached hj hforce hget =>
    rename_i j
    unfold Cache.Store.get at hget
    split at hget
    · cases hget
    · rename_i row hrow
      exact .cached (h.job_eq_ok hl hf hj) hforce hcache (h.rows place hcache _ row hrow) hget
  | compiled hj _ hres => exact .compiled (h.job_eq_ok hl hf hj) hres

theorem request {place : Place} (hcache : cache = some place) :
    Midway root o files cache t₁ ((Build.request root o f).after place t) ∧
      FileTree.Kept (· = place) t ((Build.request root o f).after place t) := by
  obtain ⟨hkept, hat⟩ := kept_of_request (r := Build.request root o f) (h.cacheAt place hcache)
    h.kept.sane
  refine ⟨⟨h.kept.trans (hkept.mono fun p hp => .inl (hp
    ▸ hcache)), fun q hq => ?_, fun q hq key row hrow => ?_⟩, hkept⟩
  · rw [hcache] at hq
    cases hq
    exact hat
  · rw [hcache] at hq
    cases hq
    rcases Request.row?_after hrow with hrow | ⟨j, p, hj, hres, hkey, hrow⟩
    · exact h.rows place hcache key row hrow
    · exact .inr ⟨f, hf, j, p, h.job_eq_ok hl hf hj, hres, hkey, hrow⟩

theorem writeChunk {p : Prototype} {u : Unit} {t' : FileTree}
    (hw : Build.writeChunk (outDir root o) f p t = .ok u t') :
    Midway root o files cache t₁ t' ∧ FileTree.Kept (· = chunkPlace (outDir root o) f) t t' ∧
      t'.read [] (destination (outDir root o) f) = .ok (Wire.encode p) := by
  have hdest := destination_eq hl.absolute (hl.sound f hf)
  unfold Build.writeChunk at hw
  obtain ⟨_, s, hmake, hw⟩ := OnFiles.bind_eq_ok hw
  have hdirs : ∀ P, FileTree.Kept P t s := fun P => OnFiles.kept_makeDirectories
    (Path.isStep_names_parent (Path.isAbsolute_join hl.absolute _)) h.kept.sane hmake
  have hwrite := OnFiles.writeFile_eq_ok hw
  rw [hdest] at hwrite
  obtain ⟨hset, hread⟩ := FileTree.write_ofNames (hdirs fun _ => False).sane
    (hl.isStep_chunkPlace hf)
    (hl.chunkPlace_ne_nil hf) hwrite
  have hkept := (hdirs _).trans hset
  have hcache := fun place hplace =>
    (h.cacheAt place hplace).kept hkept (hl.chunkPlace_ne hf hplace).symm
  refine ⟨⟨h.kept.trans (hkept.mono fun q hq => .inr ⟨f, hf, hq⟩), fun place hplace =>
    (hcache place hplace).1,
    fun place hplace key row hrow => ?_⟩, hkept, hdest ▸ hread⟩
  rw [(hcache place hplace).2] at hrow
  exact h.rows place hplace key row hrow

theorem compileSource {res : EStateM.Result Bytes FileTree (Prototype × Bool)}
    (hres : Build.compileSource f root.strip o.force cache t = res) :
    Midway root o files cache t₁ (filesAfter res) ∧
      FileTree.Kept (cache = some ·) t (filesAfter res) ∧
      ∀ p cached t', res = .ok (p, cached) t' → Origin root o files t₁ cache ⟨f, p, cached⟩ := by
  cases hcache : cache with
  | none =>
    rw [hcache] at hres
    obtain ⟨hafter, hok⟩ := compileSource_none hres
    rw [hafter, ← hcache]
    refine ⟨h, .refl h.kept.sane, fun p cached t' hrun => ?_⟩
    obtain ⟨rfl, j, hj, hp⟩ := hok p cached t' hrun
    exact .compiled (h.job_eq_ok hl hf hj) hp
  | some place =>
    rw [hcache] at hres
    have hrun : (Build.request root o f).run place t = res := hres
    have hafter : filesAfter res = (Build.request root o f).after place t := by
      rw [Request.after, hrun]
      cases res <;> rfl
    obtain ⟨hmid, hkept⟩ := h.request hl hf hcache
    rw [hafter, ← hcache]
    exact ⟨hmid, hkept.mono fun q hq => hq ▸ hcache, fun p cached t' heq =>
      h.origin hl hf hcache (heq ▸ hrun)⟩

end Midway

/-- The sources of a build are taken one after the other; those that compile are built. -/
inductive Building (root : Manifest) (o : BuildOptions) (cache : Option Place) :
    FileTree → List SourceFile → List Built → FileTree → Prop
  | done {t : FileTree} : Building root o cache t [] [] t
  | failed {t t' u : FileTree} {f : SourceFile} {fs : List SourceFile} {bs : List Built} {e : Bytes}
    (hcompile : compileSource f root.strip o.force cache t = .error e t')
    (rest : Building root o cache t' fs bs u) :
    Building root o cache t (f :: fs) bs u
  | built {t t' s u : FileTree} {f : SourceFile} {fs : List SourceFile} {bs : List Built}
    {p : Prototype} {cached : Bool}
    (hcompile : compileSource f root.strip o.force cache t = .ok (p, cached) t')
    (hwrite : writeChunk (outDir root o) f p t' = .ok () s)
    (rest : Building root o cache s fs bs u) :
    Building root o cache t (f :: fs) (⟨f, p, cached⟩ :: bs) u

/-- What a report counts, besides what another one has counted before. -/
structure Counts (before after : BuildReport) (files : List SourceFile) (built : List Built) :
    Prop where
  compiled : after.compiled = before.compiled + built.countP (!·.cached)
  cached : after.cached = before.cached + built.countP (·.cached)
  failed : after.failed.length + built.length = before.failed.length + files.length

theorem buildSource_eq_ok {r r' : BuildReport} {t' : FileTree}
    (h : buildSource root o (outDir root o) cache r f t = .ok r' t') :
    (∃ e, compileSource f root.strip o.force cache t = .error e t' ∧
      r' = { r with failed := r.failed ++ [e] }) ∨
    ∃ p cached s, compileSource f root.strip o.force cache t = .ok (p, cached) s ∧
      writeChunk (outDir root o) f p s = .ok () t' ∧ r'.failed = r.failed ∧
      r'.compiled = r.compiled + (!cached).toNat ∧ r'.cached = r.cached + cached.toNat := by
  unfold buildSource at h
  obtain ⟨_, _, hget, h⟩ := OnFiles.bind_eq_ok h
  cases hget
  unfold EStateM.run at h
  cases hc : compileSource f root.strip o.force cache t with
  | error e s =>
    rw [hc] at h
    cases h
    exact .inl ⟨e, rfl, rfl⟩
  | ok x s =>
    obtain ⟨p, cached⟩ := x
    rw [hc] at h
    dsimp only at h
    obtain ⟨_, _, hset, h⟩ := OnFiles.bind_eq_ok h
    cases hset
    obtain ⟨_, u, hw, h⟩ := OnFiles.bind_eq_ok h
    refine .inr ⟨p, cached, s, rfl, ?_⟩
    cases cached <;> cases h <;> exact ⟨hw, rfl, rfl, rfl⟩

theorem building_of_foldlM {fs : List SourceFile} {r r' : BuildReport} {t' : FileTree}
    (h : fs.foldlM (buildSource root o (outDir root o) cache) r t = .ok r' t') :
    ∃ bs, Building root o cache t fs bs t' ∧ Counts r r' fs bs := by
  induction fs generalizing r t with
  | nil =>
    cases h
    exact ⟨[], .done, ⟨rfl, rfl, rfl⟩⟩
  | cons f fs ih =>
    rw [List.foldlM_cons] at h
    obtain ⟨q, s, hturn, h⟩ := OnFiles.bind_eq_ok h
    obtain ⟨bs, hrest, hcounts⟩ := ih h
    rcases buildSource_eq_ok hturn
        with ⟨e, hc, rfl⟩ | ⟨p, cached, u, hc, hw, hfailed, hcompiled, hcached⟩
    · refine ⟨bs, .failed hc hrest, hcounts.compiled, hcounts.cached, ?_⟩
      rw [hcounts.failed, List.length_append, List.length_singleton, List.length_cons]
      omega
    · refine ⟨_, .built hc hw hrest, ?_, ?_, ?_⟩
      · rw [hcounts.compiled, hcompiled, List.countP_cons]
        cases cached <;> simp +arith
      · rw [hcounts.cached, hcached, List.countP_cons]
        cases cached <;> simp +arith
      · rw [List.length_cons, List.length_cons, ← Nat.add_assoc, hcounts.failed, hfailed]
        omega

namespace Building

variable {fs : List SourceFile} {bs : List Built} {t' : FileTree}

theorem sublist (h : Building root o cache t fs bs t') : (bs.map Built.file).Sublist fs := by
  induction h with
  | done => exact List.Sublist.slnil
  | failed _ _ ih => exact ih.cons _
  | built _ _ _ ih => exact ih.cons_cons _

/-- A build in its middle goes on to write chunks of the sources that are left, and all that it
builds comes from the sources. -/
theorem kept (hl : Layout root o files cache t₁) (h : Building root o cache t fs bs t')
    (hfs : fs ⊆ files)
    (hmid : Midway root o files cache t₁ t) :
    FileTree.Kept (fun p => cache = some p ∨ ∃ b ∈ bs, p = chunkPlace (outDir root o) b.file) t t' ∧
      ∀ b ∈ bs, Origin root o files t₁ cache b := by
  induction h with
  | done => exact ⟨.refl hmid.kept.sane, fun b hb => absurd hb List.not_mem_nil⟩
  | failed hcompile _ ih =>
    rw [List.cons_subset] at hfs
    obtain ⟨hmid', hk, -⟩ := hmid.compileSource hl hfs.1 hcompile
    obtain ⟨hrest, horigin⟩ := ih hfs.2 hmid'
    exact ⟨(hk.mono fun p hp => .inl hp).trans hrest, horigin⟩
  | built hcompile hwrite _ ih =>
    rw [List.cons_subset] at hfs
    obtain ⟨hmid', hk, ho⟩ := hmid.compileSource hl hfs.1 hcompile
    obtain ⟨hmid'', hk', -⟩ := hmid'.writeChunk hl hfs.1 hwrite
    obtain ⟨hrest, horigin⟩ := ih hfs.2 hmid''
    refine ⟨((hk.mono fun p hp => .inl hp).trans
      (hk'.mono fun p hp => .inr ⟨_, List.mem_cons_self .., hp⟩)).trans
      (hrest.mono fun p hp => hp.imp_right fun ⟨b, hb, hp⟩ => ⟨b, List.mem_cons_of_mem _ hb, hp⟩),
        fun b hb => ?_⟩
    rcases List.mem_cons.1 hb with rfl | hb
    · exact ho _ _ _ rfl
    · exact horigin b hb

theorem read (hl : Layout root o files cache t₁) (h : Building root o cache t fs bs t')
    (hfs : fs ⊆ files)
    (hmid : Midway root o files cache t₁ t) {before after : List Built} {b : Built}
    (hbs : bs = before ++ b :: after)
    (hlast : ∀ c ∈ after, c.file.output ≠ b.file.output) :
    t'.read [] (destination (outDir root o) b.file) = .ok (Wire.encode b.function) := by
  induction h generalizing before with
  | done => simp at hbs
  | failed hcompile _ ih =>
    rw [List.cons_subset] at hfs
    exact ih hfs.2 (hmid.compileSource hl hfs.1 hcompile).1 hbs
  | built hcompile hwrite rest ih =>
    rw [List.cons_subset] at hfs
    obtain ⟨hmid', -, -⟩ := hmid.compileSource hl hfs.1 hcompile
    obtain ⟨hmid'', -, hread⟩ := hmid'.writeChunk hl hfs.1 hwrite
    cases before with
    | cons c before => exact ih hfs.2 hmid'' (List.cons.inj hbs).2
    | nil =>
      obtain ⟨rfl, rfl⟩ := List.cons.inj hbs
      have hdest := destination_eq hl.absolute (hl.sound _ hfs.1)
      obtain ⟨hkept, -⟩ := rest.kept hl hfs.2 hmid''
      rw [hdest] at hread ⊢
      refine hkept.sane.well.read_eq (hl.isStep_chunkPlace hfs.1) (hl.chunkPlace_ne_nil hfs.1) hread
        fun e he hlook => ?_
      refine (hkept.files _ e he ?_).2 hlook
      rintro (hcache | ⟨c, hc, heq⟩)
      · exact hl.chunkPlace_ne hfs.1 hcache rfl
      · exact hlast c hc (List.append_cancel_left heq).symm

end Building

/-- The account of a build: of its sources, those that were built, and the others that failed. -/
structure Account (root : Manifest) (o : BuildOptions) (t : FileTree) (cache : Option Place)
    (files : List SourceFile)
    (built : List Built) (r : BuildReport) : Prop where
  sources : (built.map Built.file).Sublist files
  counts : Counts {} r files built
  origins : ∀ b ∈ built, Origin root o files t cache b

/-- The name of a cache is neither that of a source nor that of a chunk. -/
def CacheApart (root : Manifest) : Prop :=
  root.cacheEnabled = true →
    Bytes.endsWith (root.cacheFile.takeWhile (· != byte '?')) (utf8 ".lua") = false ∧
      Bytes.endsWith (root.cacheFile.takeWhile (· != byte '?')) (utf8 ".luac") = false

instance (root : Manifest) : Decidable (CacheApart root) := by
  unfold CacheApart
  infer_instance

theorem endsWith_append_of_endsWith {s ending : Bytes} (before : Bytes)
    (h : Bytes.endsWith s ending = true) :
    Bytes.endsWith (before ++ s) ending = true := by
  obtain ⟨stem, rfl⟩ := Bytes.endsWith_iff.1 h
  exact Bytes.endsWith_iff.2 ⟨before ++ stem, (List.append_assoc ..).symm⟩

theorem isAbsolute_outDir (o : BuildOptions) (hroot : Path.isAbsolute root.dir = true) :
    Path.isAbsolute (outDir root o) = true := by
  unfold outDir
  split
  · assumption
  · exact Path.isAbsolute_join hroot _

theorem isAbsolute_cacheFile (hroot : Path.isAbsolute root.dir = true) :
    Path.isAbsolute root.cacheFile = true := by
  unfold Manifest.cacheFile
  split
  · assumption
  · exact Path.isAbsolute_join hroot _

theorem midway_of_cacheOf {s : FileTree} (hs : t₁.Sane) (hroot : Path.isAbsolute root.dir = true)
    (hapart : CacheApart root)
    (hsound : ∀ f ∈ files, f.Sound) (h : cacheOf root t₁ = .ok cache s) :
    Layout root o files cache t₁ ∧ Midway root o files cache t₁ s := by
  have habs := isAbsolute_outDir o hroot
  unfold cacheOf at h
  split at h
  · rename_i hcache
    obtain ⟨place, u, hopen, hsome⟩ :=
      OnFiles.bind_eq_ok (show (openCache root.cacheFile >>= fun p => pure (some p)) t₁ = _ from h)
    cases hsome
    obtain ⟨hkept, hat, hstore, before, last, hpath, hlast⟩ :=
      openCache_eq_ok hs (isAbsolute_cacheFile hroot) hopen
    obtain ⟨hlua, hluac⟩ := hapart hcache
    rw [hpath] at hlua hluac
    refine ⟨⟨hs, hsound, habs, fun q hq => ?_⟩, hkept.mono fun p hp => .inl (hp ▸ rfl),
      fun q hq => ?_, fun q hq key row hrow => ?_⟩
    · cases hq
      refine ⟨last, hlast, ?_, ?_⟩
      · exact Bool.eq_false_iff.2 fun hend =>
          Bool.eq_false_iff.1 hlua (endsWith_append_of_endsWith before hend)
      · exact Bool.eq_false_iff.2 fun hend =>
          Bool.eq_false_iff.1 hluac (endsWith_append_of_endsWith before hend)
    · cases hq
      exact hat
    · cases hq
      exact .inl (hstore ▸ hrow)
  · cases h
    exact ⟨⟨hs, hsound, habs, fun q hq => by cases hq⟩, .refl hs, fun q hq => (by cases hq),
      fun q hq => (by cases hq)⟩

section

variable {git : Git} {bound : FileTree → Nat}

theorem build_eq {deps : List Resolved} (hdeps : resolve root git bound t = .ok deps t₁)
    (hsources : sources t₁ root deps = .ok files) :
    build root o git bound t =
      (cacheOf root >>= fun cache => files.foldlM (buildSource root o (outDir root o) cache) {})
      t₁ := by
  unfold build
  rw [OnFiles.adaptExcept_bind, hdeps]
  dsimp only
  rw [OnFiles.get_bind, hsources, cacheOf]
  cases root.cacheEnabled <;> rfl

theorem build_eq_ok {r : BuildReport} {t' : FileTree} (h : build root o git bound t = .ok r t') :
    ∃ deps t₁ files cache s, resolve root git bound t = .ok deps t₁ ∧
      sources t₁ root deps = .ok files ∧
      cacheOf root t₁ = .ok cache s ∧ files.foldlM (buildSource root o (outDir root o) cache) {} s =
        .ok r t' := by
  have hrun := h
  unfold build at hrun
  rw [OnFiles.adaptExcept_bind] at hrun
  cases hdeps : resolve root git bound t with
  | error e u =>
    rw [hdeps] at hrun
    cases hrun
  | ok deps t₁ =>
    rw [hdeps] at hrun
    dsimp only at hrun
    rw [OnFiles.get_bind] at hrun
    cases hs : sources t₁ root deps with
    | error e =>
      rw [hs] at hrun
      cases hrun
    | ok files =>
      rw [build_eq hdeps hs] at h
      obtain ⟨cache, s, hcache, h⟩ := OnFiles.bind_eq_ok h
      exact ⟨deps, t₁, files, cache, s, rfl, hs, hcache, h⟩

end

theorem nodup_destinations (habs : Path.isAbsolute (outDir root o) = true) {fs : List SourceFile}
    (hsound : ∀ f ∈ fs, f.Sound) :
    (fs.map (destination (outDir root o))).Nodup ↔ (fs.map SourceFile.output).Nodup := by
  have hsteps : ∀ f ∈ fs, ∀ n ∈ Path.cleanNames (outDir root o) ++ f.output, Path.IsStep n := by
    intro f hf n hn
    rcases List.mem_append.1 hn with hn | hn
    · exact Path.isStep_cleanNames habs n hn
    · exact (hsound f hf).steps n hn
  rw [List.Nodup, List.Nodup, List.pairwise_map, List.pairwise_map]
  refine List.Pairwise.iff_of_mem fun {f g} hf hg => not_congr ⟨fun heq => ?_, fun heq => ?_⟩
  · rw [destination_eq habs (hsound f hf), destination_eq habs (hsound g hg)] at heq
    have hnames := congrArg Path.names heq
    rw [Path.names_ofNames (hsteps f hf), Path.names_ofNames (hsteps g hg)] at hnames
    exact List.append_cancel_left hnames
  · rw [destination_eq habs (hsound f hf), destination_eq habs (hsound g hg), heq]

end Build

open Build in
/-- Each destination has the chunk of the last source that was built for it. No chunk is lost if and
only if the built sources have different paths below the output directory, and they have where the
project keeps its sources separate. -/
theorem build_output {root : Manifest} {o : BuildOptions} {git : Git} {bound : FileTree → Nat}
    {r : BuildReport}
    {t' : FileTree} (ht : t.Sane) (hroot : Path.isAbsolute root.dir = true)
    (hapart : CacheApart root)
    (hgit : ∀ dir args (t : FileTree), t.Sane → (git.finish dir args t).files.Sane)
    (h : build root o git bound t = .ok r t') :
    ∃ deps t₁ files cache s built, resolve root git bound t = .ok deps t₁ ∧
      sources t₁ root deps = .ok files ∧
      cacheOf root t₁ = .ok cache s ∧ Account root o t₁ cache files built r ∧
      (∀ before b after, built = before ++ b :: after →
        (∀ c ∈ after, c.file.output ≠ b.file.output) →
        t'.read [] (destination (outDir root o) b.file) = .ok (Wire.encode b.function)) ∧
      ((built.map fun b => destination (outDir root o) b.file).Nodup ↔
        (built.map fun b => b.file.output).Nodup) ∧
      (Separate root deps files → (built.map fun b => b.file.output).Nodup) ∧
      ((built.map fun b => b.file.output).Nodup →
        ∀ b ∈ built, t'.read [] (destination (outDir root o) b.file) =
          .ok (Wire.encode b.function)) := by
  obtain ⟨deps, t₁, files, cache, s, hdeps, hsources, hcache, hfold⟩ := build_eq_ok h
  obtain ⟨hsane, hmodules⟩ := sane_of_resolve hroot hgit ht hdeps
  have hsound := fun f => sound_of_sources (f := f) hsane hmodules hsources
  obtain ⟨hl, hmid⟩ := midway_of_cacheOf (o := o) hsane hroot hapart hsound hcache
  obtain ⟨built, hbuilding, hcounts⟩ := building_of_foldlM hfold
  have hsub := hbuilding.sublist
  have hread : ∀ before b after, built = before ++ b :: after →
      (∀ c ∈ after, c.file.output ≠ b.file.output) →
      t'.read [] (destination (outDir root o) b.file) = .ok (Wire.encode b.function) :=
    fun _ _ _ => hbuilding.read hl (List.Subset.refl _) hmid
  refine ⟨deps, t₁, files, cache, s, built, hdeps, hsources, hcache,
    ⟨hsub, hcounts, (hbuilding.kept hl (List.Subset.refl _) hmid).2⟩, hread, ?_,
    fun hsep => ?_, fun hnodup b hb => ?_⟩
  · have hiff := nodup_destinations hl.absolute fun f hf => hsound f (hsub.subset hf)
    rwa [List.map_map, List.map_map] at hiff
  · have hnodup := (hsub.map SourceFile.output).nodup (hsep.nodup_output hsane hmodules hsources)
    rwa [List.map_map] at hnodup
  · obtain ⟨before, after, rfl⟩ := List.append_of_mem hb
    refine hread before b after rfl fun c hc heq => ?_
    rw [List.map_append, List.map_cons] at hnodup
    have hnot := (List.nodup_cons.1 (List.nodup_append.1 hnodup).2.1).1
    exact hnot (heq ▸ List.mem_map_of_mem (f := fun b : Built => b.file.output) hc)

section Samples

open Build

/-- A project with one source, and a dependency that is fetched and has a source of the same
name. -/
def pairRoot : Manifest where
  dir := utf8 "/p"
  dirs := [utf8 "src"]
  cachePath := utf8 "cache.db"
  dependencies := [(utf8 "m", { git := utf8 "host/m", tag := utf8 "v1" })]

def pairTree : FileTree where
  entries := [([utf8 "p"], .directory), ([utf8 "p", utf8 "src"], .directory),
    ([utf8 "p", utf8 "src", utf8 "a.lua"], .file (utf8 "({})()"))]

def pairRepository : Repository where
  url := utf8 "host/m"
  file := utf8 "a.lua"
  content := utf8 "({})({})"
  commit := utf8 "0123abcd"

def pairDirectory : Place := [utf8 "p", utf8 ".lunac", utf8 "deps", utf8 "m"]

def pairTreeLocked : FileTree where
  entries := ([utf8 "p", utf8 ".lunac", utf8 "lock.toml"], .file (utf8
      "[[deps]]\n  name = \"m\"\n  git = \"host/m\"\n  tag = \"v1\"\n  commit = \"0123abcd\"\n")) ::
    (pairDirectory ++ [utf8 "a.lua"], .file (utf8 "({})({})")) :: (pairDirectory, .directory) ::
    ([utf8 "p", utf8 ".lunac", utf8 "deps"], .directory) ::
      ([utf8 "p", utf8 ".lunac"], .directory) :: pairTree.entries

def pairDependencies : List Resolved :=
  [{ name := utf8 "m", module := utf8 "m", path := utf8 "/p/.lunac/deps/m", manifest := none }]

def pairFiles : List SourceFile :=
  [{ path := utf8 "/p/.lunac/deps/m/a.lua", inside := utf8 "a.lua", module := utf8 "m"
     owner := { dir := utf8 "/p/.lunac/deps/m" } },
    { path := utf8 "/p/src/a.lua", inside := utf8 "a.lua", module := [], owner := pairRoot }]

def toOut : BuildOptions := { outDir := utf8 "out" }

/-- What a build counts as compiled and as failed, and what is at a path afterwards. -/
def tally (path : Bytes) : EStateM.Result BuildError FileTree BuildReport →
    Option (Nat × Nat × Option Bytes)
  | .ok r t => some (r.compiled, r.failed.length, (t.read [] path).toOption)
  | .error _ _ => none

theorem of_tally {path : Bytes} {res : EStateM.Result BuildError FileTree BuildReport} {m n : Nat}
    {text : Option Bytes}
    (h : tally path res = some (m, n, text)) :
    ∃ r t', res = .ok r t' ∧ r.compiled = m ∧ r.failed.length = n ∧
      (t'.read [] path).toOption = text := by
  cases res with
  | error e t' => cases h
  | ok r t' =>
    cases h
    exact ⟨r, t', rfl, rfl, rfl, rfl⟩

def chunkOf (chunk text : Bytes) : Option Bytes :=
  (Job.result ⟨chunk, text, false⟩).toOption.map Wire.encode

theorem resolve_pair : resolve pairRoot pairRepository.git (fun _ => 2) pairTree =
    .ok pairDependencies pairTreeLocked := by cbv

theorem sources_pair : sources pairTreeLocked pairRoot pairDependencies = .ok pairFiles := by cbv

theorem tally_pair : tally (utf8 "/p/out/m/a.luac")
    (build pairRoot toOut pairRepository.git (fun _ => 2) pairTree) =
    some (2, 0, chunkOf (utf8 "@a.lua") (utf8 "({})({})")) := by
  rw [build_eq resolve_pair sources_pair]
  decide +kernel

theorem sane_of_checks (hwell : ∀ x ∈ t.entries.map Prod.fst, t.isDirectory x.dropLast = true)
    (hdistinct : (t.entries.map Prod.fst).Nodup)
    (hsteps : ∀ x ∈ t.entries.map Prod.fst, ∀ n ∈ x, n ≠ [] ∧ Path.slash ∉ n ∧ n ≠ Path.dot ∧
    n ≠ Path.dotDot) : t.Sane :=
  ⟨fun _ _ hmem => hwell _ (List.mem_map_of_mem hmem), hdistinct, fun _ _ hmem n hn =>
    have h := hsteps _ (List.mem_map_of_mem hmem) n hn
    ⟨h.1, h.2.1, h.2.2.1, h.2.2.2⟩⟩

theorem pairTree_sane : pairTree.Sane := sane_of_checks (by decide) (by decide) (by decide)

/-- Both chunks are there. -/
theorem build_output_pair : pairTree.Sane ∧ CacheApart pairRoot ∧
    ∃ r t', build pairRoot toOut pairRepository.git (fun _ => 2) pairTree = .ok r t' ∧
      r.compiled = 2 ∧ ∃ built : List Built, built.length = 2 ∧
      (built.map fun b => destination (outDir pairRoot toOut) b.file).Nodup ∧
      ∀ b ∈ built, t'.read [] (destination (outDir pairRoot toOut) b.file) =
        .ok (Wire.encode b.function) := by
  obtain ⟨r, t', h, hcompiled, hfailed, -⟩ := of_tally tally_pair
  refine ⟨pairTree_sane, by decide, r, t', h, hcompiled, ?_⟩
  obtain ⟨deps, t₁, files, cache, s, built, hdeps, hsources, -, haccount, -, hiff, hsep, hread⟩ :=
    build_output pairTree_sane (by decide) (by decide)
      (fun dir args _ => pairRepository.sane dir args) h
  cases resolve_pair.symm.trans hdeps
  cases sources_pair.symm.trans hsources
  have hlength : built.length = 2 := by
    have hcount := haccount.counts.failed
    rw [hfailed] at hcount
    simpa [pairFiles] using hcount
  have hnodup := hsep ⟨by decide, by decide, by decide, by decide⟩
  exact ⟨built, hlength, hiff.2 hnodup, hread hnodup⟩

/-- A project with two source directories that have a file of one name. -/
def twinRoot : Manifest where
  dir := utf8 "/p"
  dirs := [utf8 "src", utf8 "lib"]
  cacheEnabled := false

def twinTree : FileTree where
  entries :=
    [([utf8 "p"], .directory), ([utf8 "p", utf8 "src"], .directory),
      ([utf8 "p", utf8 "lib"], .directory),
    ([utf8 "p", utf8 "src", utf8 "a.lua"], .file (utf8 "({})()")),
    ([utf8 "p", utf8 "lib", utf8 "a.lua"], .file (utf8 "({})({})"))]

def twin (dir : String) : SourceFile where
  path := utf8 "/p/" ++ utf8 dir ++ utf8 "/a.lua"
  inside := utf8 "a.lua"
  module := []
  owner := twinRoot

theorem resolve_twins : (resolve twinRoot).run twinTree = .ok [] twinTree := by cbv

theorem sources_twins : sources twinTree twinRoot [] = .ok [twin "src", twin "lib"] := by cbv

theorem tally_twins : tally (utf8 "/p/out/a.luac") ((build twinRoot toOut).run twinTree) =
    some (2, 0, chunkOf (utf8 "@lib/a.lua") (utf8 "({})({})")) := by
  rw [EStateM.run, build_eq resolve_twins sources_twins]
  decide +kernel

/-- Two sources are compiled for one destination, without a word, and the chunk of the first is
lost. -/
theorem build_twins : ∃ r t' f g, (build twinRoot toOut).run twinTree = .ok r t' ∧ r.compiled = 2 ∧
    r.failed = [] ∧
    sources twinTree twinRoot [] = .ok [f, g] ∧ f.path ≠ g.path ∧
    destination (outDir twinRoot toOut) f = destination (outDir twinRoot toOut) g ∧
    ∃ p, (request twinRoot toOut f).direct twinTree = .ok p ∧
      t'.read [] (destination (outDir twinRoot toOut) f) ≠ .ok (Wire.encode p) := by
  obtain ⟨r, t', h, hcompiled, hfailed, hread⟩ := of_tally tally_twins
  refine ⟨r, t', twin "src", twin "lib", h, hcompiled, List.length_eq_zero_iff.1 hfailed,
    sources_twins, by decide, by decide, ?_⟩
  have hlost : chunkOf (utf8 "@lib/a.lua") (utf8 "({})({})") ≠
      ((request twinRoot toOut (twin "src")).direct twinTree).toOption.map Wire.encode := by
        decide +kernel
  have hcompiles : ((request twinRoot toOut (twin "src")).direct twinTree).isOk = true := by
    decide +kernel
  cases hp : (request twinRoot toOut (twin "src")).direct twinTree with
  | error e =>
    rw [hp] at hcompiles
    cases hcompiles
  | ok p =>
    refine ⟨p, rfl, fun hsame => hlost ?_⟩
    rw [← hread, hp, show utf8 "/p/out/a.luac" = destination (outDir twinRoot toOut)
      (twin "src") by decide, hsame]
    rfl

end Samples

end Project

end LuaChunk
