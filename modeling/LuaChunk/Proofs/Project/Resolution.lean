import Mathlib
import LuaChunk.Project.Git
import LuaChunk.Proofs.Files.Action
import LuaChunk.Proofs.Project.Traversal

/-!
Resolving ends, and what it gives out is complete. Every step down finds one more name, so where all
manifests, those of fetched repositories too, declare names of one list only, there is a bound on
how deep a resolution goes, and it does not show.
-/

set_option autoImplicit false

namespace LuaChunk.Project

/-- A version control system that has one repository with one file. It keeps file trees as a file
system can have them. -/
structure Repository where
  url : Bytes
  file : Bytes
  content : Bytes
  commit : Bytes

namespace Repository

variable {r : Repository} {t : FileTree} {I : FileTree → Prop}

def refused (t : FileTree) (output : Bytes) : Finished :=
  { files := t, output, failure := some (utf8 "exit status 128") }

def clone (r : Repository) (dir : Bytes) (t : FileTree) : Finished :=
  let made := (t.makeDirectories (Path.clean dir)).1
  match made.write [] (Path.join [dir, r.file]) r.content with
  | .ok t' => { files := t' }
  | .error e => refused made e.text

/-- What is checked out is there since the repository was cloned. -/
def git (r : Repository) : Git where
  finish _ args t :=
    match args with
    | [command] => refused t command
    | command :: option :: more =>
      if command = utf8 "clone" then
        if more.head? = some r.url ∧
          Path.isAbsolute (more.getLastD []) = true then r.clone (more.getLastD []) t
        else refused t option
      else if command = utf8 "rev-parse" then { files := t, output := r.commit ++ utf8 "\n" }
      else { files := t }
    | [] => refused t []

theorem keeps (hmake : ∀ dir t, Path.isAbsolute dir = true → I t →
    I (t.makeDirectories (Path.clean dir)).1)
    (hwrite : ∀ path t t', I t → t.write [] path r.content = .ok t' → I t') (dir : Bytes)
    (args : List Bytes)
    (ht : I t) : I (r.git.finish dir args t).files := by
  have hclone : ∀ dest, Path.isAbsolute dest = true → I (r.clone dest t).files := by
    intro dest hdest
    have hmade := hmake dest t hdest ht
    unfold clone
    dsimp only
    split
    · rename_i hw
      exact hwrite _ _ _ hmade hw
    · exact hmade
  match args with
  | [] | [_] => exact ht
  | command :: option :: more =>
    show I (ite _ _ _ : Finished).files
    split
    · split
      · rename_i h
        exact hclone _ h.2
      · exact ht
    · split <;> exact ht

theorem sane (r : Repository) (dir : Bytes) (args : List Bytes) {t : FileTree} (ht : t.Sane) :
    (r.git.finish dir args t).files.Sane := by
  refine keeps (fun dir t hdir ht => ?_) (fun path t t' ht hw => ?_) dir args ht
  · refine (FileTree.Kept.makeDirectories (P := fun _ => False) ht ?_).sane
    rw [Path.names_clean hdir]
    exact Path.isStep_cleanNames hdir
  · obtain ⟨q, hfree, rfl⟩ := FileTree.write_eq_ok hw
    exact ht.set hfree _

end Repository

/-! ### Manifests of a tree -/

namespace Manifest

variable {s t : FileTree} {dir : Bytes} {m : Manifest}

theorem isStep_manifestName : Path.IsStep manifestName := by
  constructor <;> decide

theorem file_eq (hdir : Path.isAbsolute dir = true) :
    Path.join [dir, manifestName] = Path.ofNames (Path.cleanNames dir ++ [manifestName]) :=
  Path.join_step hdir isStep_manifestName

theorem isStep_fileNames (hdir : Path.isAbsolute dir = true) :
    ∀ n ∈ Path.cleanNames dir ++ [manifestName], Path.IsStep n := by
  intro n hn
  rcases List.mem_append.1 hn with hn | hn
  · exact Path.isStep_cleanNames hdir n hn
  · exact List.mem_singleton.1 hn ▸ isStep_manifestName

theorem complete_dir {x : ManifestText} {path : Bytes} (h : x.complete path dir = .ok m) :
    m.dir = dir := by
  unfold ManifestText.complete at h
  split at h
  · cases h
  · cases hx : x.exclude.mapM (readPattern path) with
    | error e =>
      rw [hx] at h
      cases h
    | ok patterns =>
      rw [hx] at h
      cases h
      rfl

theorem load_eq_ok (h : load t dir = .ok m) : ∃ text, t.read []
    (Path.join [dir, manifestName]) = .ok text ∧
    m.dir = Path.clean dir ∧
    ∀ s : FileTree, s.read [] (Path.join [dir, manifestName]) = .ok text → load s dir = .ok m := by
  unfold load at h
  dsimp only at h
  cases hr : t.read [] (Path.join [dir, manifestName]) with
  | error e =>
    rw [hr] at h
    cases h
  | ok text =>
    refine ⟨text, rfl, ?_, fun s hs => ?_⟩
    · rw [hr] at h
      dsimp only at h
      split at h
      · cases h
      · exact complete_dir h
    · unfold load
      dsimp only
      rw [hs]
      rwa [hr] at h

theorem load_dependencies {text : Bytes} (h : load t dir = .ok m)
    (hr : t.read [] (Path.join [dir, manifestName]) = .ok text) :
    ∃ x, ManifestText.read text = .ok x ∧ m.dependencies = x.dependencies := by
  unfold load at h
  dsimp only at h
  rw [hr] at h
  dsimp only at h
  split at h
  · cases h
  · rename_i x hx
    refine ⟨x, hx, ?_⟩
    unfold ManifestText.complete at h
    split at h
    · cases h
    · cases hp : x.exclude.mapM (readPattern (Path.join [dir, manifestName])) with
      | error e =>
        rw [hp] at h
        cases h
      | ok patterns =>
        rw [hp] at h
        cases h
        rfl

theorem load_filesOf (hs : s.FilesOf t) (ht : t.Well) (hdir : Path.isAbsolute dir = true)
    (h : load s dir = .ok m) :
    load t dir = .ok m := by
  obtain ⟨text, hr, -, hload⟩ := load_eq_ok h
  rw [file_eq hdir] at hr hload
  exact hload t (hs.read ht (isStep_fileNames hdir) (by simp) hr)

theorem load_ofNames (hdir : Path.isAbsolute dir = true) :
    load t (Path.ofNames (Path.cleanNames dir)) = load t dir := by
  have hsteps := Path.isStep_cleanNames hdir
  have hfile : Path.join [Path.ofNames (Path.cleanNames dir), manifestName] =
      Path.join [dir, manifestName] := by
    rw [file_eq (show Path.isAbsolute (Path.ofNames (Path.cleanNames dir)) = true from rfl),
      file_eq hdir,
      Path.cleanNames_ofNames hsteps]
  have hclean : Path.clean (Path.ofNames (Path.cleanNames dir)) = Path.clean dir := by
    rw [Path.clean_ofNames hsteps, Path.clean, if_pos hdir]
  unfold load
  rw [hfile, hclean]

theorem mem_manifestsOf (hdir : Path.isAbsolute dir = true) (h : load t dir = .ok m) :
    m ∈ Resolve.manifestsOf t := by
  obtain ⟨text, hr, -, -⟩ := load_eq_ok h
  rw [file_eq hdir] at hr
  obtain ⟨-, -, e, hl, -⟩ := FileTree.read_ofNames (isStep_fileNames hdir) (by simp) hr
  refine List.mem_filterMap.2
    ⟨(Path.cleanNames dir ++ [manifestName], e), FileTree.mem_of_lookup? hl (by simp), ?_⟩
  simp [load_ofNames hdir, h, Except.toOption]

end Manifest

namespace Resolve

open OnFiles

variable {root : Manifest} {git : Git} {lock : List LockedDep} {name base : Bytes} {d : Dependency}
  {r : Resolved}
  {s s' t : FileTree}

/-! ### One dependency -/

/-- What the steps of a resolution keep: making the directory of the repositories, and commands. -/
structure Stays (root : Manifest) (git : Git) (I : FileTree → Prop) : Prop where
  make : ∀ t, I t → I (t.makeDirectories root.depsDir).1
  finish : ∀ dir args t, I t → I (git.finish dir args t).files

theorem stays_true : Stays root git fun _ => True := ⟨fun _ _ => trivial, fun _ _ _ _ => trivial⟩

section

variable {I : FileTree → Prop} (h : Stays root git I)
include h

theorem keeps_run (dir command : Bytes) (args : List Bytes) : Keeps I (fun _ => True)
    (git.run dir command args) := by
  refine Keeps.get.bind fun t ht => (Keeps.set (h.finish _ _ t ht)).bind fun _ _ => ?_
  dsimp only
  split
  · exact .pure trivial
  · exact .throw _

theorem keeps_useRepository (dir : Bytes) : Keeps I (fun _ => True)
    (useRepository root git lock name d dir) := by
  have hrun : ∀ dir command args, Keeps I (fun _ => True) (discard (git.run dir command args)) :=
    fun dir command args => (keeps_run h dir command args).bind fun _ _ => .pure trivial
  have hfetch : Keeps I (fun _ => True) (fetchRepository git lock name d dir) := by
    refine Keeps.get.bind fun t _ => ?_
    split
    · exact hrun _ _ _
    · split
      · exact hrun _ _ _
      · exact .pure trivial
  refine (Keeps.makeDirectories h.make).bind fun _ _ => (hfetch.bind fun _ _ => ?_).adaptExcept
  split
  · exact hrun _ _ _
  · exact .pure trivial

theorem keeps_locate : Keeps I (· = location root base name d)
    (locate root git lock name d base) := by
  unfold locate location
  by_cases hp : d.path.isEmpty = true
  · rw [if_pos hp, if_neg (show ¬ (!d.path.isEmpty) = true by simp [hp])]
    split
    · exact (keeps_useRepository h _).bind fun _ _ => .pure rfl
    · exact .throw _
  · rw [if_neg hp, if_pos (show (!d.path.isEmpty) = true by simpa using hp)]
    refine Keeps.get.bind fun t _ => ?_
    split
    · exact .pure rfl
    · exact .throw _

theorem keeps_one : Keeps I
    (fun r => Settled root base name d r ∧ checkedModuleName name = .ok r.module ∧
    ∃ t, I t ∧ r.manifest = (Manifest.load t r.path).toOption) (one root git lock name d base) := by
  unfold one
  split
  · exact .throw _
  · rename_i hmodule
    exact (keeps_locate h).bind fun path hpath => Keeps.get.bind fun t ht =>
      .pure ⟨⟨rfl, hpath⟩, hmodule, t, ht, rfl⟩

end

theorem one_eq_ok (h : one root git lock name d base s = .ok r s') : Settled root base name d r :=
  ((keeps_one stays_true).ok trivial h).2.1

/-! ### Runs -/

/-- Dependencies are resolved to the end, however deep they are nested: what is met in a directory,
what was found and given out before, and what comes of it. -/
inductive Run (root : Manifest) (git : Git) (lock : List LockedDep) :
    (base : Bytes) → Declarations → Progress → FileTree →
    EStateM.Result ResolveError FileTree Progress → Prop
  | done {base : Bytes} {p : Progress} {s : FileTree} : Run root git lock base [] p s (.ok p s)
  | known {base name : Bytes} {d : Dependency} {ds : Declarations} {p : Progress} {s : FileTree}
    {res : EStateM.Result ResolveError FileTree Progress} (hname : name ∈ p.found.map Resolved.name)
    (rest : Run root git lock base ds p s res) : Run root git lock base ((name, d) :: ds) p s res
  | fault {base name : Bytes} {d : Dependency} {ds : Declarations} {p : Progress} {s s' : FileTree}
    {e : DependencyFault}
    (hname : name ∉ p.found.map Resolved.name)
    (hone : one root git lock name d base s = .error e s') :
    Run root git lock base ((name, d) :: ds) p s (.error (.dependency name e) s')
  | faultBelow {base name : Bytes} {d : Dependency} {ds : Declarations} {p : Progress}
    {s s' s'' : FileTree} {r : Resolved}
    {e : ResolveError} (hname : name ∉ p.found.map Resolved.name)
    (hone : one root git lock name d base s = .ok r s')
    (below : Run root git lock r.dir (sortByName r.declared) { found := r :: p.found } s'
    (.error e s'')) :
    Run root git lock base ((name, d) :: ds) p s (.error e s'')
  | settle {base name : Bytes} {d : Dependency} {ds : Declarations} {p q : Progress}
    {s s' s'' : FileTree} {r : Resolved}
    {res : EStateM.Result ResolveError FileTree Progress}
    (hname : name ∉ p.found.map Resolved.name) (hone : one root git lock name d base s = .ok r s')
    (below : Run root git lock r.dir (sortByName r.declared) { found := r :: p.found } s'
    (.ok q s''))
    (rest : Run root git lock base ds { found := q.found, order := p.order ++ q.order ++ [r] } s''
    res) :
    Run root git lock base ((name, d) :: ds) p s res

namespace Run

variable {ds : Declarations} {p q : Progress}

theorem walk {res : EStateM.Result ResolveError FileTree Progress}
    (h : Run root git lock base ds p s res)
    (hres : res = .ok q s') : ∃ order, q.order = p.order ++ order ∧
    Walk root base ds p.found order q.found := by
  induction h generalizing q s' with
  | done =>
    cases hres
    exact ⟨[], (List.append_nil _).symm, .done⟩
  | known hname _ ih =>
    obtain ⟨order, ho, hw⟩ := ih hres
    exact ⟨order, ho, .known hname hw⟩
  | fault => cases hres
  | faultBelow => cases hres
  | settle hname hone _ _ hbelow hrest =>
    obtain ⟨inner, hi, hw⟩ := hbelow rfl
    obtain ⟨order, ho, hw'⟩ := hrest hres
    refine ⟨_, ?_, .settle hname (one_eq_ok hone) hw hw'⟩
    rw [ho, hi]
    simp only [List.nil_append, List.append_assoc, List.singleton_append]

/-- A run that succeeds keeps what its steps keep, and gives out dependencies with the names of
modules. -/
theorem keeps {I : FileTree → Prop} (hstays : Stays root git I)
    {res : EStateM.Result ResolveError FileTree Progress}
    (h : Run root git lock base ds p s res) (hres : res = .ok q s') (hs : I s) :
    I s' ∧ ∀ r ∈ q.order, r ∈ p.order ∨ checkedModuleName r.name = .ok r.module := by
  induction h generalizing q s' with
  | done =>
    cases hres
    exact ⟨hs, fun r hr => .inl hr⟩
  | known _ _ ih => exact ih hres hs
  | fault => cases hres
  | faultBelow => cases hres
  | settle _ hone _ _ hbelow hrest =>
    obtain ⟨hfirst, hsettled, hmodule, -⟩ := (keeps_one hstays).ok hs hone
    obtain ⟨hmid, hinner⟩ := hbelow rfl hfirst
    obtain ⟨hlast, houter⟩ := hrest hres hmid
    refine ⟨hlast, fun r hr => ?_⟩
    rcases houter r hr with hr | hr
    · rcases List.mem_append.1 hr with hr | hr
      · rcases List.mem_append.1 hr with hr | hr
        · exact .inl hr
        · exact .inr ((hinner r hr).resolve_left List.not_mem_nil)
      · rw [List.mem_singleton.1 hr, hsettled.name]
        exact .inr hmodule
    · exact .inr hr

end Run

/-! ### The bound -/

/-- The names that the project's manifest and those of the tree declare. -/
def declaredNames (t : FileTree) (root : Manifest) : List Bytes :=
  (root :: manifestsOf t).flatMap fun m => m.dependencies.map Prod.fst

theorem mem_declaredNames {m : Manifest} (hm : m ∈ manifestsOf t) {x : Bytes × Dependency}
    (hx : x ∈ m.dependencies) :
    x.1 ∈ declaredNames t root :=
  List.mem_flatMap.2 ⟨m, List.mem_cons_of_mem _ hm, List.mem_map_of_mem hx⟩

def missing (names : List Bytes) (found : List Resolved) : Nat :=
  names.countP fun n => decide (n ∉ found.map Resolved.name)

theorem missing_mono (names : List Bytes) {found after : List Resolved}
    (h : ∀ n, n ∈ found.map Resolved.name → n ∈ after.map Resolved.name) : missing names after ≤
    missing names found := by
  refine List.countP_mono_left fun n _ hn => ?_
  rw [decide_eq_true_eq] at hn ⊢
  exact fun hf => hn (h n hf)

theorem missing_lt {names : List Bytes} {found : List Resolved} (hr : r.name ∈ names)
    (hnew : r.name ∉ found.map Resolved.name) :
    missing names (r :: found) < missing names found := by
  obtain ⟨front, back, rfl⟩ := List.append_of_mem hr
  have hkept : ∀ n, n ∈ found.map Resolved.name → n ∈ (r :: found).map Resolved.name :=
    fun n hn => List.mem_cons_of_mem _ hn
  have hfront := missing_mono front hkept
  have hback := missing_mono back hkept
  have hgone : decide (r.name ∉ (r :: found).map Resolved.name) = false := by simp
  have hthere : decide (r.name ∉ found.map Resolved.name) = true := decide_eq_true hnew
  unfold missing at hfront hback ⊢
  rw [List.countP_append, List.countP_append, List.countP_cons, List.countP_cons, hgone, hthere]
  simp only [Bool.false_eq_true, if_false, if_true]
  omega

/-- A tree in which every manifest declares names of a list only. -/
structure Offers (names : List Bytes) (t : FileTree) : Prop where
  well : t.Well
  within : ∀ dir m, Path.isAbsolute dir = true → Manifest.load t dir = .ok m → ∀ x ∈ m.dependencies,
    x.1 ∈ names

theorem offers_declaredNames (root : Manifest) (ht : t.Well) : Offers (declaredNames t root) t :=
  ⟨ht, fun _ _ hdir hload _ hx => mem_declaredNames (Manifest.mem_manifestsOf hdir hload) hx⟩

theorem Offers.filesOf {names : List Bytes} (h : Offers names t) (hs : s.FilesOf t) :
    Offers names s :=
  ⟨hs.well, fun dir m hdir hload =>
    h.within dir m hdir (Manifest.load_filesOf hs h.well hdir hload)⟩

theorem Offers.write {names : List Bytes} (h : Offers names t) {path text : Bytes}
    (hw : t.write [] path text = .ok s)
    (htext : ∀ x, ManifestText.read text = .ok x → ∀ y ∈ x.dependencies, y.1 ∈ names) : Offers names
    s := by
  obtain ⟨q, hfree, rfl⟩ := FileTree.write_eq_ok hw
  refine ⟨h.well.set hfree _, fun dir m hdir hload => ?_⟩
  obtain ⟨read, hr, -, hsame⟩ := Manifest.load_eq_ok hload
  have hsteps := Manifest.isStep_fileNames hdir
  rw [Manifest.file_eq hdir] at hr
  obtain ⟨-, -, e, hl, he⟩ := FileTree.read_ofNames hsteps (by simp) hr
  by_cases hq : Path.cleanNames dir ++ [manifestName] = q
  · rw [hq, FileTree.lookup?_set_self t _ hfree.nonempty] at hl
    cases hl
    obtain rfl : text = read := Option.some.inj he
    obtain ⟨x, hx, hdeps⟩ := Manifest.load_dependencies hload (Manifest.file_eq hdir ▸ hr)
    exact hdeps ▸ htext x hx
  · refine h.within dir m hdir (hsame t ?_)
    rw [Manifest.file_eq hdir]
    refine h.well.read_eq hsteps (by simp) hr fun e _ hl => ?_
    rwa [FileTree.lookup?_set_of_ne t _ hq] at hl

theorem Offers.repository {names : List Bytes} {x : Repository}
    (htext : ∀ m, ManifestText.read x.content = .ok m → ∀ y ∈ m.dependencies, y.1 ∈ names)
    (dir : Bytes)
    (args : List Bytes) (ht : Offers names t) : Offers names (x.git.finish dir args t).files :=
  Repository.keeps (fun _ _ _ ht => ht.filesOf (FileTree.filesOf_makeDirectories _ ht.well))
    (fun _ _ _ ht hw => ht.write hw htext) dir args ht

theorem Offers.stays {names : List Bytes}
    (hgit : ∀ dir args t, Offers names t → Offers names (git.finish dir args t).files) :
    Stays root git (Offers names) :=
  ⟨fun _ ht => ht.filesOf (FileTree.filesOf_makeDirectories _ ht.well), hgit⟩

/-- What a dependency declares is in the list, and its directory is known from the root. -/
theorem one_declared {names : List Bytes} (hstays : Stays root git (Offers names))
    (hroot : Path.isAbsolute root.dir = true)
    (hbase : Path.isAbsolute base = true) (hs : Offers names s)
    (h : one root git lock name d base s = .ok r s') :
    Path.isAbsolute r.dir = true ∧ ∀ x ∈ r.declared, x.1 ∈ names := by
  obtain ⟨-, hsettled, -, t, ht, hmanifest⟩ := (keeps_one hstays).ok hs h
  have habs : Path.isAbsolute r.path = true := by
    rw [hsettled.path]
    unfold location
    split
    · exact Path.isAbsolute_join (Path.isAbsolute_join hroot _) _
    · exact Path.isAbsolute_absolute hbase _
  unfold Resolved.dir Resolved.declared
  cases hload : Manifest.load t r.path with
  | error e =>
    rw [hload] at hmanifest
    rw [show r.manifest = none from hmanifest]
    exact ⟨habs, fun x hx => absurd hx List.not_mem_nil⟩
  | ok m =>
    rw [hload] at hmanifest
    rw [show r.manifest = some m from hmanifest]
    obtain ⟨-, -, hdir, -⟩ := Manifest.load_eq_ok hload
    refine ⟨?_, ht.within _ _ habs hload⟩
    show Path.isAbsolute m.dir = true
    rw [hdir]
    exact Path.isAbsolute_clean habs

/-! ### Bounded resolutions -/

def visit (root : Manifest) (git : Git) (lock : List LockedDep) (depth : Nat) (base : Bytes)
    (p : Progress) :
    Bytes × Dependency → OnFiles ResolveError Progress
  | (name, d) => do
    if p.found.any fun r => r.name == name then return p
    let r ← EStateM.adaptExcept (ResolveError.dependency name) (one root git lock name d base)
    let found := r :: p.found
    if r.declared.isEmpty then return { found, order := p.order ++ [r] }
    let sub ← all root git lock depth r.declared r.dir found
    return { found := sub.found, order := p.order ++ sub.order ++ [r] }

theorem all_succ (depth : Nat) (deps : Declarations) (found : List Resolved) :
    all root git lock (depth + 1) deps base found =
      (sortByName deps).foldlM (visit root git lock depth base) { found } := rfl

variable {p : Progress} {depth : Nat}

theorem visit_known (h : name ∈ p.found.map Resolved.name) :
    visit root git lock depth base p (name, d) s = .ok p s := by
  rw [visit, if_pos (by simpa using h)]
  rfl

theorem visit_fault {e : DependencyFault} (h : name ∉ p.found.map Resolved.name)
    (hone : one root git lock name d base s = .error e s') :
    visit root git lock depth base p (name, d) s = .error (.dependency name e) s' := by
  rw [visit, if_neg (by simpa using h), adaptExcept_bind, hone]

theorem visit_leaf (h : name ∉ p.found.map Resolved.name)
    (hone : one root git lock name d base s = .ok r s')
    (hleaf : r.declared = []) :
    visit root git lock depth base p (name, d) s =
      .ok { found := r :: p.found, order := p.order ++ [r] } s' := by
  rw [visit, if_neg (by simpa using h), adaptExcept_bind, hone]
  dsimp only
  rw [hleaf]
  rfl

theorem visit_new (depth : Nat) (h : name ∉ p.found.map Resolved.name)
    (hone : one root git lock name d base s = .ok r s')
    (hmore : r.declared ≠ []) :
    visit root git lock depth base p (name, d) s = match all root git lock depth r.declared r.dir
      (r :: p.found) s' with
      | .ok q s'' => .ok { found := q.found, order := p.order ++ q.order ++ [r] } s''
      | .error e s'' => .error e s'' := by
  rw [visit, if_neg (by simpa using h), adaptExcept_bind, hone]
  dsimp only
  rw [if_neg (by simpa using hmore)]
  show EStateM.bind _ _ s' = _
  unfold EStateM.bind
  cases all root git lock depth r.declared r.dir (r :: p.found) s' <;> rfl

theorem foldlM_cons_ok {f : Progress → Bytes × Dependency → OnFiles ResolveError Progress}
    {x : Bytes × Dependency}
    {xs : Declarations} {q : Progress} (h : f p x s = .ok q s') : (x :: xs).foldlM f p s =
    xs.foldlM f q s' := by
  rw [List.foldlM_cons]
  show EStateM.bind _ _ s = _
  unfold EStateM.bind
  rw [h]

theorem foldlM_cons_error {f : Progress → Bytes × Dependency → OnFiles ResolveError Progress}
    {x : Bytes × Dependency}
    {xs : Declarations} {e : ResolveError} (h : f p x s = .error e s') : (x :: xs).foldlM f p s =
    .error e s' := by
  rw [List.foldlM_cons]
  show EStateM.bind _ _ s = _
  unfold EStateM.bind
  rw [h]

/-- A depth is enough where it is greater than the number of missing names. -/
structure Enough (names : List Bytes) (base : Bytes) (ds : Declarations) (found : List Resolved)
    (s : FileTree)
    (depth : Nat) : Prop where
  offers : Offers names s
  base : Path.isAbsolute base = true
  declared : ∀ x ∈ ds, x.1 ∈ names
  depth : missing names found < depth

/-- A resolution goes on to the end, or it is too deep, and no list of names says that its depth is
enough. -/
def Ends (root : Manifest) (git : Git) (lock : List LockedDep) (base : Bytes) (ds : Declarations)
    (p : Progress)
    (s : FileTree) (depth : Nat) (res : EStateM.Result ResolveError FileTree Progress) : Prop :=
  Run root git lock base ds p s res ∨ (∃ s', res = .error .tooDeep s') ∧
    ∀ names, Path.isAbsolute root.dir = true → Stays root git (Offers names) →
      ¬ Enough names base ds p.found s depth

theorem ends_all {ds : Declarations} {found : List Resolved} :
    Ends root git lock base (sortByName ds) { found } s depth
      (all root git lock depth ds base found s) := by
  induction depth generalizing ds base found s with
  | zero => exact .inr ⟨⟨s, rfl⟩, fun _ _ _ h => absurd h.depth (Nat.not_lt_zero _)⟩
  | succ depth below =>
    rw [all_succ]
    generalize sortByName ds = es
    generalize ({ found } : Progress) = p
    clear ds found
    induction es generalizing p s with
    | nil => exact .inl .done
    | cons x es ih =>
      obtain ⟨name, d⟩ := x
      have hrest : ∀ {names q s'}, Enough names base ((name, d) :: es) p.found s (depth + 1) →
          Offers names s' →
          missing names q ≤ missing names p.found → Enough names base es q s' (depth + 1) :=
            fun h hs' hq =>
        ⟨hs', h.base, fun x hx => h.declared x (List.mem_cons_of_mem _ hx),
          Nat.lt_of_le_of_lt hq h.depth⟩
      by_cases hfound : name ∈ p.found.map Resolved.name
      · rw [foldlM_cons_ok (visit_known hfound)]
        rcases @ih s p with hrun | ⟨hdeep, hnot⟩
        · exact .inl (.known hfound hrun)
        · exact .inr ⟨hdeep, fun names hroot hstays h =>
            hnot names hroot hstays (hrest h h.offers (Nat.le_refl _))⟩
      cases hone : one root git lock name d base s with
      | error e s' =>
        rw [foldlM_cons_error (visit_fault hfound hone)]
        exact .inl (.fault hfound hone)
      | ok r s' =>
        have hr := (one_eq_ok hone).name
        -- one name less is missing below
        have hfewer : ∀ {names : List Bytes},
            Enough names base ((name, d) :: es) p.found s (depth + 1) →
            missing names (r :: p.found) < missing names p.found := fun h =>
          missing_lt (hr ▸ h.declared _ (List.mem_cons_self ..)) (hr ▸ hfound)
        by_cases hleaf : r.declared = []
        · rw [foldlM_cons_ok (visit_leaf hfound hone hleaf)]
          have hbelow : Run root git lock r.dir (sortByName r.declared) { found := r :: p.found } s'
              (.ok { found := r :: p.found } s') := by
            rw [hleaf, show sortByName ([] : Declarations) = [] from List.mergeSort_nil]
            exact .done
          rcases @ih s' { found := r :: p.found, order := p.order ++ [r] } with hrun | ⟨hdeep, hnot⟩
          · refine .inl (.settle hfound hone hbelow ?_)
            rwa [List.append_nil]
          · exact .inr ⟨hdeep, fun names hroot hstays h => hnot names hroot hstays
              (hrest h ((keeps_one hstays).ok h.offers hone).1 (Nat.le_of_lt (hfewer h)))⟩
        have hvisit := visit_new depth hfound hone hleaf
        have hsub := @below r.dir s' r.declared (r :: p.found)
        cases hall : all root git lock depth r.declared r.dir (r :: p.found) s' with
        | error e s'' =>
          rw [hall] at hsub hvisit
          rw [foldlM_cons_error hvisit]
          rcases hsub with hrun | ⟨hdeep, hnot⟩
          · exact .inl (.faultBelow hfound hone hrun)
          · refine .inr ⟨hdeep, fun names hroot hstays h => hnot names hroot hstays ?_⟩
            obtain ⟨hdir, hdeclared⟩ := one_declared hstays hroot h.base h.offers hone
            exact ⟨((keeps_one hstays).ok h.offers hone).1, hdir,
              fun x hx => hdeclared x (mem_sortByName.1 hx),
              Nat.lt_of_lt_of_le (hfewer h) (Nat.le_of_lt_succ h.depth)⟩
        | ok q s'' =>
          rw [hall] at hsub hvisit
          rw [foldlM_cons_ok hvisit]
          have hbelow := hsub.resolve_right fun ⟨⟨_, hdeep⟩, _⟩ => nomatch hdeep
          rcases @ih s'' { found := q.found, order := p.order ++ q.order ++ [r] }
              with hrun | ⟨hdeep, hnot⟩
          · exact .inl (.settle hfound hone hbelow hrun)
          · refine .inr ⟨hdeep, fun names hroot hstays h => hnot names hroot hstays (hrest h ?_ ?_)⟩
            · exact (hbelow.keeps hstays rfl ((keeps_one hstays).ok h.offers hone).1).1
            · obtain ⟨order, -, hwalk⟩ := hbelow.walk rfl
              have hkept := missing_mono names fun n hn => hwalk.name_mem_after.2 (.inr hn)
              exact Nat.le_of_lt (Nat.lt_of_le_of_lt hkept (hfewer h))

theorem run_all (hroot : Path.isAbsolute root.dir = true) {names : List Bytes}
    (hstays : Stays root git (Offers names))
    {ds : Declarations} {found : List Resolved} (h : Enough names base ds found s depth) :
    Run root git lock base (sortByName ds) { found } s (all root git lock depth ds base found s) :=
  ends_all.resolve_right fun hdeep => hdeep.2 names hroot hstays
    ⟨h.offers, h.base, fun x hx => h.declared x (mem_sortByName.1 hx), h.depth⟩

theorem run_of_all {ds : Declarations} {found : List Resolved}
    (h : all root git lock depth ds base found s = .ok p s') :
    Run root git lock base (sortByName ds) { found } s (.ok p s') := by
  have hends : Ends root git lock base (sortByName ds) { found } s depth (.ok p s') := h ▸ ends_all
  exact hends.resolve_right fun ⟨⟨_, hdeep⟩, _⟩ => nomatch hdeep

end Resolve

/-! ### What is given out -/

/-- The steps of a resolution that succeeds: a project without dependencies resolves nothing, any
other one writes its lock file in the end. -/
theorem resolve_eq_ok {root : Manifest} {git : Git} {bound : FileTree → Nat} {t t' : FileTree}
    {rs : List Resolved}
    (h : resolve root git bound t = .ok rs t') :
    (root.dependencies = [] ∧ rs = [] ∧ t' = t) ∨ root.dependencies ≠ [] ∧
      ∃ lock p s, p.order = rs ∧
      Resolve.all root git lock (bound t) root.dependencies root.dir [] t = .ok p s ∧
      Resolve.writeLock root git p.found s = .ok () t' := by
  unfold resolve at h
  rw [OnFiles.get_bind] at h
  cases hlock : Lock.load t root.lockFile with
  | error e =>
    rw [hlock] at h
    cases h
  | ok lock =>
    rw [hlock] at h
    dsimp only at h
    by_cases hnone : root.dependencies.isEmpty = true
    · rw [if_pos hnone] at h
      cases h
      exact .inl ⟨List.isEmpty_iff.1 hnone, rfl, rfl⟩
    · rw [if_neg hnone] at h
      obtain ⟨p, s, hall, h⟩ := OnFiles.bind_eq_ok h
      obtain ⟨_, _, hlock, h⟩ := OnFiles.bind_eq_ok h
      cases h
      exact .inr ⟨by simpa using hnone, lock.getD [], p, s, rfl, hall, hlock⟩

namespace Resolve

variable {root : Manifest} {git : Git} {t : FileTree}

theorem walk_of_resolve {bound : FileTree → Nat} {rs : List Resolved} {t' : FileTree}
    (h : resolve root git bound t = .ok rs t') :
    ∃ after, Walk root root.dir (sortByName root.dependencies) [] rs after := by
  rcases resolve_eq_ok h with ⟨hnone, rfl, -⟩ | ⟨-, lock, p, s, rfl, hall, -⟩
  · rw [hnone, show sortByName ([] : Declarations) = [] from List.mergeSort_nil]
    exact ⟨[], .done⟩
  · obtain ⟨order, ho, hwalk⟩ := (run_of_all hall).walk rfl
    rw [List.nil_append] at ho
    exact ⟨p.found, ho ▸ hwalk⟩

theorem run_project (hroot : Path.isAbsolute root.dir = true) {names : List Bytes}
    (hgit : ∀ dir args t, Offers names t → Offers names (git.finish dir args t).files)
    (ht : Offers names t)
    (hnames : ∀ x ∈ root.dependencies, x.1 ∈ names) (lock : List LockedDep) {depth : Nat}
    (hdepth : names.length < depth) :
    Run root git lock root.dir (sortByName root.dependencies) { found := [] } t
      (all root git lock depth root.dependencies root.dir [] t) :=
  run_all hroot (Offers.stays hgit)
    ⟨ht, hroot, hnames, Nat.lt_of_le_of_lt List.countP_le_length hdepth⟩

end Resolve

/-- A name that the project declares, or to which one leads that it declares. -/
def Reachable (root : Manifest) (rs : List Resolved) (n : Bytes) : Prop :=
  ∃ k d, (k, d) ∈ root.dependencies ∧ LeadsTo rs k n

open Resolve in
/-- Resolving ends where the manifests of the files, and of all repositories that are fetched,
declare finitely many names. What it gives out has every name that can be reached once, and no
others, and has a dependency after those that it declares, unless there is a cycle of names. -/
theorem resolve_complete {root : Manifest} {git : Git} {names : List Bytes} {t : FileTree}
    (hroot : Path.isAbsolute root.dir = true)
    (hgit : ∀ dir args t, Offers names t → Offers names (git.finish dir args t).files)
    (ht : Offers names t)
    (hnames : ∀ x ∈ root.dependencies, x.1 ∈ names) :
    (∀ lock depth, names.length < depth →
      Run root git lock root.dir (sortByName root.dependencies) { found := [] } t
      (all root git lock depth root.dependencies root.dir [] t)) ∧
    ∀ bound rs t', resolve root git bound t = .ok rs t' →
      (∀ n, Reachable root rs n → (rs.map Resolved.name).count n = 1) ∧
      (∀ r ∈ rs, Reachable root rs r.name) ∧
      ((∀ n, ¬ Relation.TransGen (Declares rs) n n) → ∀ before r later, rs = before ++ r :: later →
        ∀ n d, (n, d) ∈ r.declared → n ∈ before.map Resolved.name) := by
  refine ⟨fun lock _ hdepth => run_project hroot hgit ht hnames lock hdepth, fun bound rs t' h =>
    ?_⟩
  obtain ⟨after, hwalk⟩ := walk_of_resolve h
  have hmem : ∀ {n}, n ∈ after.map Resolved.name ↔ n ∈ rs.map Resolved.name := by
    intro n
    simpa using hwalk.name_mem_after (n := n)
  have hnodup : (rs.map Resolved.name).Nodup := by
    have hperm : (after.map Resolved.name).Perm (rs.map Resolved.name) := by
      simpa using hwalk.perm.map Resolved.name
    exact hperm.nodup_iff.1 (hwalk.nodup List.nodup_nil)
  refine ⟨?_, ?_, ?_⟩
  · rintro n ⟨k, d, hd, hlead⟩
    refine List.count_eq_one_of_mem hnodup ?_
    induction hlead with
    | refl => exact hmem.1 (hwalk.found_of_met (mem_sortByName.2 hd))
    | tail _ hstep =>
      obtain ⟨r, hr, -, e, he⟩ := hstep
      exact hmem.1 (hwalk.closed hr he)
  · intro r hr
    obtain ⟨n, d, hd, hlead⟩ := hwalk.reached hr
    exact ⟨n, d, mem_sortByName.1 hd, hlead⟩
  · intro hcycle before r later hsplit n d hd
    rcases hwalk.ordered hsplit hd with hnone | hb | hlead
    · cases hnone
    · exact hb
    · refine absurd (.head' ⟨r, ?_, rfl, d, hd⟩ hlead) (hcycle r.name)
      rw [hsplit]
      exact List.mem_append_right _ (List.mem_cons_self ..)

/-- Two dependencies that declare a third one. The first of them is fetched. -/
def diamondTree : FileTree where
  entries :=
    [([utf8 "p"], .directory), ([utf8 "p", utf8 "b"], .directory),
      ([utf8 "p", utf8 "c"], .directory),
    ([utf8 "p", utf8 "b", manifestName],
      .file (utf8 "[dependencies]\nc = \x7bpath = \"../c\"\x7d\n"))]

def diamondRoot : Manifest where
  dir := utf8 "/p"
  dependencies := [(utf8 "b", { path := utf8 "b" }), (utf8 "a", { git := utf8 "host/a" })]

def diamondGit : Git := Repository.git {
  url := utf8 "host/a", file := manifestName, commit := utf8 "0123abcd"
  content := utf8 "[dependencies]\nc = \x7bpath = \"../../../c\"\x7d\n" }

/-- The names that are given out, with those that each declares. -/
def outline : EStateM.Result ResolveError FileTree (List Resolved) →
    Option (List (Bytes × List Bytes))
  | .ok rs _ => some (rs.map fun r => (r.name, r.declared.map Prod.fst))
  | .error _ _ => none

theorem outline_diamond : outline (resolve diamondRoot diamondGit (fun _ => 4) diamondTree) =
    some [(utf8 "c", []), (utf8 "a", [utf8 "c"]), (utf8 "b", [utf8 "c"])] := by
  cbv

theorem offers_diamond : Resolve.Offers [utf8 "a", utf8 "b", utf8 "c"] diamondTree := by
  have hwell : diamondTree.Well := by
    have hall : ∀ x ∈ diamondTree.entries.map Prod.fst,
        diamondTree.isDirectory x.dropLast = true := by decide +kernel
    exact fun p e hmem => hall p (List.mem_map_of_mem hmem)
  have hnames : Resolve.declaredNames diamondTree { dir := [] } = [utf8 "c"] := by cbv
  have hoffers := Resolve.offers_declaredNames { dir := [] } hwell
  rw [hnames] at hoffers
  exact ⟨hwell, fun dir m hdir hload x hx => List.mem_of_mem_tail (List.mem_of_mem_tail
    (show x.1 ∈ ([utf8 "a", utf8 "b", utf8 "c"] : List Bytes).tail.tail from hoffers.within dir m
    hdir hload x hx))⟩

theorem offers_diamondGit (dir : Bytes) (args : List Bytes) {t : FileTree}
    (ht : Resolve.Offers [utf8 "a", utf8 "b", utf8 "c"] t) :
    Resolve.Offers [utf8 "a", utf8 "b", utf8 "c"] (diamondGit.finish dir args t).files := by
  refine .repository (fun m hm => ?_) dir args ht
  have hread : ((ManifestText.read (utf8 "[dependencies]\nc = \x7bpath = \"../../../c\"\x7d\n")).map
      fun m =>
      m.dependencies.map Prod.fst) = .ok [utf8 "c"] := by cbv
  rw [show ManifestText.read (utf8 "[dependencies]\nc = \x7bpath = \"../../../c\"\x7d\n") =
    .ok m from hm] at hread
  have hfst : m.dependencies.map Prod.fst = [utf8 "c"] := Except.ok.inj hread
  intro y hy
  have hmem := hfst ▸ List.mem_map_of_mem (f := Prod.fst) hy
  simp only [List.mem_singleton] at hmem
  simp [hmem]

theorem resolve_complete_diamond :
    ∃ rs t', resolve diamondRoot diamondGit (fun _ => 4) diamondTree = .ok rs t' ∧
    (∀ n, Reachable diamondRoot rs n → (rs.map Resolved.name).count n = 1) ∧
    ∀ before r later, rs = before ++ r :: later → ∀ n d, (n, d) ∈ r.declared →
      n ∈ before.map Resolved.name := by
  have hout := outline_diamond
  cases hres : resolve diamondRoot diamondGit (fun _ => 4) diamondTree with
  | error e t' =>
    rw [hres] at hout
    cases hout
  | ok rs t' =>
    rw [hres] at hout
    have hrs := Option.some.inj hout
    -- only the last name is declared, and it declares nothing
    have hstep : ∀ a b, Declares rs a b → a ≠ utf8 "c" ∧ b = utf8 "c" := by
      rintro a b ⟨r, hr, rfl, d, hd⟩
      have hline := hrs ▸ List.mem_map_of_mem
        (f := fun r : Resolved => (r.name, r.declared.map Prod.fst)) hr
      have hb : b ∈ r.declared.map Prod.fst := List.mem_map_of_mem (f := Prod.fst) hd
      simp only [List.mem_cons, Prod.mk.injEq, List.not_mem_nil, or_false] at hline
      rcases hline with ⟨-, hdecl⟩ | ⟨hname, hdecl⟩ | ⟨hname, hdecl⟩
      · rw [hdecl] at hb
        cases hb
      · rw [hdecl, List.mem_singleton] at hb
        exact ⟨by rw [hname]; decide, hb⟩
      · rw [hdecl, List.mem_singleton] at hb
        exact ⟨by rw [hname]; decide, hb⟩
    have hcycle : ∀ n, ¬ Relation.TransGen (Declares rs) n n := by
      intro n hn
      obtain ⟨m, -, hlast⟩ := Relation.TransGen.tail'_iff.1 hn
      obtain ⟨k, hfirst, -⟩ := Relation.TransGen.head'_iff.1 hn
      exact (hstep n k hfirst).1 (hstep m n hlast).2
    obtain ⟨honce, -, horder⟩ :=
      (resolve_complete (by decide +kernel) (fun dir args _ => offers_diamondGit dir args)
      offers_diamond (by decide +kernel)).2 _ rs t' hres
    exact ⟨rs, t', rfl, honce, horder hcycle⟩

end LuaChunk.Project
