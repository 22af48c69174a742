import LuaChunk.Project.Build
import LuaChunk.Code.Prototype
import LuaChunk.Proofs.Files.Action

/-!
The cache of a build does not show in its results. A row is only ever used for the compilation that
made it: the key is a digest of a text that tells the chunk, the source and whether debug
information is stripped, and what is read back has the fingerprint that was recorded.

A run is a list of requests to compile files, with changes of the files in between. What digests and
encoded functions do is assumed of the compilations of the run and of no others.
-/

set_option autoImplicit false

namespace LuaChunk

namespace Bytes

theorem hexDigit_injective {m n : Nat} (h : hexDigit m = hexDigit n) : m % 16 = n % 16 := by
  have all : ∀ a b : Fin 16, hexDigit a = hexDigit b → a = b := by decide
  have mod (k : Nat) : hexDigit (k % 16) = hexDigit k := by simp [hexDigit]
  have := all ⟨m % 16, Nat.mod_lt _ (by decide)⟩ ⟨n % 16, Nat.mod_lt _ (by decide)⟩
    (by rw [mod, mod, h])
  exact congrArg Fin.val this

theorem hexPadded_two_injective {a b : UInt8} (h : hexPadded 2 a.toNat = hexPadded 2 b.toNat) :
    a = b := by
  simp only [hexPadded, List.nil_append, List.cons_append, List.cons.injEq, and_true] at h
  have high := hexDigit_injective h.1
  have low := hexDigit_injective h.2
  have ha := a.toNat_lt
  have hb := b.toNat_lt
  apply UInt8.toNat.inj
  omega

theorem toHex_injective {s t : Bytes} (h : toHex s = toHex t) : s = t := by
  induction s generalizing t with
  | nil =>
    cases t with
    | nil => rfl
    | cons b t => cases h
  | cons a s ih =>
    cases t with
    | nil => cases h
    | cons b t =>
      obtain ⟨hab, hst⟩ := List.append_inj
        (show hexPadded 2 a.toNat ++ toHex s = hexPadded 2 b.toNat ++ toHex t from h) rfl
      rw [hexPadded_two_injective hab, ih hst]

theorem append_sep_inj {sep : UInt8} {s t u v : Bytes} (hs : sep ∉ s) (ht : sep ∉ t)
    (h : s ++ sep :: u = t ++ sep :: v) : s = t ∧ u = v := by
  induction s generalizing t with
  | nil =>
    cases t with
    | nil => exact ⟨rfl, List.tail_eq_of_cons_eq h⟩
    | cons b t => exact absurd (List.head_eq_of_cons_eq h ▸ List.mem_cons_self ..) ht
  | cons a s ih =>
    cases t with
    | nil => exact absurd (List.head_eq_of_cons_eq h ▸ List.mem_cons_self ..) hs
    | cons b t =>
      rw [List.cons_append, List.cons_append] at h
      obtain ⟨rfl, htail⟩ := List.cons.inj h
      obtain ⟨rfl, hv⟩ := ih (fun m => hs (List.mem_cons_of_mem _ m))
        (fun m => ht (List.mem_cons_of_mem _ m)) htail
      exact ⟨rfl, hv⟩

end Bytes

namespace Project

/-- All that a compilation depends on. -/
structure Job where
  chunk : Bytes
  source : Bytes
  strip : Bool
  deriving DecidableEq

namespace Job

/-- The text whose digest is the key. -/
def text (j : Job) : Bytes :=
  Cache.keyVersion ++ 0 :: j.chunk ++ 0 :: (if j.strip then utf8 "true" else utf8 "false") ++ 0 ::
    j.source

def key (j : Job) : Bytes := Cache.key j.chunk j.source j.strip

/-- What the compiler alone makes of it. -/
def result (j : Job) : Except Bytes Prototype :=
  match compile j.chunk (skipShebang j.source) with
  | .error e => .error (e.text?.getD [])
  | .ok p => .ok (if j.strip then p.strip else p)

/-- The row that keeps a function compiled for it. -/
def row (j : Job) (p : Prototype) : Cache.Row := ⟨j.chunk, p.fingerprint, Wire.encode p⟩

variable {i j : Job}

theorem key_eq (j : Job) : j.key = Bytes.toHex (Sha256.digest j.text) := rfl

theorem text_injective (hi : (0 : UInt8) ∉ i.chunk) (hj : (0 : UInt8) ∉ j.chunk)
    (h : i.text = j.text) : i = j := by
  obtain ⟨chunk, source, strip⟩ := i
  obtain ⟨chunk', source', strip'⟩ := j
  simp only [text, List.append_assoc, List.cons_append] at h
  have h := List.tail_eq_of_cons_eq (List.append_cancel_left h)
  obtain ⟨rfl, h⟩ := Bytes.append_sep_inj hi hj h
  have flag (b : Bool) : (0 : UInt8) ∉ if b then utf8 "true" else utf8 "false" := by
    cases b <;> decide
  obtain ⟨hflag, rfl⟩ := Bytes.append_sep_inj (flag strip) (flag strip') h
  have : strip = strip' := by revert hflag; cases strip <;> cases strip' <;> decide
  rw [this]

end Job

/-- A request to compile a file. -/
structure Request where
  file : SourceFile
  strip : Bool
  force : Bool

namespace Request

/-- What there is to compile, or why the file cannot be read. -/
def job (r : Request) (t : FileTree) : Except Bytes Job :=
  match t.read [] r.file.path with
  | .error e => .error e.text
  | .ok source => .ok ⟨r.file.owner.chunkName r.file.path, source, r.strip⟩

/-- What the file as it stands gives without a cache. -/
def direct (r : Request) (t : FileTree) : Except Bytes Prototype := (r.job t).bind Job.result

def run (r : Request) (place : Place) (t : FileTree) :
    EStateM.Result Bytes FileTree (Prototype × Bool) :=
  Build.compileSource r.file r.strip r.force (some place) t

/-- The function or the error that a request is answered with. -/
def answer (r : Request) (place : Place) (t : FileTree) : Except Bytes Prototype :=
  match r.run place t with
  | .ok (p, _) _ => .ok p
  | .error e _ => .error e

/-- The files after a request. -/
def after (r : Request) (place : Place) (t : FileTree) : FileTree :=
  match r.run place t with
  | .ok _ t => t
  | .error _ t => t

end Request

namespace Build

theorem store_set {place : Place} (h : place ≠ []) (t : FileTree) (s : Cache.Store) :
    store (t.set place (.database s)) place = s := by
  rw [store, FileTree.lookup?_set_self t _ h]

theorem ne_root {t : FileTree} {place : Place} {key : Bytes} {row : Cache.Row}
    (h : (store t place).row? key = some row) : place ≠ [] := by
  rintro rfl
  cases h

theorem row?_store_set {t : FileTree} {place : Place} {s : Cache.Store} {key : Bytes}
    {row : Cache.Row}
    (h : (store (t.set place (.database s)) place).row? key = some row) : s.row? key =
    some row := by
  rwa [store_set (ne_root h)] at h

end Build

namespace Request

variable {r : Request} {place : Place} {t : FileTree}

/-- What is in a cache when a job is about to be compiled. -/
inductive Prepared (r : Request) (place : Place) (t : FileTree) (j : Job) : FileTree → Prop
  | forced : r.force = true → Prepared r place t j t
  | missing : (Build.store t place).get j.key = .error .notFound → Prepared r place t j t
  | dropped {m : Cache.Miss} : (Build.store t place).get j.key = .error m → m.isCorrupt = true →
    Prepared r place t j (t.set place (.database ((Build.store t place).delete j.key)))

inductive Outcome (r : Request) (place : Place) (t : FileTree) :
    EStateM.Result Bytes FileTree (Prototype × Bool) → Prop
  | unreadable {e : Bytes} : r.job t = .error e → Outcome r place t (.error e t)
  | cached {j : Job} {p : Prototype} : r.job t = .ok j → r.force = false →
    (Build.store t place).get j.key = .ok p → Outcome r place t (.ok (p, true) t)
  | refused {j : Job} {e : Bytes} {t' : FileTree} : r.job t = .ok j → Prepared r place t j t' →
    j.result = .error e → Outcome r place t (.error e t')
  | compiled {j : Job} {p : Prototype} {t' : FileTree} : r.job t = .ok j → Prepared r place t j t' →
    j.result = .ok p →
    Outcome r place t
      (.ok (p, false) (t'.set place (.database ((Build.store t' place).setRow j.key (j.row p)))))

/-- What a request does with a job that is not taken from the cache. -/
def compiling (j : Job) (place : Place) : OnFiles Bytes (Prototype × Bool) :=
  match j.result with
  | .error e => throw e
  | .ok p => do
    Build.onStore place fun s => s.setRow j.key (j.row p)
    return (p, false)

theorem run_eq {j : Job} (h : r.job t = .ok j) : r.run place t =
    ((if r.force then pure none else Build.cached? place j.key) >>= fun hit : Option Prototype =>
      match hit with
      | some p => pure (p, true)
      | none => compiling j place : OnFiles Bytes (Prototype × Bool)) t := by
  unfold job at h
  cases hread : t.read [] r.file.path with
  | error e => rw [hread] at h; cases h
  | ok source =>
    rw [hread] at h
    cases h
    unfold run Build.compileSource compiling Job.result
    simp only [OnFiles.get_bind, hread]
    cases compile (r.file.owner.chunkName r.file.path) (skipShebang source) with
    | error e => cases r.force <;> rfl
    | ok p => cases r.force <;> rfl

theorem outcome_of_compiling {j : Job} {t' : FileTree} (hj : r.job t = .ok j)
    (hp : Prepared r place t j t') :
    Outcome r place t (compiling j place t') := by
  unfold compiling
  cases hres : j.result with
  | error e => exact .refused hj hp hres
  | ok p => exact .compiled hj hp hres

theorem outcome (r : Request) (place : Place) (t : FileTree) :
    Outcome r place t (r.run place t) := by
  cases hj : r.job t with
  | error e =>
    cases hread : t.read [] r.file.path with
    | ok source => simp only [job, hread, reduceCtorEq] at hj
    | error fault =>
      simp only [job, hread, Except.error.injEq] at hj
      have : r.run place t = .error fault.text t := by
        simp only [run, Build.compileSource, OnFiles.get_bind, hread]
        rfl
      rw [this, hj]
      exact .unreadable (by simp only [job, hread, hj])
  | ok j =>
    rw [run_eq hj]
    cases hforce : r.force with
    | true => exact outcome_of_compiling hj (.forced hforce)
    | false =>
      simp only [Build.cached?, Bool.false_eq_true, if_false, bind_assoc, OnFiles.get_bind]
      cases hget : (Build.store t place).get j.key with
      | ok p => exact .cached hj hforce hget
      | error m =>
        cases m with
        | notFound => exact outcome_of_compiling hj (.missing hget)
        | undecodable chunk e => exact outcome_of_compiling hj (.dropped hget rfl)
        | mismatch chunk found recorded => exact outcome_of_compiling hj (.dropped hget rfl)

end Request

/-- Every row keeps what one of the jobs gave, under the key of that job. -/
def Genuine (jobs : List Job) (s : Cache.Store) : Prop :=
  ∀ key row, s.row? key = some row → ∃ j ∈ jobs, ∃ p, j.key = key ∧ j.result = .ok p ∧ row = j.row p

/-- What is assumed of the jobs of a run: their chunks have no zero byte in their names, no two of
their key texts have one digest, and what is read of an encoded function is that function. -/
structure Sound (jobs : List Job) : Prop where
  chunks : ∀ j ∈ jobs, (0 : UInt8) ∉ j.chunk
  digests : ∀ i ∈ jobs, ∀ j ∈ jobs, Sha256.digest i.text = Sha256.digest j.text → i.text = j.text
  readings : ∀ j ∈ jobs, ∀ p, j.result = .ok p → ∀ q, Wire.decode (Wire.encode p) = .ok q → q = p

theorem Sound.job_of_key {jobs : List Job} (h : Sound jobs) {i j : Job} (hi : i ∈ jobs)
    (hj : j ∈ jobs)
    (hk : i.key = j.key) : i = j := by
  rw [Job.key_eq, Job.key_eq] at hk
  exact Job.text_injective (h.chunks i hi) (h.chunks j hj)
    (h.digests i hi j hj (Bytes.toHex_injective hk))

theorem Genuine.mono {jobs more : List Job} {s s' : Cache.Store} (h : Genuine jobs s)
    (hm : jobs ⊆ more)
    (hs : ∀ key row, s'.row? key = some row → s.row? key = some row) : Genuine more s' := by
  intro key row hrow
  obtain ⟨j, hj, rest⟩ := h key row (hs key row hrow)
  exact ⟨j, hm hj, rest⟩

theorem Genuine.get {jobs : List Job} {s : Cache.Store} (h : Genuine jobs s) (hs : Sound jobs)
    {j : Job}
    (hj : j ∈ jobs) {q : Prototype} (hget : s.get j.key = .ok q) : j.result = .ok q := by
  unfold Cache.Store.get at hget
  split at hget
  · cases hget
  · rename_i row hrow
    obtain ⟨i, hi, p, hkey, hres, rfl⟩ := h _ _ hrow
    cases hs.job_of_key hi hj hkey
    unfold Cache.Row.prototype at hget
    split at hget
    · cases hget
    · rename_i q' hq
      split at hget
      · cases hget
        rw [hres, hs.readings j hj p hres q hq]
      · cases hget

inductive Step where
  | edit (files : FileTree)
  | request (r : Request)

namespace Step

def after (place : Place) (t : FileTree) : Step → FileTree
  | .edit files => files.set place (.database (Build.store t place))
  | .request r => r.after place t

/-- The job of a request for a file that can be read. -/
def jobs (t : FileTree) : Step → List Job
  | .edit _ => []
  | .request r => (r.job t).toOption.toList

end Step

/-- The files after some steps. -/
def after (place : Place) : FileTree → List Step → FileTree
  | t, [] => t
  | t, step :: rest => after place (step.after place t) rest

/-- The jobs of some steps. -/
def jobs (place : Place) : FileTree → List Step → List Job
  | _, [] => []
  | t, step :: rest => step.jobs t ++ jobs place (step.after place t) rest

section Steps

variable {r : Request} {place : Place} {t : FileTree} {past : List Job}

theorem Request.Prepared.row? {j : Job} {t' : FileTree} (h : r.Prepared place t j t') {key : Bytes}
    {row : Cache.Row}
    (hr : (Build.store t' place).row? key = some row) : (Build.store t place).row? key =
    some row := by
  cases h with
  | forced | missing => exact hr
  | dropped =>
    have hr := Build.row?_store_set hr
    by_cases hk : key = j.key
    · rw [hk, Cache.Store.row?_delete_self] at hr
      cases hr
    · rwa [Cache.Store.row?_delete_of_ne _ hk] at hr

theorem Request.mem_jobs {j : Job} (h : r.job t = .ok j) : j ∈ (Step.request r).jobs t := by
  simp only [Step.jobs, h, Except.toOption, Option.toList, List.mem_singleton]

theorem Request.row?_after {key : Bytes} {row : Cache.Row}
    (hr : (Build.store (r.after place t) place).row? key = some row) :
    (Build.store t place).row? key = some row ∨
      ∃ j p, r.job t = .ok j ∧ j.result = .ok p ∧ key = j.key ∧ row = j.row p := by
  have ho := r.outcome place t
  unfold Request.after at hr
  generalize r.run place t = res at ho hr
  cases ho with
  | unreadable | cached => exact .inl hr
  | refused _ hp => exact .inl (hp.row? hr)
  | compiled hj hp hres =>
    rename_i j p t'
    have hr := Build.row?_store_set hr
    by_cases hk : key = j.key
    · rw [hk, Cache.Store.row?_setRow_self] at hr
      cases hr
      exact .inr ⟨j, p, hj, hres, hk, rfl⟩
    · rw [Cache.Store.row?_setRow_of_ne _ _ hk] at hr
      exact .inl (hp.row? hr)

theorem Genuine.request (h : Genuine past (Build.store t place)) :
    Genuine (past ++ (Step.request r).jobs t) (Build.store (r.after place t) place) := by
  intro key row hr
  rcases Request.row?_after hr with hr | ⟨j, p, hj, hres, rfl, rfl⟩
  · exact h.mono (List.subset_append_left ..) (fun _ _ hr => hr) key row hr
  · exact ⟨j, List.mem_append_right _ (Request.mem_jobs hj), p, rfl, hres, rfl⟩

theorem Genuine.step (h : Genuine past (Build.store t place)) (step : Step) :
    Genuine (past ++ step.jobs t) (Build.store (step.after place t) place) := by
  cases step with
  | edit files => exact h.mono (List.subset_append_left ..) fun _ _ hr => Build.row?_store_set hr
  | request r => exact h.request

theorem Request.answer_eq_direct (h : Genuine past (Build.store t place))
    (hs : Sound (past ++ (Step.request r).jobs t)) : r.answer place t = r.direct t := by
  have hsub : past ⊆ past ++ (Step.request r).jobs t := List.subset_append_left ..
  have ho := r.outcome place t
  unfold Request.answer Request.direct
  generalize r.run place t = res at ho
  cases ho with
  | unreadable hj => rw [hj]; rfl
  | cached hj _ hget =>
    have := (h.mono hsub fun _ _ hr => hr).get hs (List.mem_append_right _ (Request.mem_jobs hj))
      hget
    rw [hj]
    exact this.symm
  | refused hj _ hres => rw [hj]; exact hres.symm
  | compiled hj _ hres => rw [hj]; exact hres.symm

theorem answer_after (steps : List Step) (h : Genuine past (Build.store t place))
    (hs : Sound (past ++ jobs place t (steps ++ [.request r]))) :
    r.answer place (after place t steps) = r.direct (after place t steps) := by
  induction steps generalizing t past with
  | nil =>
    rw [List.nil_append, jobs, jobs, List.append_nil] at hs
    exact Request.answer_eq_direct h hs
  | cons step steps ih =>
    rw [List.cons_append, jobs, ← List.append_assoc] at hs
    exact ih (h.step step) hs

theorem row?_of_direct_error {e : Bytes} (h : r.direct t = .error e) {key : Bytes} {row : Cache.Row}
    (hr : (Build.store (r.after place t) place).row? key = some row) :
    (Build.store t place).row? key = some row := by
  have ho := r.outcome place t
  unfold Request.after at hr
  generalize r.run place t = res at ho hr
  cases ho with
  | unreadable | cached => exact hr
  | refused _ hp => exact hp.row? hr
  | compiled hj _ hres =>
    rw [Request.direct, hj] at h
    cases h.symm.trans hres

theorem recompiled {j : Job} {m : Cache.Miss} (hf : r.force = false) (hj : r.job t = .ok j)
    (hget : (Build.store t place).get j.key = .error m) (hm : m.isCorrupt = true) :
    r.answer place t = j.result ∧
      (Build.store (r.after place t) place).row? j.key = j.result.toOption.map j.row := by
  have hplace : place ≠ [] := by
    rintro rfl
    cases hget
    cases hm
  have ho := r.outcome place t
  unfold Request.answer Request.after
  generalize r.run place t = res at ho
  have hdropped {t' : FileTree} (hp : r.Prepared place t j t') :
      (Build.store t' place).row? j.key = none := by
    cases hp with
    | forced h => rw [hf] at h; cases h
    | missing h => rw [hget] at h; cases h; cases hm
    | dropped => rw [Build.store_set hplace, Cache.Store.row?_delete_self]
  cases ho with
  | unreadable h => cases hj.symm.trans h
  | cached h _ h' =>
    cases hj.symm.trans h
    cases hget.symm.trans h'
  | refused h hp hres =>
    cases hj.symm.trans h
    rw [hres]
    exact ⟨rfl, hdropped hp⟩
  | compiled h hp hres =>
    cases hj.symm.trans h
    rw [hres]
    exact ⟨rfl, by rw [Build.store_set hplace, Cache.Store.row?_setRow_self]; rfl⟩

end Steps

/-- The cache does not show. From an empty cache on, every request of a run is answered with the
function or the error that the compiler alone gives for the file as it stands. What does not compile
is not stored, and a row that cannot be used is dropped and its source compiled again. -/
theorem compileSource_transparent (place : Place) :
    (∀ (t : FileTree) (steps : List Step) (r : Request), (Build.store t place).rows = [] →
      Sound (jobs place t (steps ++ [.request r])) →
      r.answer place (after place t steps) = r.direct (after place t steps)) ∧
    (∀ (t : FileTree) (r : Request) (e : Bytes), r.direct t = .error e → ∀ key row,
      (Build.store (r.after place t) place).row? key = some row →
        (Build.store t place).row? key = some row) ∧
    ∀ (t : FileTree) (r : Request) (j : Job) (m : Cache.Miss), r.force = false → r.job t = .ok j →
      (Build.store t place).get j.key = .error m → m.isCorrupt = true →
      r.answer place t = j.result ∧
        (Build.store (r.after place t) place).row? j.key = j.result.toOption.map j.row := by
  refine ⟨fun t steps r hempty hs => ?_, fun t r e h key row hr => row?_of_direct_error h hr,
    fun t r j m hf hj hget hm => recompiled hf hj hget hm⟩
  have hgenuine : Genuine [] (Build.store t place) := by
    intro key row hr
    rw [Cache.Store.row?, hempty] at hr
    cases hr
  exact answer_after steps hgenuine hs

section Sample

def samplePlace : Place := [utf8 "cache.db"]

def sampleRequest : Request where
  file :=
    { path := utf8 "/a.lua", inside := utf8 "a.lua", module := [], owner := { dir := utf8 "/" } }
  strip := false
  force := false

/-- The only file with a text. -/
def sampleFiles (text : String) : FileTree := ({} : FileTree).addFile [utf8 "a.lua"] (utf8 text)

def sampleJob (text : String) : Job := ⟨utf8 "@a.lua", utf8 text, false⟩

/-- The file is compiled, changed to what does not compile, and changed back. -/
def sampleSteps : List Step :=
  [.edit (sampleFiles "({})()"), .request sampleRequest, .edit (sampleFiles "("),
    .request sampleRequest,
    .edit (sampleFiles "({})()")]

def sampleChunk : Prototype where
  source := utf8 "@a.lua"
  flag := 1
  maxStackSize := 2
  code := #[⟨83⟩, ⟨19⟩, ⟨84⟩, ⟨16842820⟩, ⟨16842822⟩]
  upvalues := #[⟨some (utf8 "_ENV"), true, 0, 0⟩]
  lineInfo := #[1, 0, 0, 0, 0]

theorem sample_jobs : jobs samplePlace {} (sampleSteps ++ [.request sampleRequest]) =
    [sampleJob "({})()", sampleJob "(", sampleJob "({})()"] := by
  decide +kernel

theorem sample_result : (sampleJob "({})()").result = .ok sampleChunk := by decide +kernel

theorem sample_error : (sampleJob "(").result.toOption = none := by decide +kernel

theorem sample_job (text : String) :
    sampleRequest.job (sampleFiles text) = .ok (sampleJob text) := by
  rfl

theorem sample_digests : Sha256.digest (sampleJob "({})()").text ≠
    Sha256.digest (sampleJob "(").text := by
  decide +kernel

theorem sample_reading : Wire.decode (Wire.encode sampleChunk) = .ok sampleChunk := by
  decide +kernel

theorem sample_sound : Sound (jobs samplePlace {} (sampleSteps ++ [.request sampleRequest])) := by
  rw [sample_jobs]
  constructor
  case chunks => decide
  case digests =>
    intro i hi j hj h
    simp only [List.mem_cons, List.not_mem_nil, or_false] at hi hj
    rcases hi with rfl | rfl | rfl <;> rcases hj with rfl | rfl | rfl
    case inl.inr.inl | inr.inr.inr.inl => exact (sample_digests h).elim
    case inr.inl.inl | inr.inl.inr.inr => exact (sample_digests h.symm).elim
    all_goals rfl
  case readings =>
    intro j hj p hp q hq
    simp only [List.mem_cons, List.not_mem_nil, or_false] at hj
    rcases hj with rfl | rfl | rfl
    case inr.inl =>
      have := sample_error
      rw [hp] at this
      cases this
    all_goals
      rw [sample_result] at hp
      cases hp
      cases sample_reading.symm.trans hq
      rfl

/-- The files with a row that cannot be used. -/
def damagedFiles : FileTree :=
  (sampleFiles "({})()").set samplePlace
    (.database ⟨[((sampleJob "({})()").key, ⟨[], [], [0x80]⟩)]⟩)

theorem sample_transparent :
    sampleRequest.answer samplePlace (after samplePlace {} sampleSteps) = .ok sampleChunk ∧
      (Build.store (after samplePlace {} sampleSteps) samplePlace).get (sampleJob "({})()").key =
        .ok sampleChunk ∧
      (∀ key row, (Build.store (sampleRequest.after samplePlace (sampleFiles "(")) samplePlace).row?
        key ≠ some row) ∧
      (Build.store (sampleRequest.after samplePlace damagedFiles) samplePlace).row?
        (sampleJob "({})()").key =
        some ((sampleJob "({})()").row sampleChunk) := by
  obtain ⟨hanswer, herror, hcorrupt⟩ := compileSource_transparent samplePlace
  refine ⟨?_, by decide +kernel, fun key row hrow => ?_, ?_⟩
  · rw [hanswer {} sampleSteps sampleRequest rfl sample_sound]
    decide +kernel
  · obtain ⟨e, he⟩ : ∃ e, (sampleJob "(").result = .error e := by
      cases h : (sampleJob "(").result with
      | error e => exact ⟨e, rfl⟩
      | ok p =>
        have := sample_error
        rw [h] at this
        cases this
    have he : sampleRequest.direct (sampleFiles "(") = .error e := by
      rw [Request.direct, sample_job]; exact he
    cases herror _ _ e he key row hrow
  · rw [(hcorrupt damagedFiles sampleRequest (sampleJob "({})()") (.undecodable [] .malformed) rfl
      rfl
      (by decide +kernel) rfl).2, sample_result]
    rfl

end Sample

end Project

end LuaChunk
