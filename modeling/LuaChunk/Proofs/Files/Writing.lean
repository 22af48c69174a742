import LuaChunk.Proofs.Files.Reading

set_option autoImplicit false

namespace LuaChunk

namespace Bytes

theorem joinWith_splitAt (sep : UInt8) (s : Bytes) : joinWith [sep] (splitAt sep s) = s := by
  induction s with
  | nil => rfl
  | cons b s ih =>
    obtain ⟨piece, more, hs⟩ := List.exists_cons_of_ne_nil (splitAt_ne_nil sep s)
    by_cases hb : b = sep
    · subst hb
      rw [splitAt_cons_sep, joinWith, ih]
      · rfl
      · exact splitAt_ne_nil b s
    · rw [splitAt_cons_of_ne hb hs, ← ih, hs]
      cases more <;> rfl

theorem exists_joinWith_append (sep last : Bytes) (pieces : List Bytes) :
    ∃ before, joinWith sep (pieces ++ [last]) = before ++ last := by
  induction pieces with
  | nil => exact ⟨[], rfl⟩
  | cons p ps ih =>
    obtain ⟨before, hb⟩ := ih
    refine ⟨p ++ sep ++ before, ?_⟩
    rw [List.cons_append, joinWith, hb, List.append_assoc _ before]
    exact fun heq => List.append_ne_nil_of_right_ne_nil _ (List.cons_ne_nil _ _) heq

theorem exists_append_of_splitAt {sep : UInt8} {s last : Bytes} {pieces : List Bytes}
    (h : splitAt sep s = pieces ++ [last]) : ∃ before, s = before ++ last := by
  rw [← joinWith_splitAt sep s, h]
  exact exists_joinWith_append _ _ _

end Bytes

namespace Path

variable {dir : Bytes} {ns : List Bytes}

theorem names_clean (h : isAbsolute dir = true) : names (clean dir) = cleanNames dir := by
  rw [clean, if_pos h, names_ofNames (isStep_cleanNames h)]

theorem names_nil : names [] = [] := rfl

theorem names_joined (parts : List Bytes) :
    names (Bytes.joinWith [slash] parts) = parts.flatMap names := by
  induction parts with
  | nil => rfl
  | cons p ps ih =>
    cases ps with
    | nil => rw [List.flatMap_cons, List.flatMap_nil, List.append_nil, Bytes.joinWith]
    | cons q qs =>
      rw [Bytes.joinWith, List.append_assoc, List.singleton_append, names_append, ih,
        List.flatMap_cons (x := p)]
      exact fun heq => List.cons_ne_nil _ _ heq

theorem flatMap_names_filter (parts : List Bytes) :
    (parts.filter fun p => !p.isEmpty).flatMap names = parts.flatMap names := by
  induction parts with
  | nil => rfl
  | cons p ps ih =>
    cases p with
    | nil =>
      rw [List.filter_cons_of_neg (by simp), ih, List.flatMap_cons, names_nil, List.nil_append]
    | cons b p => rw [List.filter_cons_of_pos (by simp), List.flatMap_cons, List.flatMap_cons, ih]

theorem join_below (hdir : isAbsolute dir = true) {parts : List Bytes}
    (h : ∀ n ∈ parts.flatMap names, IsStep n) :
    join (dir :: parts) = ofNames (cleanNames dir ++ parts.flatMap names) := by
  have habs := isAbsolute_joinWith hdir (parts.filter fun p => !p.isEmpty)
  rw [join_eq_clean hdir, clean, if_pos habs, cleanNames, cleanNames, names_joined, habs, hdir,
    List.flatMap_cons,
    flatMap_names_filter, List.foldl_append, foldl_push h, List.reverse_append,
      List.reverse_reverse]

theorem isAbsolute_parent (h : isAbsolute dir = true) : ∃ p, isAbsolute p = true ∧
    parent dir = clean p := by
  refine ⟨_, ?_, rfl⟩
  obtain ⟨rest, rfl⟩ : ∃ rest, dir = slash :: rest := by
    cases dir with
    | nil => cases h
    | cons b rest =>
      exact ⟨rest, by rw [isAbsolute, List.head?_cons, beq_iff_eq] at h; rw [Option.some.inj h]⟩
  rw [List.reverse_cons]
  have hkept : ∃ xs, (rest.reverse ++ [slash]).dropWhile (· != slash) = xs ++ [slash] := by
    induction rest.reverse with
    | nil => exact ⟨[], rfl⟩
    | cons b bs ih =>
      rw [List.cons_append, List.dropWhile_cons]
      split
      · exact ih
      · exact ⟨b :: bs, rfl⟩
  obtain ⟨xs, hxs⟩ := hkept
  rw [hxs, List.reverse_append]
  rfl

theorem isStep_names_join (hdir : isAbsolute dir = true) (rest : List Bytes) :
    ∀ n ∈ names (join (dir :: rest)), IsStep n := by
  rw [join_eq_clean hdir, names_clean (isAbsolute_joinWith hdir _)]
  exact isStep_cleanNames (isAbsolute_joinWith hdir _)

theorem isStep_names_parent (h : isAbsolute dir = true) : ∀ n ∈ names (parent dir), IsStep n := by
  obtain ⟨p, hp, heq⟩ := isAbsolute_parent h
  rw [heq, names_clean hp]
  exact isStep_cleanNames hp

end Path

namespace FileTree

variable {s t u : FileTree} {p q : Place} {P Q : Place → Prop} {path text : Bytes}

/-- A tree as a file system can have it. -/
structure Sane (t : FileTree) : Prop where
  well : t.Well
  distinct : (t.entries.map Prod.fst).Nodup
  steps : ∀ p e, (p, e) ∈ t.entries → ∀ n ∈ p, Path.IsStep n

theorem Sane.lookup?_of_mem {e : FileEntry} (ht : t.Sane) (h : (p, e) ∈ t.entries) (hp : p ≠ []) :
    t.lookup? p = some e := by
  obtain ⟨before, after, heq⟩ := List.append_of_mem h
  have hdistinct := ht.distinct
  rw [heq, List.map_append, List.map_cons] at hdistinct
  obtain ⟨-, -, hnot⟩ := List.pairwise_append.1 hdistinct
  have hlookup : t.entries.lookup p = some e := by
    refine List.lookup_eq_some_iff.2 ⟨before, after, heq, fun x hx => ?_⟩
    rw [bne_iff_ne]
    exact Ne.symm (hnot x.1 (List.mem_map_of_mem hx) p (List.mem_cons_self ..))
  cases p with
  | nil => exact absurd rfl hp
  | cons n p => exact hlookup

/-- From one tree to the next, writes went to some places only, and directories were made. -/
structure Kept (P : Place → Prop) (s t : FileTree) : Prop where
  sane : t.Sane
  directories : ∀ p, s.isDirectory p = true → t.isDirectory p = true
  files : ∀ p e, e.isDirectory = false → ¬ P p → (t.lookup? p = some e ↔ s.lookup? p = some e)

theorem Kept.refl (h : t.Sane) : Kept P t t := ⟨h, fun _ h => h, fun _ _ _ _ => Iff.rfl⟩

theorem Kept.trans (h : Kept P s t) (h' : Kept P t u) : Kept P s u :=
  ⟨h'.sane, fun p hp => h'.directories p (h.directories p hp),
    fun p e he hp => (h'.files p e he hp).trans (h.files p e he hp)⟩

theorem Kept.mono (h : Kept P s t) (hPQ : ∀ p, P p → Q p) : Kept Q s t :=
  ⟨h.sane, h.directories, fun p e he hp => h.files p e he fun hq => hp (hPQ p hq)⟩

theorem isDirectory_of_file {e : FileEntry} (he : e.isDirectory = false)
    (h : t.lookup? p = some e) :
    t.isDirectory p = false := by
  simp [isDirectory, h, he]

theorem Well.read_eq {ns : List Bytes} (ht : t.Well) (hsteps : ∀ n ∈ ns, Path.IsStep n)
    (hne : ns ≠ [])
    (hr : s.read [] (Path.ofNames ns) = .ok text)
    (hsame : ∀ e, e.isDirectory = false → s.lookup? ns = some e → t.lookup? ns = some e) :
    t.read [] (Path.ofNames ns) = .ok text := by
  obtain ⟨hfind, hlen, e, hl, he⟩ := read_ofNames hsteps hne hr
  have hfile : e.isDirectory = false := by cases e <;> first | rfl | cases he
  have hl := hsame e hfile hl
  refine read_eq_ok_iff.2 ⟨ns, e, ?_, hl, he⟩
  rw [hfind, ht.follow hsteps hlen (by rw [List.nil_append, hl]; rfl), List.nil_append]

/-- Whether an entry can be put at a place without losing what is there, or below it. -/
structure Free (t : FileTree) (p : Place) : Prop where
  nonempty : p ≠ []
  steps : ∀ n ∈ p, Path.IsStep n
  above : t.isDirectory p.dropLast = true
  noDirectory : t.isDirectory p = false

theorem Free.ne_of_isDirectory (h : t.Free p) (hq : t.isDirectory q = true) : q ≠ p := by
  rintro rfl
  rw [h.noDirectory] at hq
  cases hq

theorem isDirectory_set_of_ne (e : FileEntry) (h : q ≠ p) :
    (t.set p e).isDirectory q = t.isDirectory q := by
  rw [isDirectory, lookup?_set_of_ne t e h, isDirectory]

theorem Well.set (ht : t.Well) (hp : t.Free p) (e : FileEntry) : (t.set p e).Well := by
  intro q d hmem
  rcases List.mem_cons.1 hmem with heq | hmem
  · obtain ⟨rfl, rfl⟩ := Prod.mk.inj heq
    rw [isDirectory_set_of_ne _ (hp.ne_of_isDirectory hp.above)]
    exact hp.above
  · have habove := ht q d (List.mem_filter.1 hmem).1
    rw [isDirectory_set_of_ne _ (hp.ne_of_isDirectory habove)]
    exact habove

theorem Sane.set (ht : t.Sane) (hp : t.Free p) (e : FileEntry) : (t.set p e).Sane := by
  constructor
  case well => exact ht.well.set hp e
  case distinct =>
    refine List.nodup_cons.2 ⟨fun hmem => ?_, (List.filter_sublist.map _).nodup ht.distinct⟩
    obtain ⟨x, hx, hfst⟩ := List.mem_map.1 hmem
    simpa [hfst] using (List.mem_filter.1 hx).2
  case steps =>
    intro q d hmem
    rcases List.mem_cons.1 hmem with heq | hmem
    · obtain ⟨rfl, rfl⟩ := Prod.mk.inj heq
      exact hp.steps
    · exact ht.steps q d (List.mem_filter.1 hmem).1

theorem Kept.set (ht : t.Sane) (hp : t.Free p) (e : FileEntry) : Kept (· = p) t (t.set p e) := by
  refine ⟨ht.set hp e, fun q hq => ?_, fun q d _ hq => ?_⟩
  · rw [isDirectory_set_of_ne e (hp.ne_of_isDirectory hq)]
    exact hq
  · rw [lookup?_set_of_ne t e hq]

theorem Kept.setDirectory (ht : t.Sane) (hp : t.Free p) (hnone : t.lookup? p = none) :
    Kept P t (t.set p .directory) := by
  have hset := Kept.set ht hp .directory
  refine ⟨hset.sane, hset.directories, fun q e he _ => ?_⟩
  by_cases hq : q = p
  · subst hq
    rw [lookup?_set_self t _ hp.nonempty, hnone]
    constructor
    · rintro h
      cases h
      cases he
    · rintro h
      cases h
  · exact hset.files q e he hq

theorem Kept.makeFrom {names : List Bytes} (hsteps : ∀ n ∈ names, Path.IsStep n) (ht : t.Sane)
    (hp : t.isDirectory p = true) (hpsteps : ∀ n ∈ p, Path.IsStep n) : Kept P t
    (t.makeFrom p names).1 := by
  induction names generalizing t p with
  | nil => exact .refl ht
  | cons n names ih =>
    have hmore := fun k hk => hsteps k (List.mem_cons_of_mem _ hk)
    have hbelow : ∀ k ∈ p ++ [n], Path.IsStep k := by
      intro k hk
      rcases List.mem_append.1 hk with hk | hk
      · exact hpsteps k hk
      · rw [List.mem_singleton.1 hk]
        exact hsteps n (List.mem_cons_self ..)
    rw [FileTree.makeFrom]
    dsimp only
    cases hl : t.lookup? (p ++ [n]) with
    | none =>
      dsimp only
      split
      · exact .refl ht
      · split
        · exact .refl ht
        · have hfree : t.Free (p ++ [n]) := by
            refine ⟨by simp, hbelow, by rwa [List.dropLast_concat], ?_⟩
            rw [isDirectory, hl]
            rfl
          have hmade : Kept P t (t.set (p ++ [n]) .directory) := .setDirectory ht hfree hl
          refine hmade.trans (ih hmore hmade.sane ?_ hbelow)
          rw [isDirectory_iff, lookup?_set_self t _ (by simp)]
    | some e =>
      cases e with
      | directory => exact ih hmore ht (isDirectory_iff.2 hl) hbelow
      | file content => exact .refl ht
      | database store => exact .refl ht

theorem Kept.makeDirectories (ht : t.Sane) (hpath : ∀ n ∈ Path.names path, Path.IsStep n) :
    Kept P t (t.makeDirectories path).1 :=
  .makeFrom hpath ht (isDirectory_root t) fun _ hn => absurd hn List.not_mem_nil

theorem follow_isStep {ns : List Bytes} (hns : ∀ n ∈ ns, Path.slash ∉ n)
    (hp : ∀ n ∈ p, Path.IsStep n)
    (h : t.follow p ns = .ok q) : ∀ n ∈ q, Path.IsStep n := by
  induction ns generalizing p with
  | nil =>
    rw [follow] at h
    cases h
    exact hp
  | cons n ns ih =>
    have hmore := fun k hk => hns k (List.mem_cons_of_mem _ hk)
    rw [follow] at h
    split at h
    · cases h
    · split at h
      · exact ih hmore hp h
      · rename_i hhere
        simp only [Bool.or_eq_true, List.isEmpty_iff, decide_eq_true_eq, not_or] at hhere
        split at h
        · exact ih hmore (fun k hk => hp k (List.dropLast_subset _ hk)) h
        · rename_i hup
          split at h
          · cases h
          · split at h
            · cases h
            · refine ih hmore (fun k hk => ?_) h
              rcases List.mem_append.1 hk with hk | hk
              · exact hp k hk
              · rw [List.mem_singleton.1 hk]
                exact ⟨hhere.1, hns n (List.mem_cons_self ..), hhere.2, hup⟩

theorem findNew_pieces {start : Place} {names : List Bytes}
    (hpieces : pieces [] path = .ok (start, names))
    (h : t.findNew [] path = .ok q) : ∃ above last dir, names = above ++ [last] ∧
    t.follow start above = .ok dir ∧
      last ≠ [] ∧ last ≠ Path.dot ∧ last ≠ Path.dotDot ∧ last.length ≤ maxName ∧
        t.isDirectory dir = true ∧
      t.isDirectory (dir ++ [last]) = false ∧ q = dir ++ [last] := by
  unfold findNew at h
  rw [hpieces] at h
  dsimp only [bind, Except.bind] at h
  split at h
  · cases h
  · rename_i last above htrim
    cases hf : t.follow start above.reverse with
    | error e =>
      rw [hf] at h
      cases h
    | ok dir =>
      rw [hf] at h
      change (if _ then _ else _) = _ at h
      split at h
      · cases h
      · rename_i hdir
        split at h
        · cases h
        · rename_i hlast
          simp only [Bool.or_eq_true, decide_eq_true_eq, not_or] at hlast
          split at h
          · cases h
          · rename_i hlen
            split at h
            · cases h
            · rename_i hnew
              cases h
              have hall : names.reverse.dropWhile List.isEmpty = names.reverse := by
                have hsuffix := List.dropWhile_suffix (l := names.reverse) List.isEmpty
                refine hsuffix.eq_of_length_le ?_
                rw [List.length_reverse]
                exact Nat.le_of_not_lt hlast.1.1
              have hnames : names = above.reverse ++ [last] := by
                rw [← List.reverse_reverse names, ← hall, htrim, List.reverse_cons]
              refine ⟨above.reverse, last, dir, hnames, hf, ?_, hlast.1.2, hlast.2,
                Nat.le_of_not_lt hlen,
                by simpa using hdir, by simpa using hnew, rfl⟩
              have hhead := List.head_dropWhile_not List.isEmpty (l := names.reverse)
                (by rw [htrim]; exact List.cons_ne_nil _ _)
              simp only [htrim, List.head_cons] at hhead
              rintro rfl
              cases hhead

theorem pieces_eq_ok {start : Place} {names : List Bytes}
    (h : pieces [] path = .ok (start, names)) :
    start = [] ∧ names = Bytes.splitAt Path.slash path := by
  unfold pieces at h
  split at h
  · cases h
  · split at h
    · cases h
    · split at h
      · cases h
      · cases h
        exact ⟨by split <;> rfl, rfl⟩

theorem findNew_eq_ok (h : t.findNew [] path = .ok q) :
    t.Free q ∧ ∃ before last, path = before ++ last ∧ q.getLast? = some last := by
  cases hpieces : pieces [] path with
  | error e =>
    rw [findNew, hpieces] at h
    cases h
  | ok x =>
    obtain ⟨start, names⟩ := x
    obtain ⟨rfl, rfl⟩ := pieces_eq_ok hpieces
    obtain ⟨above, last, dir, hnames, hfollow, hne, hdot, hup, -, hdir, hnew, rfl⟩ :=
      findNew_pieces hpieces h
    have hslash : ∀ n ∈ above ++ [last], Path.slash ∉ n := by
      rw [← hnames]
      exact fun n hn => Bytes.not_mem_of_mem_splitAt hn
    refine ⟨⟨by simp, fun n hn => ?_, by rwa [List.dropLast_concat], hnew⟩, ?_⟩
    · rcases List.mem_append.1 hn with hn | hn
      · exact follow_isStep (fun k hk => hslash k (List.mem_append_left _ hk))
          (fun k hk => absurd hk List.not_mem_nil)
          hfollow n hn
      · rw [List.mem_singleton.1 hn]
        exact ⟨hne, hslash last (by simp), hdot, hup⟩
    · obtain ⟨before, hbefore⟩ := Bytes.exists_append_of_splitAt hnames
      exact ⟨before, last, hbefore, by simp⟩

theorem write_eq_ok (h : t.write [] path text = .ok s) : ∃ q, t.Free q ∧
    s = t.set q (.file text) := by
  unfold write at h
  cases hf : t.findNew [] path with
  | error e =>
    rw [hf] at h
    cases h
  | ok q =>
    rw [hf] at h
    cases h
    exact ⟨q, (findNew_eq_ok hf).1, rfl⟩

theorem follow_root (ns : List Bytes) : t.follow [] ([] :: ns) = t.follow [] ns := by
  rw [follow, isDirectory_root]
  simp

/-- A path of steps makes a file at the place with their names, and leads to what is put there. -/
theorem findNew_ofNames {ns : List Bytes} (hsteps : ∀ n ∈ ns, Path.IsStep n) (hne : ns ≠ [])
    (h : t.findNew [] (Path.ofNames ns) = .ok q) :
    q = ns ∧ t.Free ns ∧ ∀ u : FileTree, u.Well → (u.lookup? ns).isSome = true →
      u.find [] (Path.ofNames ns) = .ok ns := by
  have hfree := (findNew_eq_ok h).1
  cases hpieces : pieces [] (Path.ofNames ns) with
  | error e =>
    rw [findNew, hpieces] at h
    cases h
  | ok x =>
    obtain ⟨start, names⟩ := x
    obtain ⟨rfl, rfl⟩ := pieces_eq_ok hpieces
    obtain ⟨above, last, dir, hnames, hfollow, -, -, -, hlen, -, -, rfl⟩ := findNew_pieces hpieces h
    rw [Path.splitAt_ofNames hsteps hne] at hnames hpieces
    cases above with
    | nil => exact absurd (List.cons.inj hnames).2 hne
    | cons empty above =>
      rw [List.cons_append] at hnames
      obtain ⟨rfl, rfl⟩ := List.cons.inj hnames
      have habove := fun k hk => hsteps k (List.mem_append_left _ hk)
      rw [follow_root] at hfollow
      obtain ⟨rfl, hlens⟩ := follow_eq_ok habove hfollow
      refine ⟨rfl, hfree, fun u hu hsome => ?_⟩
      have hall : ∀ n ∈ dir ++ [last], n.length ≤ maxName := by
        intro n hn
        rcases List.mem_append.1 hn with hn | hn
        · exact hlens n hn
        · rw [List.mem_singleton.1 hn]
          exact hlen
      have hfound := hu.follow (p := []) hsteps hall hsome
      rw [← follow_root, List.nil_append] at hfound
      rw [find, hpieces]
      exact hfound

/-- A file that is put where a path of steps leads can be read there, and nothing else changes. -/
theorem write_ofNames {ns : List Bytes} (ht : t.Sane) (hsteps : ∀ n ∈ ns, Path.IsStep n)
    (hne : ns ≠ [])
    (h : t.write [] (Path.ofNames ns) text = .ok s) :
    Kept (· = ns) t s ∧ s.read [] (Path.ofNames ns) = .ok text := by
  unfold write at h
  cases hf : t.findNew [] (Path.ofNames ns) with
  | error e =>
    rw [hf] at h
    cases h
  | ok q =>
    rw [hf] at h
    cases h
    obtain ⟨rfl, hfree, hfind⟩ := findNew_ofNames hsteps hne hf
    have hkept := Kept.set ht hfree (.file text)
    have hl := lookup?_set_self t (.file text) hne
    exact ⟨hkept, read_eq_ok_iff.2 ⟨_, _, hfind _ hkept.sane.well (by rw [hl]; rfl), hl, rfl⟩⟩

end FileTree

end LuaChunk
