import LuaChunk.Files.Tree

/-!
Reading by absolute paths. A clean absolute path is a row of names, and what it leads to is the
entry at the place with these names. So a file is read from its place alone, as long as all above it
are directories, and making directories changes nothing that can be read.
-/

set_option autoImplicit false

namespace LuaChunk

namespace Bytes

variable {sep : UInt8} {s t : Bytes}

theorem splitAt_cons_sep : splitAt sep (sep :: s) = [] :: splitAt sep s := by
  simp [splitAt]

theorem splitAt_ne_nil (sep : UInt8) (s : Bytes) : splitAt sep s ≠ [] := by
  induction s with
  | nil => simp [splitAt]
  | cons b s ih =>
    rw [splitAt, List.foldr_cons, ← splitAt]
    split
    · exact List.cons_ne_nil _ _
    · split <;> exact List.cons_ne_nil _ _

theorem splitAt_cons_of_ne {b : UInt8} (h : b ≠ sep) {piece : Bytes} {more : List Bytes}
    (hs : splitAt sep s = piece :: more) :
    splitAt sep (b :: s) = (b :: piece) :: more := by
  rw [splitAt, List.foldr_cons, ← splitAt, hs, if_neg h]

theorem splitAt_append (s t : Bytes) :
    splitAt sep (s ++ sep :: t) = splitAt sep s ++ splitAt sep t := by
  induction s with
  | nil => exact splitAt_cons_sep
  | cons b s ih =>
    obtain ⟨piece, more, hs⟩ := List.exists_cons_of_ne_nil (splitAt_ne_nil sep s)
    by_cases hb : b = sep
    · subst hb
      rw [List.cons_append, splitAt_cons_sep, splitAt_cons_sep, ih, List.cons_append]
    · rw [hs, List.cons_append] at ih
      rw [List.cons_append, splitAt_cons_of_ne hb ih, splitAt_cons_of_ne hb hs, List.cons_append]

theorem splitAt_eq_self (h : sep ∉ s) : splitAt sep s = [s] := by
  induction s with
  | nil => rfl
  | cons b s ih =>
    rw [List.mem_cons, not_or] at h
    exact splitAt_cons_of_ne (Ne.symm h.1) (ih h.2)

theorem not_mem_of_mem_splitAt {n : Bytes} (h : n ∈ splitAt sep s) : sep ∉ n := by
  induction s generalizing n with
  | nil =>
    rw [List.mem_singleton.1 (show n ∈ [[]] from h)]
    exact List.not_mem_nil
  | cons b s ih =>
    obtain ⟨piece, more, hs⟩ := List.exists_cons_of_ne_nil (splitAt_ne_nil sep s)
    by_cases hb : b = sep
    · subst hb
      rw [splitAt_cons_sep] at h
      rcases List.mem_cons.1 h with rfl | h
      · exact List.not_mem_nil
      · exact ih h
    · rw [splitAt_cons_of_ne hb hs] at h
      rcases List.mem_cons.1 h with rfl | h
      · rw [List.mem_cons, not_or]
        exact ⟨Ne.symm hb, ih (hs ▸ List.mem_cons_self ..)⟩
      · exact ih (hs ▸ List.mem_cons_of_mem _ h)

end Bytes

namespace Path

structure IsStep (n : Bytes) : Prop where
  nonempty : n ≠ []
  noSlash : slash ∉ n
  notDot : n ≠ dot
  notDotDot : n ≠ dotDot

variable {n dir : Bytes} {ns : List Bytes}

theorem names_append (s t : Bytes) : names (s ++ slash :: t) = names s ++ names t := by
  rw [names, Bytes.splitAt_append, List.filter_append]
  rfl

theorem IsStep.names (h : IsStep n) : names n = [n] := by
  rw [Path.names, Bytes.splitAt_eq_self h.noSlash]
  simp [h.nonempty]

theorem IsStep.push (h : IsStep n) (rooted : Bool) (stack : List Bytes) :
    push rooted stack n = n :: stack := by
  unfold Path.push
  rw [if_neg h.notDot, if_neg h.notDotDot]

theorem splitAt_joinWith (h : ∀ n ∈ ns, IsStep n) (hne : ns ≠ []) :
    Bytes.splitAt slash (Bytes.joinWith [slash] ns) = ns := by
  induction ns with
  | nil => exact absurd rfl hne
  | cons n ns ih =>
    have hn := h n (List.mem_cons_self ..)
    cases ns with
    | nil => exact Bytes.splitAt_eq_self hn.noSlash
    | cons m ns =>
      rw [Bytes.joinWith, List.append_assoc, List.singleton_append, Bytes.splitAt_append,
        Bytes.splitAt_eq_self hn.noSlash,
          ih (fun k hk => h k (List.mem_cons_of_mem _ hk)) (List.cons_ne_nil _ _)]
      · rfl
      · exact fun heq => List.cons_ne_nil _ _ heq

theorem splitAt_ofNames (h : ∀ n ∈ ns, IsStep n) (hne : ns ≠ []) :
    Bytes.splitAt slash (ofNames ns) = [] :: ns := by
  rw [ofNames, Bytes.splitAt_cons_sep, splitAt_joinWith h hne]

theorem names_ofNames (h : ∀ n ∈ ns, IsStep n) : names (ofNames ns) = ns := by
  by_cases hne : ns = []
  · subst hne
    rfl
  · rw [names, splitAt_ofNames h hne, List.filter_cons_of_neg (by simp), List.filter_eq_self]
    intro n hn
    simp [(h n hn).nonempty]

theorem foldl_push (h : ∀ n ∈ ns, IsStep n) (rooted : Bool) (stack : List Bytes) :
    ns.foldl (push rooted) stack = ns.reverse ++ stack := by
  induction ns generalizing stack with
  | nil => rfl
  | cons n ns ih =>
    rw [List.foldl_cons, (h n (List.mem_cons_self ..)).push, ih fun k hk =>
      h k (List.mem_cons_of_mem _ hk),
      List.reverse_cons, List.append_assoc, List.singleton_append]

theorem cleanNames_ofNames (h : ∀ n ∈ ns, IsStep n) : cleanNames (ofNames ns) = ns := by
  rw [cleanNames, names_ofNames h, foldl_push h, List.append_nil, List.reverse_reverse]

theorem clean_ofNames (h : ∀ n ∈ ns, IsStep n) : clean (ofNames ns) = ofNames ns := by
  rw [clean, if_pos (show isAbsolute (ofNames ns) = true from rfl), cleanNames_ofNames h]

theorem isStep_foldl_push (h : ∀ n ∈ ns, n ≠ [] ∧ slash ∉ n) {stack : List Bytes}
    (hs : ∀ n ∈ stack, IsStep n) :
    ∀ n ∈ ns.foldl (push true) stack, IsStep n := by
  induction ns generalizing stack with
  | nil => exact hs
  | cons n ns ih =>
    refine ih (fun k hk => h k (List.mem_cons_of_mem _ hk)) ?_
    obtain ⟨hne, hslash⟩ := h n (List.mem_cons_self ..)
    unfold push
    split
    · exact hs
    · rename_i hdot
      split
      · split
        · exact fun k hk => absurd hk (List.not_mem_nil)
        · rename_i top rest
          rw [if_neg (hs top (List.mem_cons_self ..)).notDotDot]
          exact fun k hk => hs k (List.mem_cons_of_mem _ hk)
      · rename_i hup
        intro k hk
        rcases List.mem_cons.1 hk with rfl | hk
        · exact ⟨hne, hslash, hdot, hup⟩
        · exact hs k hk

theorem isStep_cleanNames (h : isAbsolute dir = true) : ∀ n ∈ cleanNames dir, IsStep n := by
  intro n hn
  rw [cleanNames, List.mem_reverse, h] at hn
  refine isStep_foldl_push (fun k hk => ?_) (fun k hk => absurd hk List.not_mem_nil) n hn
  rw [names, List.mem_filter] at hk
  exact ⟨by simpa using hk.2, Bytes.not_mem_of_mem_splitAt hk.1⟩

theorem isAbsolute_append (h : isAbsolute dir = true) (s : Bytes) :
    isAbsolute (dir ++ s) = true := by
  cases dir with
  | nil => cases h
  | cons b dir => exact h

theorem join_step (hdir : isAbsolute dir = true) (hn : IsStep n) :
    join [dir, n] = ofNames (cleanNames dir ++ [n]) := by
  have hne : dir ≠ [] := by
    rintro rfl
    cases hdir
  have hjoin : join [dir, n] = clean (dir ++ slash :: n) := by
    simp [join, hne, hn.nonempty, Bytes.joinWith]
  have habs := isAbsolute_append hdir (slash :: n)
  rw [hjoin, clean, if_pos habs, cleanNames, cleanNames, names_append, hn.names, habs, hdir,
    List.foldl_append,
    List.foldl_cons, List.foldl_nil, hn.push, List.reverse_cons]

theorem isAbsolute_clean (h : isAbsolute dir = true) : isAbsolute (clean dir) = true := by
  rw [clean, if_pos h]
  rfl

theorem isAbsolute_joinWith (hdir : isAbsolute dir = true) (rest : List Bytes) :
    isAbsolute (Bytes.joinWith [slash] (dir :: rest)) = true := by
  cases rest with
  | nil => exact hdir
  | cons p ps =>
    rw [Bytes.joinWith, List.append_assoc]
    · exact isAbsolute_append hdir _
    · exact fun heq => List.cons_ne_nil _ _ heq

theorem join_eq_clean (hdir : isAbsolute dir = true) (rest : List Bytes) :
    join (dir :: rest) = clean
      (Bytes.joinWith [slash] (dir :: rest.filter fun p => !p.isEmpty)) := by
  have hne : dir ≠ [] := by
    rintro rfl
    cases hdir
  rw [join, List.filter_cons_of_pos (by simp [hne])]

theorem isAbsolute_join (hdir : isAbsolute dir = true) (rest : List Bytes) :
    isAbsolute (join (dir :: rest)) = true := by
  rw [join_eq_clean hdir]
  exact isAbsolute_clean (isAbsolute_joinWith hdir _)

theorem isAbsolute_absolute (hdir : isAbsolute dir = true) (p : Bytes) :
    isAbsolute (absolute dir p) = true := by
  unfold absolute
  split
  · exact isAbsolute_clean ‹_›
  · exact isAbsolute_join hdir [p]

end Path

def FileEntry.bytes? : FileEntry → Option Bytes
  | .directory => none
  | .file content => some content
  | .database _ => some []

namespace FileTree

variable {t s : FileTree} {p : Place} {ns : List Bytes} {path text : Bytes}

theorem isDirectory_root (t : FileTree) : t.isDirectory [] = true := rfl

theorem isDirectory_iff : t.isDirectory p = true ↔ t.lookup? p = some .directory := by
  unfold isDirectory
  cases t.lookup? p with
  | none => simp
  | some e => cases e <;> simp [FileEntry.isDirectory]

theorem lookup?_concat (t : FileTree) (p : Place) (n : Bytes) :
    t.lookup? (p ++ [n]) = t.entries.lookup (p ++ [n]) := by
  cases p <;> rfl

theorem mem_of_lookup {α β : Type} [BEq α] [LawfulBEq α] {a : α} {b : β} {xs : List (α × β)}
    (h : xs.lookup a = some b) :
    (a, b) ∈ xs := by
  obtain ⟨l, r, rfl, -⟩ := List.lookup_eq_some_iff.1 h
  exact List.mem_append_right _ (List.mem_cons_self ..)

theorem mem_of_lookup? {e : FileEntry} (h : t.lookup? p = some e) (hp : p ≠ []) :
    (p, e) ∈ t.entries := by
  cases p with
  | nil => exact absurd rfl hp
  | cons a p => exact mem_of_lookup h

theorem Well.isDirectory (ht : t.Well) (h : (t.lookup? (p ++ ns)).isSome = true) (hns : ns ≠ []) :
    t.isDirectory p = true := by
  induction ns generalizing p with
  | nil => exact absurd rfl hns
  | cons n ns ih =>
    have hsome : (t.lookup? (p ++ [n])).isSome = true := by
      by_cases hns : ns = []
      · rwa [hns] at h
      · rw [List.append_cons] at h
        rw [isDirectory_iff.1 (ih h hns)]
        rfl
    obtain ⟨e, he⟩ := Option.isSome_iff_exists.1 hsome
    have hmem := mem_of_lookup (lookup?_concat t p n ▸ he)
    simpa using ht _ _ hmem

theorem follow_step {n : Bytes} (hn : Path.IsStep n) (ns : List Bytes) : t.follow p (n :: ns) =
    if !t.isDirectory p then .error .notDirectory
    else if maxName < n.length then .error .nameTooLong
    else if (t.lookup? (p ++ [n])).isNone then .error .notFound
    else t.follow (p ++ [n]) ns := by
  rw [follow]
  simp [hn.nonempty, hn.notDot, hn.notDotDot]

theorem follow_eq_ok (h : ∀ n ∈ ns, Path.IsStep n) {q : Place} (hf : t.follow p ns = .ok q) :
    q = p ++ ns ∧ ∀ n ∈ ns, n.length ≤ maxName := by
  induction ns generalizing p with
  | nil =>
    rw [follow] at hf
    cases hf
    exact ⟨(List.append_nil _).symm, fun n hn => absurd hn List.not_mem_nil⟩
  | cons n ns ih =>
    rw [follow_step (h n (List.mem_cons_self ..))] at hf
    split at hf
    · cases hf
    · split at hf
      · cases hf
      · rename_i hlen
        split at hf
        · cases hf
        · obtain ⟨rfl, hall⟩ := ih (fun k hk => h k (List.mem_cons_of_mem _ hk)) hf
          refine ⟨by rw [List.append_assoc, List.singleton_append], fun k hk => ?_⟩
          rcases List.mem_cons.1 hk with rfl | hk
          · exact Nat.le_of_not_lt hlen
          · exact hall k hk

theorem Well.follow (ht : t.Well) (h : ∀ n ∈ ns, Path.IsStep n)
    (hlen : ∀ n ∈ ns, n.length ≤ maxName)
    (hsome : (t.lookup? (p ++ ns)).isSome = true) : t.follow p ns = .ok (p ++ ns) := by
  induction ns generalizing p with
  | nil => rw [FileTree.follow, List.append_nil]
  | cons n ns ih =>
    have hhere : (t.lookup? (p ++ [n])).isSome = true := by
      by_cases hns : ns = []
      · rwa [hns] at hsome
      · rw [List.append_cons] at hsome
        rw [isDirectory_iff.1 (ht.isDirectory hsome hns)]
        rfl
    rw [List.append_cons] at hsome
    rw [follow_step (h n (List.mem_cons_self ..)), ht.isDirectory hhere (List.cons_ne_nil _ _),
      if_neg (by simp),
      if_neg (Nat.not_lt.2 (hlen n (List.mem_cons_self ..))),
        if_neg (by simpa [Option.isSome_iff_ne_none] using hhere),
      ih (fun k hk => h k (List.mem_cons_of_mem _ hk))
        (fun k hk => hlen k (List.mem_cons_of_mem _ hk)) hsome,
      ← List.append_cons]

theorem find_ofNames (h : ∀ n ∈ ns, Path.IsStep n) (hne : ns ≠ []) : t.find [] (Path.ofNames ns) =
    if (Path.ofNames ns).contains 0 then .error .invalid
    else if maxPath ≤ (Path.ofNames ns).length then .error .nameTooLong
    else t.follow [] ns := by
  have hfollow : t.follow [] ([] :: ns) = t.follow [] ns := by
    rw [follow, isDirectory_root]
    simp
  have hempty : (Path.ofNames ns).isEmpty = false := rfl
  rw [find, pieces, Path.splitAt_ofNames h hne, if_neg (Bool.eq_false_iff.1 hempty)]
  split
  · rfl
  · split
    · rfl
    · simpa [bind, Except.bind] using hfollow

theorem read_eq_ok_iff : t.read [] path = .ok text ↔ ∃ q e, t.find [] path = .ok q ∧
    t.lookup? q = some e ∧ e.bytes? = some text := by
  unfold read findEntry
  cases t.find [] path with
  | error fault => simp [bind, Except.bind]
  | ok q =>
    simp only [bind, Except.bind, Except.ok.injEq, exists_and_left, exists_eq_left']
    cases t.lookup? q with
    | none => simp
    | some e => cases e <;> simp [FileEntry.bytes?]

theorem read_ofNames (h : ∀ n ∈ ns, Path.IsStep n) (hne : ns ≠ [])
    (hr : t.read [] (Path.ofNames ns) = .ok text) :
    (∀ s : FileTree, s.find [] (Path.ofNames ns) = s.follow [] ns) ∧
    (∀ n ∈ ns, n.length ≤ maxName) ∧
      ∃ e, t.lookup? ns = some e ∧ e.bytes? = some text := by
  obtain ⟨q, e, hf, hl, he⟩ := read_eq_ok_iff.1 hr
  rw [find_ofNames h hne] at hf
  split at hf
  · cases hf
  · rename_i hzero
    split at hf
    · cases hf
    · rename_i hlen
      obtain ⟨rfl, hall⟩ := follow_eq_ok h hf
      exact ⟨fun s => by rw [find_ofNames h hne, if_neg hzero, if_neg hlen], hall, e, hl, he⟩

/-- The entries of a tree that are no directories are those of another one. -/
structure FilesOf (s t : FileTree) : Prop where
  well : s.Well
  files : ∀ p e, s.lookup? p = some e → e.isDirectory = false → t.lookup? p = some e

theorem FilesOf.refl (h : t.Well) : t.FilesOf t := ⟨h, fun _ _ h _ => h⟩

theorem FilesOf.trans {r : FileTree} (h : r.FilesOf s) (h' : s.FilesOf t) : r.FilesOf t :=
  ⟨h.well, fun p e hl he => h'.files p e (h.files p e hl he) he⟩

theorem FilesOf.read (h : s.FilesOf t) (ht : t.Well) (hsteps : ∀ n ∈ ns, Path.IsStep n)
    (hne : ns ≠ [])
    (hr : s.read [] (Path.ofNames ns) = .ok text) : t.read [] (Path.ofNames ns) = .ok text := by
  obtain ⟨hfind, hlen, e, hl, he⟩ := read_ofNames hsteps hne hr
  have hfile : e.isDirectory = false := by cases e <;> first | rfl | cases he
  have hl := h.files ns e hl hfile
  refine read_eq_ok_iff.2 ⟨ns, e, ?_, hl, he⟩
  rw [hfind, ht.follow hsteps hlen (by rw [List.nil_append, hl]; rfl), List.nil_append]

theorem filesOf_set {n : Bytes} (h : t.Well) (hp : t.isDirectory p = true) :
    (t.set (p ++ [n]) .directory).FilesOf t := by
  have hne : p ++ [n] ≠ [] := by simp
  have hkept : ∀ q, t.isDirectory q = true →
      (t.set (p ++ [n]) .directory).isDirectory q = true := by
    intro q hq
    rw [isDirectory_iff] at hq ⊢
    by_cases hqp : q = p ++ [n]
    · rw [hqp, lookup?_set_self t _ hne]
    · rwa [lookup?_set_of_ne t _ hqp]
  constructor
  · intro q e hmem
    rcases List.mem_cons.1 (show (q, e) ∈ (p ++ [n], FileEntry.directory) ::
        Assoc.erase (p ++ [n]) t.entries from hmem) with
      heq | hmem
    · cases heq
      rw [List.dropLast_concat]
      exact hkept p hp
    · exact hkept _ (h q e ((List.mem_filter.1 hmem).1))
  · intro q e hl he
    by_cases hqp : q = p ++ [n]
    · rw [hqp, lookup?_set_self t _ hne] at hl
      cases hl
      cases he
    · rwa [lookup?_set_of_ne t _ hqp] at hl

theorem filesOf_makeFrom (names : List Bytes) (h : t.Well) (hp : t.isDirectory p = true) :
    (t.makeFrom p names).1.FilesOf t := by
  induction names generalizing t p with
  | nil => exact .refl h
  | cons n names ih =>
    rw [makeFrom]
    dsimp only
    cases hl : t.lookup? (p ++ [n]) with
    | none =>
      dsimp only
      split
      · exact .refl h
      · split
        · exact .refl h
        · have hset := filesOf_set (n := n) h hp
          refine (ih hset.well ?_).trans hset
          rw [isDirectory_iff, lookup?_set_self t _ (by simp)]
    | some e =>
      cases e with
      | directory => exact ih h (isDirectory_iff.2 hl)
      | file content => exact .refl h
      | database store => exact .refl h

theorem filesOf_makeDirectories (path : Bytes) (h : t.Well) :
    (t.makeDirectories path).1.FilesOf t :=
  filesOf_makeFrom _ h (isDirectory_root t)

end FileTree

end LuaChunk
