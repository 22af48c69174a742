import LuaChunk.Compile.Chunk
import LuaChunk.Proofs.Source.Stream
import LuaChunk.Proofs.Wire.Safety
import Mathlib.Data.List.Dedup

/-!
Sharing a table. Whatever was recorded in a table before, by compilations that succeed or fail, by
reading compiled functions or by name, a compilation with it gives what it gives with an empty one.
Handles are equal where their texts are and never change, so a compiler that compares handles
compares texts.

A table is followed through everything that happens to it: a compilation starts and marks the
reserved words, or a text is recorded. So what is said holds in the middle of a compilation as well.
-/

set_option autoImplicit false

namespace LuaChunk

theorem Keyword.number_ne_zero_iff {s : Bytes} : Keyword.number s ≠ 0 ↔ s ∈ Keyword.words := by
  unfold Keyword.number
  cases h : Keyword.words.idxOf? s with
  | none => simpa using List.idxOf?_eq_none_iff.1 h
  | some i =>
    have : ¬ Keyword.words.idxOf? s = none := by simp [h]
    simpa [List.idxOf?_eq_none_iff] using this

namespace Interner

variable {t : Interner} {s u : Bytes} {i : Nat}

theorem isSome_handle?_push {n : Nat} (h : t.handle? s = none) :
    ((t.push s n h).handle? u).isSome = true ↔ s = u ∨ (t.handle? u).isSome = true := by
  rw [handle?_push]
  by_cases hu : s = u <;> simp [hu]

theorem isSome_handle?_intern : ((t.intern s).handle? u).isSome = true ↔ s = u ∨
    (t.handle? u).isSome = true := by
  unfold intern
  split
  · rename_i i hs
    refine ⟨.inr, fun h => h.elim (fun hu => ?_) id⟩
    rw [← hu, hs]
    rfl
  · exact isSome_handle?_push _

theorem isSome_handle?_mark {n : Nat} :
    ((t.mark s n).handle? u).isSome = true ↔ s = u ∨ (t.handle? u).isSome = true := by
  unfold mark
  split
  · rename_i i hs
    rw [handle?_setNumber]
    refine ⟨.inr, fun h => h.elim (fun hu => ?_) id⟩
    rw [← hu, hs]
    rfl
  · exact isSome_handle?_push _

theorem text?_push_of_some {n : Nat} (h : t.handle? s = none) (hi : t.text? i = some u) :
    (t.push s n h).text? i = some u := by
  rw [text?_push, if_neg (Nat.ne_of_lt (t.lt_size_of_text? hi)), hi]

theorem text?_intern (hi : t.text? i = some u) : (t.intern s).text? i = some u := by
  unfold intern
  split
  · exact hi
  · exact text?_push_of_some _ hi

theorem text?_mark {n : Nat} (hi : t.text? i = some u) : (t.mark s n).text? i = some u := by
  unfold mark
  split
  · rwa [text?_setNumber]
  · exact text?_push_of_some _ hi

theorem reservedIndex_intern : (t.intern s).reservedIndex = t.reservedIndex := by
  funext u
  unfold reservedIndex
  rw [lookup?_intern]
  split
  · rename_i hu
    rw [hu]
    rfl
  · rfl

theorem numberAt_eq (hi : t.text? i = some s) : t.numberAt i = t.reservedIndex s := by
  rw [reservedIndex, lookup?, t.handle?_eq_some_iff.2 hi]
  rfl

theorem handle_inj {j : Nat} (hi : t.text? i = some s) (hj : t.text? j = some u) : i = j ↔
    s = u := by
  constructor
  · rintro rfl
    exact Option.some.inj (hi.symm.trans hj)
  · rintro rfl
    exact Option.some.inj ((t.handle?_eq_some_iff.2 hi).symm.trans (t.handle?_eq_some_iff.2 hj))

theorem isSome_handle?_markAll {words : List Bytes} :
    ((t.markAll words).handle? u).isSome = true ↔ u ∈ words ∨ (t.handle? u).isSome = true := by
  have hfold : ∀ (ws : List (Bytes × Nat)) (t : Interner),
      ((ws.foldl (fun t p => t.mark p.1 (p.2 + 1)) t).handle? u).isSome = true ↔
        u ∈ ws.map Prod.fst ∨ (t.handle? u).isSome = true := by
    intro ws
    induction ws with
    | nil => simp
    | cons p ws ih =>
      intro t
      rw [List.foldl_cons, ih, isSome_handle?_mark, List.map_cons, List.mem_cons, or_left_comm,
        ← or_assoc, eq_comm]
  rw [markAll, hfold, List.zipIdx_map_fst]

theorem text?_markAll {words : List Bytes} (hi : t.text? i = some u) :
    (t.markAll words).text? i = some u := by
  unfold markAll
  generalize words.zipIdx = ws
  induction ws generalizing t with
  | nil => exact hi
  | cons p ws ih => exact ih (text?_mark hi)

/-- Once the reserved words are marked, they have their numbers and no other text has one. -/
def Usable (t : Interner) : Prop := (t.markAll Keyword.words).reservedIndex = Keyword.number

inductive Event
  | start
  | record (s : Bytes)
  deriving DecidableEq

namespace Event

def apply (t : Interner) : Event → Interner
  | .start => t.markAll Keyword.words
  | .record s => t.intern s

def texts : Event → List Bytes
  | .start => Keyword.words
  | .record s => [s]

variable (e : Event)

theorem isSome_handle? : ((e.apply t).handle? u).isSome = true ↔ u ∈ e.texts ∨
    (t.handle? u).isSome = true := by
  cases e with
  | start => exact isSome_handle?_markAll
  | record s =>
    rw [apply, isSome_handle?_intern, texts, List.mem_singleton, eq_comm]

theorem text? (hi : t.text? i = some u) : (e.apply t).text? i = some u := by
  cases e with
  | start => exact text?_markAll hi
  | record s => exact text?_intern hi

end Event

/-- The table after some events, from an empty one on. -/
def ofEvents (es : List Event) : Interner := es.foldl Event.apply .empty

theorem ofEvents_concat (es : List Event) (e : Event) :
    ofEvents (es ++ [e]) = e.apply (ofEvents es) := by
  rw [ofEvents, List.foldl_append]
  rfl

theorem isSome_handle?_ofEvents (es : List Event) :
    ((ofEvents es).handle? s).isSome = true ↔ s ∈ es.flatMap Event.texts := by
  induction es using List.reverseRecOn with
  | nil => simp [ofEvents, handle?, empty]
  | append_singleton es e ih =>
    rw [ofEvents_concat, e.isSome_handle?, ih, List.flatMap_append, List.mem_append,
      List.flatMap_singleton, or_comm]

theorem text?_ofEvents_append (es more : List Event) (hi : (ofEvents es).text? i = some s) :
    (ofEvents (es ++ more)).text? i = some s := by
  induction more using List.reverseRecOn with
  | nil => rwa [List.append_nil]
  | append_singleton more e ih =>
    rw [← List.append_assoc, ofEvents_concat]
    exact e.text? ih

theorem reservedIndex_ofEvents (es : List Event) :
    (ofEvents es).reservedIndex s = if Event.start ∈ es then Keyword.number s else 0 := by
  induction es using List.reverseRecOn with
  | nil => simp [ofEvents, reservedIndex, lookup?, handle?, empty]
  | append_singleton es e ih =>
    rw [ofEvents_concat]
    cases e with
    | start =>
      have hmem : Event.start ∈ es ++ [Event.start] := by simp
      rw [Event.apply, reservedIndex_markAll_words, ih, if_pos hmem]
      by_cases hs : s ∈ Keyword.words
      · rw [if_pos hs]
      · have hzero : Keyword.number s = 0 := by simpa using mt Keyword.number_ne_zero_iff.1 hs
        rw [if_neg hs, hzero]
        split <;> rfl
    | record u =>
      rw [Event.apply, reservedIndex_intern, ih]
      simp

theorem usable_ofEvents (es : List Event) : (ofEvents es).Usable := by
  funext s
  have hstart := reservedIndex_ofEvents (s := s) (es ++ [.start])
  rwa [ofEvents_concat, if_pos (by simp)] at hstart

theorem size_ofEvents (es : List Event) :
    (ofEvents es).size = (es.flatMap Event.texts).dedup.length := by
  generalize ht : ofEvents es = t
  have hmem : ∀ u, u ∈ t.entries.toList.map Entry.text ↔ u ∈ (es.flatMap Event.texts).dedup := by
    intro u
    rw [List.mem_dedup, ← isSome_handle?_ofEvents, ht, Option.isSome_iff_exists]
    simp only [handle?_eq_some_iff, text?, ← Array.getElem?_toList, ← List.getElem?_map]
    exact List.mem_iff_getElem?
  have hnodup : (t.entries.toList.map Entry.text).Nodup := by
    rw [List.nodup_iff_getElem?_ne_getElem?]
    intro i j hij hj heq
    have htext : ∀ k, t.text? k = (t.entries.toList.map Entry.text)[k]? := by
      intro k
      rw [text?, List.getElem?_map, Array.getElem?_toList]
    obtain ⟨u, hu⟩ : ∃ u, t.text? j = some u := ⟨_, (htext j).trans (List.getElem?_eq_getElem hj)⟩
    have hi : t.text? i = some u := by rw [htext i, heq, ← htext j, hu]
    exact Nat.ne_of_lt hij ((handle_inj hi hu).2 rfl)
  have hperm := (List.perm_ext_iff_of_nodup hnodup (List.nodup_dedup _)).2 hmem
  rw [← hperm.length_eq, List.length_map, Array.length_toList, size]

end Interner

namespace Interner

/-- What a table is used for: recording a text or asking for one, compiling with it, and reading a
compiled function. -/
inductive Call
  | intern (s : Bytes)
  | lookup (s : Bytes)
  | compile (o : Compile.Options) (source : Bytes)
  | read (s : Bytes)

namespace Call

/-- The table after a call. -/
def after (t : Interner) : Call → Interner
  | .intern s => t.intern s
  | .lookup _ => t
  | .compile o source => (Compile.run { o with interner := t } source).interner
  | .read s => (Wire.readInto s t).2

def events (t : Interner) : Call → List Event
  | .intern s => [.record s]
  | .lookup _ => []
  | .compile o source =>
    .start :: (Compile.run { o with interner := t } source).noted.toList.map .record
  | .read s => (Wire.recordedTexts s).map .record

end Call

theorem foldl_record (t : Interner) (ws : List Bytes) :
    (ws.map Event.record).foldl Event.apply t = ws.foldl intern t := by
  rw [List.foldl_map]
  rfl

end Interner

namespace Compile

theorem interner_run (o : Options) (source : Bytes) :
    (run o source).interner = (run o source).noted.toList.foldl Interner.intern
      (o.interner.markAll Keyword.words) := by
  unfold run Lexer.internAll
  dsimp only
  split <;> rw [Array.foldl_toList]

/-- An outcome without its table. -/
def Outcome.bare (r : Outcome) : Outcome := { r with interner := .empty }

variable {o : Options} {t : Interner} {source : Bytes}

theorem bare_run (h : t.Usable) :
    (run { o with interner := t } source).bare =
    (run { o with interner := .empty } source).bare := by
  have hinitial : initial { o with interner := t } source = initial { o with interner := .empty }
      source := by
    unfold initial Lexer.start
    rw [h, Interner.reservedIndex_markAll]
  unfold run
  rw [hinitial]
  cases mainFunction (initial { o with interner := .empty } source) <;> simp only [Outcome.bare]

theorem result_run (h : t.Usable) (chunk source : Bytes) :
    (run { chunk, interner := t } source).result = compile chunk source := by
  show (run { chunk, interner := t } source).bare.result = (run { chunk } source).bare.result
  rw [bare_run (o := { chunk }) h]

theorem usable_run (h : t.Usable) : (run { o with interner := t } source).interner.Usable := by
  rw [interner_run]
  generalize (run { o with interner := t } source).noted.toList = ws
  suffices hfold : (ws.foldl Interner.intern (t.markAll Keyword.words)).reservedIndex =
      Keyword.number by
    funext s
    rw [Interner.reservedIndex_markAll_words, hfold, ite_self]
  rw [← h]
  generalize t.markAll Keyword.words = u
  induction ws generalizing u with
  | nil => rfl
  | cons w ws ih =>
    rw [List.foldl_cons, ih, Interner.reservedIndex_intern]

end Compile

namespace Interner

theorem Call.after_eq (t : Interner) (c : Call) : c.after t = (c.events t).foldl Event.apply t := by
  cases c with
  | intern s => rfl
  | lookup s => rfl
  | compile o source =>
    rw [after, Compile.interner_run, events, List.foldl_cons, foldl_record]
    rfl
  | read s =>
    rw [events, foldl_record]
    rfl

/-- The table after some calls. -/
def afterCalls (t : Interner) (calls : List Call) : Interner := calls.foldl Call.after t

/-- All that happens to a table in some calls. -/
def eventsOf : Interner → List Call → List Event
  | _, [] => []
  | t, c :: calls => c.events t ++ eventsOf (c.after t) calls

theorem afterCalls_eq (t : Interner) (calls : List Call) :
    afterCalls t calls = (eventsOf t calls).foldl Event.apply t := by
  induction calls generalizing t with
  | nil => rfl
  | cons c calls ih =>
    rw [eventsOf, List.foldl_append, ← Call.after_eq, ← ih]
    rfl

/-- At any moment of any calls, and so between them, a table does not show in a compilation; handles
are the same exactly where their texts are, and keep them; the size counts the texts that were
recorded; and numbers are those of reserved words as soon as a compilation has started. -/
theorem sharing_is_invisible (calls : List Call) :
    afterCalls .empty calls = ofEvents (eventsOf .empty calls) ∧
    ∀ es more, es ++ more = eventsOf .empty calls →
      (∀ (o : Compile.Options) (source : Bytes),
        (Compile.run { o with interner := ofEvents es } source).bare =
          (Compile.run { o with interner := .empty } source).bare) ∧
      (∀ i j s u, (ofEvents es).text? i = some s → (ofEvents es).text? j = some u →
        (i = j ↔ s = u)) ∧
      (∀ i s, (ofEvents es).text? i = some s → (afterCalls .empty calls).text? i = some s) ∧
      (∀ s, (∃ i, (ofEvents es).text? i = some s) ↔ s ∈ es.flatMap Event.texts) ∧
      (ofEvents es).size = (es.flatMap Event.texts).dedup.length ∧
      (Event.start ∈ es → ∀ i s, (ofEvents es).text? i = some s →
        ((ofEvents es).numberAt i ≠ 0 ↔ s ∈ Keyword.words)) := by
  refine ⟨afterCalls_eq .empty calls, fun es more hes =>
    ⟨fun o source => ?_, fun i j s u hi hj => handle_inj hi hj,
    fun i s hi => ?_, fun s => ?_, size_ofEvents es, fun hstart i s hi => ?_⟩⟩
  · exact Compile.bare_run (usable_ofEvents es)
  · rw [afterCalls_eq, ← hes]
    exact text?_ofEvents_append es more hi
  · rw [← isSome_handle?_ofEvents, Option.isSome_iff_exists]
    simp only [handle?_eq_some_iff]
  · rw [numberAt_eq hi, reservedIndex_ofEvents, if_pos hstart, Keyword.number_ne_zero_iff]

/-- A reserved word is recorded before anything is compiled; then a text is compiled that uses it as
a name, and a text that does not compile. -/
def sampleCalls : List Call :=
  [.intern (utf8 "while"), .compile { chunk := utf8 "=a" } (utf8 "while = 1"), .read [0x80],
    .lookup (utf8 "x")]

theorem sharing_is_invisible_sample :
    (Compile.run { chunk := utf8 "=b", interner := afterCalls .empty sampleCalls }
      (utf8 "while x do end")).bare =
      (Compile.run { chunk := utf8 "=b" } (utf8 "while x do end")).bare ∧
    ∃ i, (afterCalls .empty sampleCalls).text? i = some (utf8 "while") ∧
      (afterCalls .empty sampleCalls).numberAt i ≠ 0 := by
  obtain ⟨hafter, hall⟩ := sharing_is_invisible sampleCalls
  obtain ⟨hrun, -, -, hrecorded, -, hnumbers⟩ :=
    hall (eventsOf .empty sampleCalls) [] (List.append_nil _)
  rw [hafter]
  have hstart : Event.start ∈ eventsOf .empty sampleCalls :=
    List.mem_cons_of_mem _ (List.mem_cons_self ..)
  obtain ⟨i, hi⟩ := (hrecorded (utf8 "while")).2
    (List.mem_flatMap.2 ⟨_, List.mem_cons_self .., List.mem_cons_self ..⟩)
  exact ⟨hrun { chunk := utf8 "=b" } _, i, hi, (hnumbers hstart i _ hi).2 (by decide)⟩

end Interner

end LuaChunk
