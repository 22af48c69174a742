import Mathlib
import LuaChunk.Editor.Feature
import LuaChunk.Code.Prototype
import LuaChunk.Wire.Form

/-!
What can be done with a function that was read. The reader makes sure that a line table has an entry
for every instruction. Checkpoints of lines it takes as they are, and one thing can be wrong with
them: a checkpoint that stands before the start of the code leads outside the line table. All else
that a function says is taken with bounds, so listings and lines are there unless such a checkpoint
is.
-/

set_option autoImplicit false

namespace LuaChunk

namespace Prototype

variable {p q : Prototype} {pc : Nat}

theorem isSome_sumLines (info : Array Int8) (count : Nat) (start line : Int) :
    (sumLines info count start line).isSome = true ↔ count = 0 ∨ 0 ≤ start ∧
      start + count ≤ info.size := by
  induction count generalizing start line with
  | zero => simp [sumLines]
  | succ count ih =>
    rw [sumLines]
    by_cases hstart : start < 0
    · rw [if_pos hstart]
      simp only [Option.isSome_none, Bool.false_eq_true, false_iff]
      omega
    rw [if_neg hstart]
    cases hd : info[start.toNat]? with
    | none =>
      have hout := Array.getElem?_eq_none_iff.1 hd
      simp only [Option.isSome_none, Bool.false_eq_true, false_iff]
      omega
    | some d =>
      obtain ⟨hin, -⟩ := Array.getElem?_eq_some_iff.1 hd
      rw [ih]
      omega

theorem lineBase_last {best : AbsLine} (rest : List AbsLine) (h : best.pc ≤ pc) :
    (lineBase.last pc best rest).pc ≤ pc ∧
      (lineBase.last pc best rest = best ∨ lineBase.last pc best rest ∈ rest) := by
  induction rest generalizing best with
  | nil => exact ⟨h, .inl rfl⟩
  | cons next rest ih =>
    rw [lineBase.last]
    split
    · obtain ⟨hle, heq | hmem⟩ := ih ‹_›
      · exact ⟨hle, .inr (List.mem_cons.2 (.inl heq))⟩
      · exact ⟨hle, .inr (List.mem_cons_of_mem _ hmem)⟩
    · exact ⟨h, .inl rfl⟩

theorem lineBase_cases (p : Prototype) (pc : Nat) :
    (p.lineBase pc).pc ≤ pc ∧
      (p.lineBase pc = ⟨-1, p.lineDefined⟩ ∨ p.lineBase pc ∈ p.absLines.toList) := by
  have hstart : (-1 : Int) ≤ pc := by omega
  unfold lineBase
  cases hfirst : p.absLines[0]? with
  | none => exact ⟨hstart, .inl rfl⟩
  | some first =>
    dsimp only
    split
    · exact ⟨hstart, .inl rfl⟩
    · rename_i hle
      obtain ⟨hlast, hmem⟩ := lineBase_last (p.absLines.toList.drop 1) (Int.not_lt.1 hle)
      refine ⟨hlast, .inr ?_⟩
      rcases hmem with heq | hmem
      · rw [heq]
        exact Array.mem_toList_iff.2 (Array.mem_of_getElem? hfirst)
      · exact List.mem_of_mem_drop hmem

theorem isSome_line (hlines : p.lineInfo.isEmpty = true ∨ p.lineInfo.size = p.code.size)
    (hpc : pc < p.code.size) :
    (p.line? pc).isSome = true ↔ p.lineInfo.isEmpty = true ∨ -1 ≤ (p.lineBase pc).pc := by
  unfold line?
  by_cases hempty : p.lineInfo.isEmpty = true
  · simp [hempty]
  · have hsize := hlines.resolve_left hempty
    have hle := (lineBase_cases p pc).1
    rw [if_neg hempty, or_iff_right hempty]
    dsimp only
    rw [isSome_sumLines]
    omega

end Prototype

theorem isSome_mapM {α β : Type} {f : α → Option β} {xs : List α} :
    (xs.mapM f).isSome = true ↔ ∀ x ∈ xs, (f x).isSome = true := by
  induction xs with
  | nil => simp
  | cons x xs ih =>
    rw [List.mapM_cons, List.forall_mem_cons, ← ih]
    cases f x with
    | none => simp
    | some y => cases xs.mapM f <;> simp

namespace Listing

variable {p : Prototype}

theorem isSome_function (full : Bool) :
    (function? full p).isSome = true ↔ ∀ pc < p.code.size, (p.line? pc).isSome = true := by
  unfold function? instructions? instruction?
  simp only [Option.isSome_map, isSome_mapM, Prod.forall]
  constructor
  · intro h pc hpc
    exact h p.code[pc] pc (by simp [List.mem_zipIdx_iff_getElem?, hpc])
  · intro h i pc hmem
    rw [List.mem_zipIdx_iff_getElem?, Array.getElem?_toList] at hmem
    exact h pc (Array.getElem?_eq_some_iff.1 hmem).1

theorem isSome_listing (full : Bool) :
    (listing? full p).isSome = true ↔ ∀ q ∈ p.walk, ∀ pc < q.code.size,
      (q.line? pc).isSome = true := by
  unfold listing?
  simp only [Option.isSome_map, isSome_mapM, isSome_function]

end Listing

namespace Editor

mutual

theorem innermost_mem_walk (line : Int) : (p : Prototype) → innermost line p ∈ p.walk
  | { nested, .. } => by
    rw [innermost]
    cases h : innermostOf line nested with
    | none => exact Prototype.mem_walk.2 (.inl rfl)
    | some q => exact Prototype.mem_walk.2 (.inr (innermostOf_mem_walk line nested h))

theorem innermostOf_mem_walk (line : Int) : (ps : List Prototype) → {q : Prototype} →
    innermostOf line ps = some q →
    ∃ p ∈ ps, q ∈ p.walk
  | [], _, h => by cases h
  | p :: rest, q, h => by
    rw [innermostOf] at h
    split at h
    · cases h
      exact ⟨p, List.mem_cons_self .., innermost_mem_walk line p⟩
    · obtain ⟨r, hr, hq⟩ := innermostOf_mem_walk line rest h
      exact ⟨r, List.mem_cons_of_mem _ hr, hq⟩

end

end Editor

namespace Wire

variable {s : Bytes} {p : Prototype}

mutual

theorem lines_of_check : (p : Prototype) → check p = .ok () → ∀ q ∈ p.walk,
    q.lineInfo.isEmpty = true ∨ q.lineInfo.size = q.code.size
  | { code, constants, nested, lineInfo, .. }, h, q, hq => by
    rw [check] at h
    split at h
    · cases h
    · rename_i hlines
      split at h
      · cases h
      · rcases Prototype.mem_walk.1 hq with rfl | ⟨r, hr, hq⟩
        · by_cases hempty : lineInfo.isEmpty = true
          · exact .inl hempty
          · exact .inr (by simpa [hempty] using hlines)
        · exact lines_of_checkAll nested h r hr q hq

theorem lines_of_checkAll : (ps : List Prototype) → checkAll ps = .ok () → ∀ p ∈ ps, ∀ q ∈ p.walk,
    q.lineInfo.isEmpty = true ∨ q.lineInfo.size = q.code.size
  | [], _, p, hp => by cases hp
  | r :: rest, h, p, hp => by
    rw [checkAll] at h
    split at h
    · rename_i hcheck
      rcases List.mem_cons.1 hp with heq | hp
      · rw [heq]
        exact lines_of_check r hcheck
      · exact lines_of_checkAll rest h p hp
    · cases h

end

theorem check_of_decode (h : decode s = .ok p) : check p = .ok () := by
  unfold decode at h
  split at h
  · cases h
  · split at h
    · cases h
    · split at h
      · rename_i hcheck
        cases h
        exact hcheck
      · cases h

/-- A function that was read can be shown, with the lines of all its instructions, unless they are
counted from before the start of its code. -/
theorem decode_usable (h : decode s = .ok p)
    (hstart : ∀ q ∈ p.walk, ∀ a ∈ q.absLines.toList, -1 ≤ a.pc) :
    (∀ q ∈ p.walk, ∀ pc < q.code.size, (q.line? pc).isSome = true) ∧
    (∀ full, (Listing.listing? full p).isSome = true) ∧
      ∀ line, Editor.innermost line p ∈ p.walk := by
  have hlines : ∀ q ∈ p.walk, ∀ pc < q.code.size, (q.line? pc).isSome = true := by
    intro q hq pc hpc
    refine (Prototype.isSome_line (lines_of_check p (check_of_decode h) q hq) hpc).2 (.inr ?_)
    rcases (Prototype.lineBase_cases q pc).2 with hbase | hbase
    · have hpc : (q.lineBase pc).pc = -1 := congrArg AbsLine.pc hbase
      omega
    · exact hstart q hq _ hbase
  exact ⟨hlines, fun full => (Listing.isSome_listing full).2 hlines,
    fun line => Editor.innermost_mem_walk line p⟩

/-- A function of one instruction with a checkpoint at a position, as it is written. -/
def checkpointAt (pc : UInt8) : Bytes :=
  [0xa5, 0x01, 0x62, 0x3d, 0x74, 0x06, 0x02, 0x07, 0x81, 0x18, 0x47, 0x0b, 0x81, 0x00, 0x0c, 0x81,
    0x82, pc, 0x01]

def checkpointed (pc : Int) : Prototype where
  source := utf8 "=t"
  maxStackSize := 2
  code := #[⟨71⟩]
  lineInfo := #[0]
  absLines := #[⟨pc, 1⟩]

theorem decode_checkpointAt_start : decode (checkpointAt 0x00) = .ok (checkpointed 0) := by
  cbv

theorem decode_checkpointAt_early : decode (checkpointAt 0x24) = .ok (checkpointed (-5)) := by
  cbv

theorem decode_usable_checkpointed : decode (checkpointAt 0x00) = .ok (checkpointed 0) ∧
    (∀ full, (Listing.listing? full (checkpointed 0)).isSome = true) := by
  refine ⟨decode_checkpointAt_start, (decode_usable decode_checkpointAt_start ?_).2.1⟩
  intro q hq a ha
  rw [show (checkpointed 0).walk = [checkpointed 0] from rfl, List.mem_singleton] at hq
  rw [hq, show (checkpointed 0).absLines.toList = [⟨0, 1⟩] from rfl, List.mem_singleton] at ha
  rw [ha]
  decide

/-- A checkpoint before the start of the code is read, but then there is no line. -/
theorem decode_not_usable : decode (checkpointAt 0x24) = .ok (checkpointed (-5)) ∧
    (checkpointed (-5)).line? 0 = none ∧
      ∀ full, Listing.listing? full (checkpointed (-5)) = none := by
  refine ⟨decode_checkpointAt_early, rfl, fun full => ?_⟩
  rw [← Option.not_isSome_iff_eq_none, Listing.isSome_listing]
  intro h
  cases h _ (Prototype.mem_walk.2 (.inl rfl)) 0 (by decide)

end Wire

end LuaChunk
