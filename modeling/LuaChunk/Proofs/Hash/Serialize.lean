import LuaChunk.Hash.Fingerprint

/-!
What a serialization tells. The program of a function is all of it but the debug information. The
format writes small numbers as one byte, so what two functions with the same bytes share is the
program as seen through such bytes; functions that fit the widths of the format have the same bytes
only if they have the same program.

No part has its end marked: each part can be split off the front of any bytes that start with it.
-/

set_option autoImplicit false

namespace LuaChunk

/-- Where a closure finds an upvalue, without the name. -/
structure Capture (ν : Type) where
  inStack : Bool
  index : ν
  kind : UInt8

/-- What the machine executes of a function, its small numbers of any type. -/
structure Program (ν : Type) where
  numParams : ν
  flag : UInt8
  maxStackSize : ν
  code : List Instruction
  constants : List Value
  captures : List (Capture ν)
  nested : List (Program ν)

def Upvalue.seen {ν : Type} (f : Int → ν) (u : Upvalue) : Capture ν :=
  ⟨u.inStack, f u.index, u.kind⟩

namespace Prototype

variable {ν : Type}

mutual

/-- The function without its debug information, and so all functions nested in it. The small
numbers are seen through `f`. -/
def seen (f : Int → ν) : Prototype → Program ν
  | { numParams, flag, maxStackSize, code, constants, nested, upvalues, .. } =>
    { numParams := f numParams, flag, maxStackSize := f maxStackSize
      code := code.toList
      constants := constants.toList
      captures := upvalues.toList.map (Upvalue.seen f)
      nested := seenAll f nested }

def seenAll (f : Int → ν) : List Prototype → List (Program ν)
  | [] => []
  | p :: rest => seen f p :: seenAll f rest

end

theorem length_seenAll (f : Int → ν) (ps : List Prototype) : (seenAll f ps).length = ps.length := by
  induction ps with
  | nil => rfl
  | cons p ps ih => rw [seenAll, List.length_cons, ih, List.length_cons]

def program (p : Prototype) : Program Int := p.seen id

mutual

theorem seen_strip (f : Int → ν) : (p : Prototype) → p.strip.seen f = p.seen f
  | { nested, .. } => by
    simp only [strip, seen, seenAll_stripAll f nested, Array.toList_map, List.map_map]
    rfl

theorem seenAll_stripAll (f : Int → ν) : (ps : List Prototype) →
    seenAll f (stripAll ps) = seenAll f ps
  | [] => rfl
  | p :: rest => by simp only [stripAll, seenAll, seen_strip f p, seenAll_stripAll f rest]

end

end Prototype

namespace Serial

/-- What is written of `a` and of `b` can be split off the front of equal bytes, and then they have
the same key. -/
def Splits {α κ : Type} (write : α → Bytes) (key : α → κ) (a b : α) : Prop :=
  ∀ s t : Bytes, write a ++ s = write b ++ t → key a = key b ∧ s = t

variable {α κ : Type} {write : α → Bytes} {key : α → κ} {a b : α}

theorem splits_of_length (hl : (write a).length = (write b).length)
    (hi : write a = write b → key a = key b) :
    Splits write key a b := fun _ _ he => (List.append_inj he hl).imp_left hi

@[simp] theorem length_word32 (w : UInt32) : (word32 w).length = 4 := rfl

@[simp] theorem length_word64 (w : UInt64) : (word64 w).length = 8 := rfl

theorem word32_injective {v w : UInt32} (h : word32 v = word32 w) : v = w := by
  simp only [word32, List.cons.injEq, and_true] at h
  obtain ⟨h₁, h₂, h₃, h₄⟩ := h
  have hv := v.toNat_lt
  have hw := w.toNat_lt
  have b₁ := congrArg UInt8.toNat h₁
  have b₂ := congrArg UInt8.toNat h₂
  have b₃ := congrArg UInt8.toNat h₃
  have b₄ := congrArg UInt8.toNat h₄
  simp [Nat.shiftRight_eq_div_pow] at b₁ b₂ b₃ b₄
  apply UInt32.toNat.inj
  omega

theorem word64_injective {v w : UInt64} (h : word64 v = word64 w) : v = w := by
  obtain ⟨h₁, h₂⟩ := List.append_inj h (by simp only [length_word32])
  have b₁ := congrArg UInt32.toNat (word32_injective h₁)
  have b₂ := congrArg UInt32.toNat (word32_injective h₂)
  have hv := v.toNat_lt
  have hw := w.toNat_lt
  simp [Nat.shiftRight_eq_div_pow] at b₁ b₂
  apply UInt64.toNat.inj
  omega

/-- More than the length of any list or text that a serialization can tell. -/
def maxCount : Nat := 0x100000000

theorem count_injective {m n : Nat} (hm : m < maxCount) (hn : n < maxCount)
    (h : count m = count n) : m = n := by
  have h := congrArg UInt32.toNat (word32_injective h)
  unfold maxCount at hm hn
  simp at h
  omega

theorem splits_count {m n : Nat} (hm : m < maxCount) (hn : n < maxCount) : Splits count id m n :=
  splits_of_length (by simp only [count, length_word32]) (count_injective hm hn)

theorem splits_instruction (i j : Instruction) :
    Splits (fun i : Instruction => word32 i.word) id i j :=
  splits_of_length (by simp only [length_word32]) fun h =>
    congrArg Instruction.mk (word32_injective h)

theorem splits_items {xs ys : List α} (h : ∀ a ∈ xs, ∀ b ∈ ys, Splits write key a b)
    (hl : xs.length = ys.length) :
    Splits (List.flatMap write) (List.map key) xs ys := by
  induction xs generalizing ys with
  | nil =>
    cases ys with
    | nil => exact fun s t he => ⟨rfl, he⟩
    | cons => cases hl
  | cons a xs ih =>
    cases ys with
    | nil => cases hl
    | cons b ys =>
      intro s t he
      simp only [List.flatMap_cons, List.append_assoc] at he
      obtain ⟨hk, he⟩ := h a (List.mem_cons_self ..) b (List.mem_cons_self ..) _ _ he
      obtain ⟨hks, he⟩ := ih (fun a ha b hb =>
        h a (List.mem_cons_of_mem _ ha) b (List.mem_cons_of_mem _ hb))
        (Nat.succ.inj hl) s t he
      exact ⟨by rw [List.map_cons, List.map_cons, hk, hks], he⟩

theorem splits_listOf {xs ys : List α} (tag : UInt8) (h : ∀ a ∈ xs, ∀ b ∈ ys, Splits write key a b)
    (hx : xs.length < maxCount) (hy : ys.length < maxCount) :
    Splits (listOf tag write) (List.map key) xs ys := by
  intro s t he
  simp only [listOf, List.cons_append, List.append_assoc, List.cons.injEq, true_and] at he
  obtain ⟨hl, he⟩ := splits_count hx hy _ _ he
  exact splits_items h hl s t he

def WritableValue : Value → Prop
  | .str s => s.length < maxCount
  | .unknown _ => False
  | _ => True

theorem splits_text {s t : Bytes} (hs : s.length < maxCount) (ht : t.length < maxCount) :
    Splits (fun s : Bytes => count s.length ++ s) id s t := by
  intro u v he
  simp only [List.append_assoc] at he
  obtain ⟨hl, he⟩ := splits_count hs ht _ _ he
  exact List.append_inj he hl

theorem value_kind {v w : Value} (hv : WritableValue v) (hw : WritableValue w) {s t : Bytes}
    (he : value v ++ s = value w ++ t) : v.tag = w.tag := by
  have h := congrArg List.head? he
  rcases v with _ | (_ | _) | (_ | _) | _ | _ <;> rcases w with _ | (_ | _) | (_ | _) | _ | _ <;>
    first | rfl | exact hv.elim | exact hw.elim | exact absurd (Option.some.inj h) (by decide)

theorem splits_value {v w : Value} (hv : WritableValue v) (hw : WritableValue w) :
    Splits value id v w := by
  intro s t he
  have hk := value_kind hv hw he
  rcases v with _ | (_ | _) | (m | x) | u | _ <;> rcases w with _ | (_ | _) | (n | y) | u' | _ <;>
    first | exact hv.elim | exact hw.elim | (simp [Value.tag] at hk; done) | skip
  case nil.nil | bool.false.bool.false | bool.true.bool.true =>
    exact ⟨rfl, List.tail_eq_of_cons_eq he⟩
  case num.int.num.int =>
    obtain ⟨h, hs⟩ := List.append_inj (List.tail_eq_of_cons_eq he) (by simp only [length_word64])
    have h : m = n := congrArg Int64.ofUInt64 (word64_injective h)
    exact ⟨by rw [h], hs⟩
  case num.float.num.float =>
    obtain ⟨h, hs⟩ := List.append_inj (List.tail_eq_of_cons_eq he) (by simp only [length_word64])
    have h : x = y := congrArg Double.mk (word64_injective h)
    exact ⟨by rw [h], hs⟩
  case str.str =>
    obtain ⟨h, hs⟩ := splits_text hv hw s t (List.tail_eq_of_cons_eq he)
    exact ⟨congrArg Value.str h, hs⟩

theorem splits_upvalue (u v : Upvalue) :
    Splits upvalue (Upvalue.seen lowByte) u v := by
  refine splits_of_length rfl fun h => ?_
  obtain ⟨_, s, i, k⟩ := u
  obtain ⟨_, s', i', k'⟩ := v
  simp only [upvalue, List.cons.injEq, and_true] at h
  obtain ⟨hs, hi, hk⟩ := h
  have : s = s' := by cases s <;> cases s' <;> first | rfl | simp at hs
  rw [Upvalue.seen, Upvalue.seen, this, hi, hk]

/-- A function, those nested in it left aside, that has constants of the defined kinds, and no list
or text that is too long for the format. -/
structure WritableNode (p : Prototype) : Prop where
  code : p.code.size < maxCount
  constants : p.constants.size < maxCount
  values : ∀ v ∈ p.constants, WritableValue v
  upvalues : p.upvalues.size < maxCount
  nested : p.nested.length < maxCount

end Serial

namespace Prototype

/-- The format can tell the lists and the constants of all functions in the tree. -/
def Writable (p : Prototype) : Prop := ∀ q ∈ p.walk, Serial.WritableNode q

variable {p : Prototype}

theorem Writable.node (h : p.Writable) : Serial.WritableNode p := h p (mem_walk.2 (.inl rfl))

theorem Writable.ofNested (h : p.Writable) : ∀ q ∈ p.nested, q.Writable :=
  fun q hq r hr => h r (mem_walk.2 (.inr ⟨q, hq, hr⟩))

end Prototype

namespace Serial

mutual

theorem splits_prototype : (p q : Prototype) → p.Writable → q.Writable →
    Splits prototype (Prototype.seen lowByte) p q
  | ⟨source, line, last, params, flag, stack, code, ks, nested, ups, info, abs, locals⟩,
    ⟨source', line', last', params', flag', stack', code', ks', nested', ups', info', abs',
      locals'⟩,
    hp, hq => by
    intro s t he
    simp only [prototype, List.append_assoc, List.cons_append, List.nil_append, List.cons.injEq,
      true_and] at he
    obtain ⟨hparams, hflag, hstack, he⟩ := he
    have np := hp.node
    have nq := hq.node
    obtain ⟨hcode, he⟩ := splits_listOf tagCode (fun i _ j _ => splits_instruction i j) np.code
      nq.code _ _ he
    obtain ⟨hks, he⟩ := splits_listOf tagConstants (fun v hv w hw =>
      splits_value (np.values v (Array.mem_toList_iff.1 hv))
        (nq.values w (Array.mem_toList_iff.1 hw)))
      np.constants nq.constants _ _ he
    obtain ⟨hups, he⟩ := splits_listOf tagUpvalues (fun u _ v _ => splits_upvalue u v) np.upvalues
      nq.upvalues _ _ he
    obtain ⟨hl, he⟩ := splits_count np.nested nq.nested _ _ (List.tail_eq_of_cons_eq he)
    obtain ⟨hnested, he⟩ := splits_prototypes nested nested' hp.ofNested hq.ofNested hl _ _ he
    rw [List.map_id, List.map_id] at hcode hks
    refine ⟨?_, he⟩
    simp only [Prototype.seen, Program.mk.injEq]
    exact ⟨hparams, hflag, hstack, hcode, hks, hups, hnested⟩

theorem splits_prototypes : (ps qs : List Prototype) → (∀ p ∈ ps, p.Writable) →
    (∀ q ∈ qs, q.Writable) →
    ps.length = qs.length → Splits prototypes (Prototype.seenAll lowByte) ps qs
  | [], [], _, _, _ => fun _ _ he => ⟨rfl, he⟩
  | p :: ps, q :: qs, hp, hq, hl => by
    intro s t he
    simp only [prototypes, List.append_assoc] at he
    obtain ⟨hk, he⟩ := splits_prototype p q (hp p (List.mem_cons_self ..))
      (hq q (List.mem_cons_self ..)) _ _ he
    obtain ⟨hks, he⟩ := splits_prototypes ps qs (fun p h => hp p (List.mem_cons_of_mem _ h))
      (fun q h => hq q (List.mem_cons_of_mem _ h)) (Nat.succ.inj hl) s t he
    exact ⟨by rw [Prototype.seenAll, Prototype.seenAll, hk, hks], he⟩

end

theorem upvalues_congr {us vs : List Upvalue}
    (h : us.map (Upvalue.seen lowByte) = vs.map (Upvalue.seen lowByte)) :
    listOf tagUpvalues upvalue us = listOf tagUpvalues upvalue vs := by
  have hl : us.length = vs.length := by simpa using congrArg List.length h
  have hw : us.flatMap upvalue = vs.flatMap upvalue := by
    have := congrArg (List.flatMap fun c : Capture UInt8 =>
      [if c.inStack then 1 else 0, c.index, c.kind]) h
    rwa [List.flatMap_map, List.flatMap_map] at this
  rw [listOf, listOf, hl, hw]

mutual

/-- The bytes of a function depend on its program only, of whose numbers the low bytes count. -/
theorem prototype_congr : (p q : Prototype) → p.seen lowByte = q.seen lowByte →
    prototype p = prototype q
  | ⟨source, line, last, params, flag, stack, code, ks, nested, ups, info, abs, locals⟩,
    ⟨source', line', last', params', flag', stack', code', ks', nested', ups', info', abs',
      locals'⟩, h => by
    simp only [Prototype.seen, Program.mk.injEq] at h
    obtain ⟨hparams, hflag, hstack, hcode, hks, hups, hnested⟩ := h
    have hw := prototypes_congr nested nested' hnested
    have hl : nested.length = nested'.length := by
      simpa only [Prototype.length_seenAll] using congrArg List.length hnested
    simp only [prototype, hparams, hflag, hstack, hcode, hks, upvalues_congr hups, hw, hl]

theorem prototypes_congr : (ps qs : List Prototype) →
    Prototype.seenAll lowByte ps = Prototype.seenAll lowByte qs → prototypes ps = prototypes qs
  | [], [], _ => rfl
  | p :: ps, q :: qs, h => by
    simp only [Prototype.seenAll, List.cons.injEq] at h
    rw [prototypes, prototypes, prototype_congr p q h.1, prototypes_congr ps qs h.2]
  | [], _ :: _, h => nomatch h
  | _ :: _, [], h => nomatch h

end

end Serial

namespace Prototype

variable {p q : Prototype}

/-- Writable functions have the same bytes if and only if their programs are the same to the low
bytes of their numbers. -/
theorem serialize_eq_iff_seen (hp : p.Writable) (hq : q.Writable) :
    p.serialize = q.serialize ↔ p.seen Serial.lowByte = q.seen Serial.lowByte := by
  refine ⟨fun h => ?_, fun h => congrArg (Serial.version :: ·) (Serial.prototype_congr p q h)⟩
  exact (Serial.splits_prototype p q hp hq [] [] (by simpa [serialize] using h)).1

theorem serialize_strip (p : Prototype) : p.strip.serialize = p.serialize :=
  congrArg (Serial.version :: ·) (Serial.prototype_congr _ _ (seen_strip Serial.lowByte p))

end Prototype

namespace Serial

def IsByte (n : Int) : Prop := 0 ≤ n ∧ n < 256

theorem lowByte_injective {m n : Int} (hm : IsByte m) (hn : IsByte n) (h : lowByte m = lowByte n) :
    m = n := by
  have h := congrArg UInt8.toNat h
  simp only [lowByte, UInt8.ofInt, UInt8.toNat_ofNat'] at h
  unfold IsByte at hm hn
  omega

/-- A function, those nested in it left aside, whose small numbers are bytes. -/
structure NarrowNode (p : Prototype) : Prop where
  numParams : IsByte p.numParams
  maxStackSize : IsByte p.maxStackSize
  upvalues : ∀ u ∈ p.upvalues, IsByte u.index

end Serial

namespace Prototype

def Narrow (p : Prototype) : Prop := ∀ q ∈ p.walk, Serial.NarrowNode q

variable {ν : Type} {p q : Prototype}

theorem Narrow.node (h : p.Narrow) : Serial.NarrowNode p := h p (mem_walk.2 (.inl rfl))

theorem Narrow.ofNested (h : p.Narrow) : ∀ q ∈ p.nested, q.Narrow :=
  fun q hq r hr => h r (mem_walk.2 (.inr ⟨q, hq, hr⟩))

theorem captures_of_seen {us vs : List Upvalue} (hu : ∀ u ∈ us, Serial.IsByte u.index)
    (hv : ∀ v ∈ vs, Serial.IsByte v.index)
    (h : us.map (·.seen Serial.lowByte) = vs.map (·.seen Serial.lowByte)) :
    us.map (Upvalue.seen id) = vs.map (Upvalue.seen id) := by
  induction us generalizing vs with
  | nil =>
    cases vs with
    | nil => rfl
    | cons => cases h
  | cons u us ih =>
    cases vs with
    | nil => cases h
    | cons v vs =>
      simp only [List.map_cons, List.cons.injEq, Upvalue.seen, Capture.mk.injEq] at h
      obtain ⟨⟨hs, hi, hk⟩, hrest⟩ := h
      have hi := Serial.lowByte_injective (hu u (List.mem_cons_self ..))
        (hv v (List.mem_cons_self ..)) hi
      rw [List.map_cons, List.map_cons, ih (fun u h => hu u (List.mem_cons_of_mem _ h))
        (fun v h => hv v (List.mem_cons_of_mem _ h)) hrest]
      simp only [Upvalue.seen, hs, hi, hk]

mutual

/-- Functions whose numbers are bytes have the same program if the low bytes show no difference. -/
theorem program_of_seen : (p q : Prototype) → p.Narrow → q.Narrow →
    p.seen Serial.lowByte = q.seen Serial.lowByte → p.program = q.program
  | ⟨source, line, last, params, flag, stack, code, ks, nested, ups, info, abs, locals⟩,
    ⟨source', line', last', params', flag', stack', code', ks', nested', ups', info', abs',
      locals'⟩,
    hp, hq, h => by
    simp only [seen, Program.mk.injEq] at h
    obtain ⟨hparams, hflag, hstack, hcode, hks, hups, hnested⟩ := h
    simp only [program, seen, Program.mk.injEq]
    refine ⟨Serial.lowByte_injective hp.node.numParams hq.node.numParams hparams, hflag,
      Serial.lowByte_injective hp.node.maxStackSize hq.node.maxStackSize hstack, hcode, hks, ?_,
      programs_of_seen nested nested' hp.ofNested hq.ofNested hnested⟩
    exact captures_of_seen (fun u h => hp.node.upvalues u (Array.mem_toList_iff.1 h))
      (fun u h => hq.node.upvalues u (Array.mem_toList_iff.1 h)) hups

theorem programs_of_seen : (ps qs : List Prototype) → (∀ p ∈ ps, p.Narrow) → (∀ q ∈ qs, q.Narrow) →
    seenAll Serial.lowByte ps = seenAll Serial.lowByte qs → seenAll id ps = seenAll id qs
  | [], [], _, _, _ => rfl
  | p :: ps, q :: qs, hp, hq, h => by
    simp only [seenAll, List.cons.injEq] at h
    have hk := program_of_seen p q (hp p (List.mem_cons_self ..)) (hq q (List.mem_cons_self ..)) h.1
    have hks := programs_of_seen ps qs (fun p h => hp p (List.mem_cons_of_mem _ h))
      (fun q h => hq q (List.mem_cons_of_mem _ h)) h.2
    rw [seenAll, seenAll, hks]
    exact congrArg (· :: seenAll id qs) hk
  | [], _ :: _, _, _, h => nomatch h
  | _ :: _, [], _, _, h => nomatch h

end

theorem captures_of_program (f : Int → ν) {us vs : List Upvalue}
    (h : us.map (Upvalue.seen id) = vs.map (Upvalue.seen id)) : us.map (Upvalue.seen f) =
    vs.map (Upvalue.seen f) := by
  have := congrArg (List.map fun c : Capture Int => (⟨c.inStack, f c.index, c.kind⟩ : Capture ν)) h
  rwa [List.map_map, List.map_map] at this

mutual

theorem seen_of_program (f : Int → ν) : (p q : Prototype) → p.program = q.program →
    p.seen f = q.seen f
  | ⟨source, line, last, params, flag, stack, code, ks, nested, ups, info, abs, locals⟩,
    ⟨source', line', last', params', flag', stack', code', ks', nested', ups', info', abs',
      locals'⟩, h => by
    simp only [program, seen, Program.mk.injEq] at h
    obtain ⟨hparams, hflag, hstack, hcode, hks, hups, hnested⟩ := h
    simp only [seen, Program.mk.injEq]
    exact ⟨congrArg f hparams, hflag, congrArg f hstack, hcode, hks, captures_of_program f hups,
      seenAll_of_programs f nested nested' hnested⟩

theorem seenAll_of_programs (f : Int → ν) : (ps qs : List Prototype) →
    seenAll id ps = seenAll id qs →
    seenAll f ps = seenAll f qs
  | [], [], _ => rfl
  | p :: ps, q :: qs, h => by
    simp only [seenAll, List.cons.injEq] at h
    rw [seenAll, seenAll, seen_of_program f p q h.1, seenAll_of_programs f ps qs h.2]
  | [], _ :: _, h => nomatch h
  | _ :: _, [], h => nomatch h

end

/-- Functions that fit the format have the same bytes if and only if they have the same program, and
stripping a function does not change its bytes. -/
theorem serialize_eq_iff_program_eq :
    (∀ p q : Prototype, p.Writable → p.Narrow → q.Writable → q.Narrow →
      (p.serialize = q.serialize ↔ p.program = q.program)) ∧
    ∀ p : Prototype, p.strip.serialize = p.serialize := by
  refine ⟨fun p q hp hp' hq hq' => ?_, serialize_strip⟩
  rw [serialize_eq_iff_seen hp hq]
  exact ⟨program_of_seen p q hp' hq', seen_of_program Serial.lowByte p q⟩

/-- A function with another one nested in it that captures its local variable. Its constants are a
NaN and a text. -/
def sample (name : Bytes) (payload : UInt64) : Prototype where
  maxStackSize := 2
  code := #[⟨0⟩]
  constants := #[.num (.float ⟨0x7FF8000000000000 + payload⟩), .str [97]]
  nested := [{ numParams := 1, upvalues := #[⟨some name, true, 0, 0⟩] }]

theorem sample_writable (name : Bytes) (payload : UInt64) : (sample name payload).Writable := by
  intro q hq
  simp only [sample, walk, walkAll, List.append_nil, List.mem_cons, List.not_mem_nil, or_false]
    at hq
  rcases hq with rfl | rfl <;> constructor <;> simp [Serial.WritableValue, Serial.maxCount]

theorem sample_narrow (name : Bytes) (payload : UInt64) : (sample name payload).Narrow := by
  intro q hq
  simp only [sample, walk, walkAll, List.append_nil, List.mem_cons, List.not_mem_nil, or_false]
    at hq
  rcases hq with rfl | rfl <;> constructor <;> simp [Serial.IsByte]

/-- The name of an upvalue makes no difference, the payload of a NaN does. -/
theorem sample_serialize :
    (sample [120] 0).serialize = (sample [121] 0).serialize ∧ sample [120] 0 ≠ sample [121] 0 ∧
      (sample [120] 0).serialize ≠ (sample [120] 1).serialize := by
  have hsame := serialize_eq_iff_program_eq.1 _ _ (sample_writable [120] 0) (sample_narrow [120] 0)
    (sample_writable [121] 0) (sample_narrow [121] 0)
  have hdiffer := serialize_eq_iff_program_eq.1 _ _ (sample_writable [120] 0)
    (sample_narrow [120] 0)
    (sample_writable [120] 1) (sample_narrow [120] 1)
  refine ⟨hsame.2 rfl, by simp [sample], fun h => ?_⟩
  have hprogram := hdiffer.1 h
  simp [sample, program, seen] at hprogram

end Prototype

end LuaChunk
