import LuaChunk.Proofs.Number.Exact
import LuaChunk.Wire.Cbor

set_option autoImplicit false

namespace LuaChunk.Cbor

theorem number_bigEndian {n x : Nat} (h : x < 256 ^ n) (k acc : Nat) (s : Bytes) :
    number? (n + k) acc (bigEndian n x ++ s) = number? k (acc * 256 ^ n + x) s := by
  induction n generalizing x k s with
  | zero =>
    obtain rfl : x = 0 := by simpa using h
    rw [Nat.zero_add, Nat.pow_zero, Nat.mul_one, Nat.add_zero]
    rfl
  | succ n ih =>
    have hdiv : x / 256 < 256 ^ n := Nat.div_lt_of_lt_mul (by rwa [Nat.pow_succ, Nat.mul_comm] at h)
    have hbyte : (x % 256).toUInt8.toNat = x % 256 :=
      UInt8.toNat_ofNat_of_lt' (Nat.mod_lt _ (by decide))
    rw [bigEndian, List.append_assoc, List.singleton_append, Nat.add_right_comm, Nat.add_assoc,
      ih hdiv, number?, hbyte,
      Nat.pow_succ, ← Nat.mul_assoc]
    congr 1
    generalize acc * 256 ^ n = a
    omega

theorem toNat_first {major info : Nat} (hmajor : major < 8) (hinfo : info < 32) :
    (32 * major + info).toUInt8.toNat = 32 * major + info :=
  UInt8.toNat_ofNat_of_lt' (show 32 * major + info < 256 by omega)

theorem head_short {major n : Nat} (hmajor : major < 8) (h : n < 24) (s : Bytes) :
    head? ((32 * major + n).toUInt8 :: s) = some (⟨major, n, n⟩, s) := by
  unfold head?
  dsimp only
  rw [toNat_first hmajor (by omega),
    show (32 * major + n) / 32 = major by omega, show (32 * major + n) % 32 = n by omega]
  exact if_pos h

theorem head_long {major info width x : Nat} (hmajor : major < 8)
    (hwidth : (info, width) ∈ [(24, 1), (25, 2), (26, 4), (27, 8)]) (hx : x < 256 ^ width)
    (hsimple : info = 24 → major < 7)
    (s : Bytes) : head? ((32 * major + info).toUInt8 :: (bigEndian width x ++ s)) =
    some (⟨major, info, x⟩, s) := by
  have hnumber : number? width 0 (bigEndian width x ++ s) = some (x, s) := by
    have hread := number_bigEndian hx 0 0 s
    rwa [Nat.zero_mul, Nat.zero_add] at hread
  have hinfo : info < 32 ∧ ¬ info < 24 := by
    simp only [List.mem_cons, Prod.mk.injEq, List.not_mem_nil, or_false] at hwidth
    omega
  unfold head?
  dsimp only
  rw [toNat_first hmajor hinfo.1,
    show (32 * major + info) / 32 = major by omega, show (32 * major + info) % 32 = info by omega,
    if_neg hinfo.2]
  simp only [List.mem_cons, Prod.mk.injEq, List.not_mem_nil, or_false] at hwidth
  rcases hwidth with ⟨rfl, rfl⟩ | ⟨rfl, rfl⟩ | ⟨rfl, rfl⟩ | ⟨rfl, rfl⟩
  · have hless := hsimple rfl
    simp only [hnumber, Option.map_some]
    rw [if_neg (by simp; omega)]
  all_goals simp only [hnumber, Option.map_some]

theorem length_head_pos (major n : Nat) : 0 < (head major n).length := by
  unfold head
  dsimp only
  repeat' split
  all_goals exact Nat.succ_pos _

theorem head_head {major n : Nat} (hmajor : major < 7) (hn : n < 2 ^ 64) (s : Bytes) :
    ∃ info ≠ 31, head? (head major n ++ s) = some (⟨major, info, n⟩, s) := by
  have hlt : major < 8 := by omega
  unfold head
  dsimp only
  split
  · exact ⟨n, by omega, head_short hlt ‹_› s⟩
  · split
    · exact ⟨24, by decide, head_long hlt (by decide) (by omega) (fun _ => hmajor) s⟩
    · split
      · exact ⟨25, by decide, head_long hlt (by decide) (by omega) (fun _ => hmajor) s⟩
      · split
        · exact ⟨26, by decide, head_long hlt (by decide) (by omega) (fun _ => hmajor) s⟩
        · exact ⟨27, by decide, head_long hlt (by decide) (by omega) (fun _ => hmajor) s⟩

theorem take_append {n : Nat} (c s : Bytes) (h : c.length = n) :
    take? n (c ++ s) = some (c, s) := by
  subst h
  unfold take?
  rw [List.take_left, List.drop_left]
  exact if_pos rfl

theorem decode_infinite (negative : Bool) :
    Narrow.decode Narrow.half (if negative then 0xFC00 else 0x7C00) =
      Binary64.infinity negative := by
  cases negative <;> rfl

theorem float_spec {x : Double} (hx : Binary64.read x ≠ .nan) : ∃ info width bits,
    (info, width) ∈ [(24, 1), (25, 2), (26, 4), (27, 8)] ∧ info ≠ 24 ∧ bits < 256 ^ width ∧
    float x = (32 * 7 + info).toUInt8 :: bigEndian width bits ∧
      primitive ⟨7, info, bits⟩ = .float x := by
  have hbits := Double.of_value_of_read hx
  unfold float
  split
  · exact absurd ‹_› hx
  · rename_i negative hread
    refine ⟨25, 2, _, by decide, by decide, ?_, rfl, ?_⟩
    · cases negative <;> decide
    · rw [← hbits, ← Binary64.read_infinite hread]
      exact congrArg Item.float (decode_infinite negative)
  · split
    · rename_i bits hhalf
      obtain ⟨hdecode, hlt⟩ := Narrow.decode_encode (by decide) hhalf
      exact ⟨25, 2, bits, by decide, by decide, hlt, rfl, congrArg Item.float (hdecode.trans hbits)⟩
    · rename_i bits hhalf hsingle
      obtain ⟨hdecode, hlt⟩ := Narrow.decode_encode (by decide) hsingle
      exact ⟨26, 4, bits, by decide, by decide, hlt, rfl, congrArg Item.float (hdecode.trans hbits)⟩
    · refine ⟨27, 8, x.value.toBits.toNat, by decide, by decide, x.value.toBits.toNat_lt, rfl, ?_⟩
      have hword : x.value.toBits.toNat.toUInt64 = x.value.toBits := UInt64.ofNat_toNat
      exact congrArg Item.float ((congrArg Double.mk hword).trans hbits)

mutual

/-- Whether an item at a depth keeps to the limits of the reader. -/
def Item.within : (depth : Nat) → Item → Bool
  | depth, .array items =>
    depth < maxNesting && items.length ≤ maxItems && allWithin (depth + 1) items
  | depth, .map pairs =>
    depth < maxNesting && pairs.length ≤ maxItems && pairsWithin (depth + 1) pairs
  | depth, .tag _ content => depth < maxNesting && content.within (depth + 1)
  | _, _ => true

def allWithin : (depth : Nat) → List Item → Bool
  | _, [] => true
  | depth, i :: rest => i.within depth && allWithin depth rest

def pairsWithin : (depth : Nat) → List (Item × Item) → Bool
  | _, [] => true
  | depth, (k, v) :: rest => k.within depth && v.within depth && pairsWithin depth rest

end

/-- Items of the kinds that compiled functions are made of. -/
inductive Item.Plain : Item → Prop
  | uint {n : Nat} (h : n < 2 ^ 64) : Plain (.uint n)
  | nint {n : Nat} (h : n < 2 ^ 64) : Plain (.nint n)
  | text {s : Bytes} (h : s.length < 2 ^ 64) : Plain (.ofText s)
  | bool (b : Bool) : Plain (.bool b)
  | float {x : Double} (h : Binary64.read x ≠ .nan) : Plain (.float x)
  | array {items : List Item} (h : ∀ i ∈ items, Plain i) : Plain (.array items)
  | map {pairs : List (Item × Item)} (hkeys : ∀ x ∈ pairs, Plain x.1)
    (hvalues : ∀ x ∈ pairs, Plain x.2) : Plain (.map pairs)

/-- An item is found at the front of what follows it, with fuel for twice its length. -/
structure Item.Framed (i : Item) : Prop where
  pos : 0 < i.write.length
  read {depth fuel : Nat} (s : Bytes) (hwithin : i.within depth = true)
    (hfuel : 2 * i.write.length ≤ fuel + 1) :
    readAt fuel depth (i.write ++ s) = some (i, s)

variable {i : Item} {items : List Item} {pairs : List (Item × Item)} {depth fuel : Nat}

theorem allWithin_iff : allWithin depth items = true ↔ ∀ i ∈ items, i.within depth = true := by
  induction items with
  | nil => simp [allWithin]
  | cons i items ih => simp [allWithin, ih]

theorem readMany_writeAll (h : ∀ i ∈ items, i.Framed) {acc : List Item} {s : Bytes}
    (hwithin : ∀ i ∈ items, i.within depth = true) (hfuel : 2 * (writeAll items).length ≤ fuel) :
    readMany fuel depth items.length acc (writeAll items ++ s) =
      some (acc.reverse ++ items, s) := by
  induction items generalizing fuel acc with
  | nil => rw [List.length_nil, readMany, writeAll, List.append_nil, List.nil_append]
  | cons i items ih =>
    have hi := h i (List.mem_cons_self ..)
    have hpos := hi.pos
    rw [writeAll, List.length_append] at hfuel
    cases fuel with
    | zero => omega
    | succ fuel =>
      rw [writeAll, List.append_assoc, List.length_cons, readMany,
        hi.read _ (hwithin i (List.mem_cons_self ..)) (by omega)]
      dsimp only
      rw [ih (fun j hj => h j (List.mem_cons_of_mem _ hj))
        (fun j hj => hwithin j (List.mem_cons_of_mem _ hj)) (by omega),
        List.reverse_cons, List.append_assoc, List.singleton_append]

def flat (pairs : List (Item × Item)) : List Item := pairs.flatMap fun x => [x.1, x.2]

theorem writePairs_eq (pairs : List (Item × Item)) : writePairs pairs = writeAll (flat pairs) := by
  induction pairs with
  | nil => rfl
  | cons x pairs ih =>
    obtain ⟨k, v⟩ := x
    rw [writePairs, ih, List.append_assoc]
    rfl

theorem length_flat (pairs : List (Item × Item)) : (flat pairs).length = 2 * pairs.length := by
  induction pairs with
  | nil => rfl
  | cons x pairs ih =>
    rw [flat, List.flatMap_cons, ← flat, List.length_append, ih, List.length_cons]
    simp only [List.length_cons, List.length_nil]
    omega

theorem pairs_flat (pairs : List (Item × Item)) : pairs? (flat pairs) = some pairs := by
  induction pairs with
  | nil => rfl
  | cons x pairs ih =>
    obtain ⟨k, v⟩ := x
    show (pairs? (flat pairs)).map _ = _
    rw [ih]
    rfl

theorem pairsWithin_iff : pairsWithin depth pairs = true ↔ ∀ i ∈ flat pairs,
    i.within depth = true := by
  induction pairs with
  | nil => simp [pairsWithin, flat]
  | cons x pairs ih =>
    obtain ⟨k, v⟩ := x
    rw [pairsWithin, Bool.and_eq_true, Bool.and_eq_true, ih]
    show _ ↔ ∀ i ∈ k :: v :: flat pairs, _
    simp only [List.forall_mem_cons, and_assoc]

theorem Item.Framed.of_succ (hpos : 0 < i.write.length)
    (hread : ∀ (depth fuel : Nat) (s : Bytes), i.within depth = true →
    2 * i.write.length ≤ fuel + 2 → readAt (fuel + 1) depth (i.write ++ s) = some (i, s)) :
      i.Framed where
  pos := hpos
  read {depth fuel} s hwithin hfuel := by
    cases fuel with
    | zero => omega
    | succ fuel => exact hread depth fuel s hwithin hfuel

theorem readAt_array {info n : Nat} {s rest rest' : Bytes}
    (hhead : head? s = some (⟨4, info, n⟩, rest)) (hinfo : info ≠ 31)
    (hdepth : depth < maxNesting) (hn : n ≤ maxItems)
    (hread : readMany fuel (depth + 1) n [] rest = some (items, rest'))
    (hlength : items.length ≤ maxItems) : readAt (fuel + 1) depth s =
    some (.array items, rest') := by
  have hitems : (if decide (info = 31) = true then readUntilBreak fuel (depth + 1) [] rest
      else if maxItems < n then none else readMany fuel (depth + 1) n [] rest) =
        some (items, rest') := by
    rw [decide_eq_false hinfo, if_neg Bool.false_ne_true, if_neg (Nat.not_lt.2 hn), hread]
  rw [readAt, hhead]
  refine (if_neg (show ¬ maxNesting < depth + 1 by omega)).trans ?_
  rw [hitems]
  exact if_neg (Nat.not_lt.2 hlength)

theorem readAt_map {info n : Nat} {s rest rest' : Bytes}
    (hhead : head? s = some (⟨5, info, n⟩, rest)) (hinfo : info ≠ 31)
    (hdepth : depth < maxNesting) (hn : n ≤ maxItems)
    (hread : readMany fuel (depth + 1) (2 * n) [] rest = some (items, rest'))
    (hlength : items.length ≤ 2 * maxItems) (hpairs : pairs? items = some pairs) :
    readAt (fuel + 1) depth s = some (.map pairs, rest') := by
  have hitems : (if decide (info = 31) = true then readUntilBreak fuel (depth + 1) [] rest
      else if maxItems < n then none else readMany fuel (depth + 1) (2 * n) [] rest) =
        some (items, rest') := by
    rw [decide_eq_false hinfo, if_neg Bool.false_ne_true, if_neg (Nat.not_lt.2 hn), hread]
  rw [readAt, hhead]
  refine (if_neg (show ¬ maxNesting < depth + 1 by omega)).trans ?_
  rw [hitems]
  refine (if_neg (Nat.not_lt.2 hlength)).trans ?_
  rw [hpairs]
  rfl

theorem framed_array (hsize : items.length < 2 ^ 64) (h : ∀ i ∈ items, i.Framed) :
    (Item.array items).Framed := by
  have hpos := length_head_pos 4 items.length
  refine .of_succ (by rw [Item.write, List.length_append]; omega) fun depth fuel s hwithin hfuel =>
    ?_
  obtain ⟨info, hinfo, hhead⟩ := head_head (show 4 < 7 by decide) hsize (writeAll items ++ s)
  rw [Item.within, Bool.and_eq_true, Bool.and_eq_true, decide_eq_true_eq, decide_eq_true_eq,
    allWithin_iff] at hwithin
  obtain ⟨⟨hdepth, hlength⟩, hwithin⟩ := hwithin
  rw [Item.write, List.length_append] at hfuel
  rw [Item.write, List.append_assoc]
  exact readAt_array hhead hinfo hdepth hlength (readMany_writeAll h hwithin (by omega)) hlength

theorem framed_map (hsize : pairs.length < 2 ^ 64) (h : ∀ i ∈ flat pairs, i.Framed) :
    (Item.map pairs).Framed := by
  have hpos := length_head_pos 5 pairs.length
  refine .of_succ (by rw [Item.write, List.length_append]; omega) fun depth fuel s hwithin hfuel =>
    ?_
  obtain ⟨info, hinfo, hhead⟩ := head_head (show 5 < 7 by decide) hsize (writeAll (flat pairs) ++ s)
  rw [Item.within, Bool.and_eq_true, Bool.and_eq_true, decide_eq_true_eq, decide_eq_true_eq,
    pairsWithin_iff] at hwithin
  obtain ⟨⟨hdepth, hlength⟩, hwithin⟩ := hwithin
  rw [Item.write, List.length_append, writePairs_eq] at hfuel
  rw [Item.write, List.append_assoc, writePairs_eq]
  have hread : readMany fuel (depth + 1) (flat pairs).length []
      (writeAll (flat pairs) ++ s) = some (flat pairs, s) :=
    readMany_writeAll h hwithin (by omega)
  rw [length_flat] at hread
  exact readAt_map hhead hinfo hdepth hlength hread (by rw [length_flat]; omega) (pairs_flat pairs)

theorem Item.Plain.framed (h : i.Plain) (hwithin : i.within depth = true) : i.Framed := by
  induction h generalizing depth with
  | @uint n h =>
    refine .of_succ (by rw [write]; exact length_head_pos 0 n) fun depth fuel s _ _ => ?_
    obtain ⟨info, -, hhead⟩ := head_head (show 0 < 7 by decide) h s
    rw [write, readAt, hhead]
    rfl
  | @nint n h =>
    refine .of_succ (by rw [write]; exact length_head_pos 1 n) fun depth fuel s _ _ => ?_
    obtain ⟨info, -, hhead⟩ := head_head (show 1 < 7 by decide) h s
    rw [write, readAt, hhead]
    rfl
  | @text c h =>
    have hpos := length_head_pos 3 c.length
    have hwrite : (ofText c).write = head 3 c.length ++ c := by
      rw [ofText, write, List.flatten_singleton]
    refine .of_succ (by rw [hwrite, List.length_append]; omega) fun depth fuel s _ _ => ?_
    obtain ⟨info, hinfo, hhead⟩ := head_head (show 3 < 7 by decide) h (c ++ s)
    rw [hwrite, List.append_assoc, readAt, hhead]
    dsimp only
    rw [decide_eq_false hinfo, if_neg Bool.false_ne_true, take_append c s rfl]
    rfl
  | bool b =>
    refine .of_succ (by cases b <;> decide) fun depth fuel s _ _ => ?_
    cases b <;> rw [readAt] <;> rfl
  | @float x h =>
    obtain ⟨info, width, bits, hwidth, hinfo, hbits, hfloat, hprimitive⟩ := float_spec h
    refine .of_succ (by rw [write, hfloat]; exact Nat.succ_pos _) fun depth fuel s _ _ => ?_
    rw [write, hfloat, List.cons_append, readAt,
      head_long (by decide) hwidth hbits (fun h => absurd h hinfo)]
    exact congrArg (fun i => some (i, s)) hprimitive
  | @array items h ih =>
    rw [within, Bool.and_eq_true, Bool.and_eq_true, decide_eq_true_eq, decide_eq_true_eq,
      allWithin_iff] at hwithin
    obtain ⟨⟨-, hlength⟩, hwithin⟩ := hwithin
    exact framed_array (Nat.lt_of_le_of_lt hlength (by decide)) fun i hi => ih i hi (hwithin i hi)
  | @map pairs hkeys hvalues ihk ihv =>
    rw [within, Bool.and_eq_true, Bool.and_eq_true, decide_eq_true_eq, decide_eq_true_eq,
      pairsWithin_iff] at hwithin
    obtain ⟨⟨-, hlength⟩, hwithin⟩ := hwithin
    refine framed_map (Nat.lt_of_le_of_lt hlength (by decide)) fun i hi => ?_
    obtain ⟨x, hx, hxi⟩ := List.mem_flatMap.1 hi
    have hhere := hwithin i hi
    rw [List.mem_cons, List.mem_singleton] at hxi
    rcases hxi with rfl | rfl
    · exact ihk x hx hhere
    · exact ihv x hx hhere

theorem decode_write (h : i.Plain) (hwithin : i.within 0 = true) :
    Item.decode i.write = some i := by
  have hread : readAt (2 * i.write.length + 2) 0 (i.write ++ []) = some (i, []) :=
    (h.framed hwithin).read [] hwithin (by omega)
  rw [List.append_nil] at hread
  rw [Item.decode, Item.read, hread]

end LuaChunk.Cbor
