import LuaChunk.Proofs.Wire.Items
import LuaChunk.Proofs.Wire.Safety
import LuaChunk.Wire.Form

set_option autoImplicit false

namespace LuaChunk.Wire

open LuaChunk
open LuaChunk.Cbor (Item)

def numbered (gs : List (Nat × Option Item)) : List (Item × Item) :=
  gs.flatMap fun g => g.2.toList.map fun v => (.uint g.1, v)

theorem numbered_append (gs hs : List (Nat × Option Item)) :
    numbered gs ++ numbered hs = numbered (gs ++ hs) :=
  List.flatMap_append.symm

theorem always_eq (n : Nat) (v : Item) : always n v = numbered [(n, some v)] := rfl

theorem unlessEmpty_eq (b : Bool) (n : Nat) (v : Item) :
    unlessEmpty b n v = numbered [(n, if b then none else some v)] := by
  cases b <;> rfl

theorem isField_number {m n : Nat} (hm : m < 16) (hn : n < 16) :
    (Key.number (Int64.ofNat m)).isField n = decide (m = n) := by
  have hall : ∀ a b : Fin 16, (Key.number (Int64.ofNat a)).isField b = decide (a.val = b.val) := by
    decide
  exact hall ⟨m, hm⟩ ⟨n, hn⟩

def keyed (gs : List (Nat × Option Item)) : Fields :=
  gs.flatMap fun g => g.2.toList.map fun v => (.number (Int64.ofNat g.1), v)

theorem readFields_numbered (gs : List (Nat × Option Item)) :
    readFields (.map (numbered gs)) = some (keyed gs) := by
  show (numbered gs).mapM _ = _
  induction gs with
  | nil => rfl
  | cons g gs ih =>
    obtain ⟨n, o⟩ := g
    cases o with
    | none => exact ih
    | some v =>
      show ((Item.uint n, v) :: numbered gs).mapM _ =
          some ((Key.number (Int64.ofNat n), v) :: keyed gs)
      rw [List.mapM_cons, ih]
      rfl

theorem item_cons (k : Key) (v : Item) (fs : Fields) (n : Nat) :
    Fields.item ((k, v) :: fs) n = if k.isField n then v else fs.item n := by
  unfold Fields.item
  rw [List.find?_cons]
  dsimp only
  cases k.isField n <;> rfl

theorem item_cons_of_ne {g : Nat × Option Item} {gs : List (Nat × Option Item)} {n : Nat}
    (hg : g.1 < 16) (hn : n < 16)
    (hne : g.1 ≠ n) : (keyed (g :: gs)).item n = (keyed gs).item n := by
  obtain ⟨m, o⟩ := g
  cases o with
  | none => rfl
  | some v =>
    have hkey : (Key.number (Int64.ofNat m)).isField n = false := by
      rw [isField_number hg hn, decide_eq_false hne]
    show Fields.item ((Key.number (Int64.ofNat m), v) :: keyed gs) n = _
    rw [item_cons, hkey, if_neg Bool.false_ne_true]

theorem item_of_not_mem {gs : List (Nat × Option Item)} {n : Nat} (hsmall : ∀ g ∈ gs, g.1 < 16)
    (hn : n < 16)
    (hne : ∀ g ∈ gs, g.1 ≠ n) : (keyed gs).item n = .null := by
  induction gs with
  | nil => rfl
  | cons g gs ih =>
    rw [item_cons_of_ne (hsmall g (List.mem_cons_self ..)) hn (hne g (List.mem_cons_self ..)),
      ih (fun h hh => hsmall h (List.mem_cons_of_mem _ hh)) fun h hh =>
        hne h (List.mem_cons_of_mem _ hh)]

theorem item_keyed {gs : List (Nat × Option Item)} (hnodup : (gs.map Prod.fst).Nodup)
    (hsmall : ∀ g ∈ gs, g.1 < 16)
    {n : Nat} (hn : n < 16) : (keyed gs).item n = (gs.lookup n).join.getD .null := by
  induction gs with
  | nil => rfl
  | cons g gs ih =>
    obtain ⟨m, o⟩ := g
    rw [List.map_cons, List.nodup_cons] at hnodup
    have hm : m < 16 := hsmall (m, o) (List.mem_cons_self ..)
    have hrest := fun h hh => hsmall h (List.mem_cons_of_mem (m, o) hh)
    by_cases hne : m = n
    · subst hne
      have hother : ∀ h ∈ gs, h.1 ≠ m := fun h hh heq => hnodup.1 (List.mem_map.2 ⟨h, hh, heq⟩)
      rw [List.lookup_cons, beq_self_eq_true]
      cases o with
      | none =>
        show (keyed gs).item m = _
        exact item_of_not_mem hrest hn hother
      | some v =>
        have hkey : (Key.number (Int64.ofNat m)).isField m = true := by
          rw [isField_number hn hn, decide_eq_true rfl]
        show Fields.item ((Key.number (Int64.ofNat m), v) :: keyed gs) m = _
        rw [item_cons, hkey, if_pos rfl]
        rfl
    · rw [item_cons_of_ne hm hn hne, ih hnodup.2 hrest, List.lookup_cons,
        beq_false_of_ne (Ne.symm hne)]

theorem item_field (gs : List (Nat × Option Item)) (ns : List Nat) (hns : gs.map Prod.fst = ns)
    (hnodup : ns.Nodup)
    (hsmall : ∀ n ∈ ns, n < 16) (n : Nat) (hn : n < 16) : (keyed gs).item n =
    (gs.lookup n).join.getD .null := by
  subst hns
  exact item_keyed hnodup (fun g hg => hsmall g.1 (List.mem_map_of_mem hg)) hn

structure StorableText (s : Bytes) : Prop where
  valid : Utf8.valid s = true
  short : s.length < 2 ^ 64

structure StorableInt (n : Int) : Prop where
  low : -0x8000000000000000 ≤ n
  high : n ≤ 0x7FFFFFFFFFFFFFFF

theorem readText_field {s : Bytes} (h : StorableText s) :
    readText ((if s.isEmpty then none else some (Item.ofText s)).getD .null) = some s := by
  cases s with
  | nil => rfl
  | cons b s =>
    show (if [b :: s].all Utf8.valid then some [b :: s].flatten else none) = _
    simp [h.valid]

theorem readText_ofText {s : Bytes} (h : StorableText s) : readText (.ofText s) = some s := by
  show (if [s].all Utf8.valid then some [s].flatten else none) = _
  simp [h.valid]

theorem readInt_ofInt {low high n : Int} (hlow : low ≤ n) (hhigh : n ≤ high) :
    readInt low high (.ofInt n) = some n := by
  cases n with
  | ofNat n =>
    show (if low ≤ (n : Int) && (n : Int) ≤ high then some (n : Int) else none) = _
    rw [if_pos (by simpa using ⟨hlow, hhigh⟩)]
    rfl
  | negSucc n =>
    have hn : -1 - (n : Int) = Int.negSucc n := by omega
    show (if low ≤ -1 - (n : Int) && -1 - (n : Int) ≤ high then some (-1 - (n : Int)) else none) = _
    rw [hn, if_pos (by simpa using ⟨hlow, hhigh⟩)]

theorem readInt_field {low high n : Int} (hlow : low ≤ n) (hhigh : n ≤ high) :
    readInt low high ((if decide (n = 0) then none else some (Item.ofInt n)).getD .null) =
      some n := by
  by_cases hn : n = 0
  · subst hn
    rfl
  · rw [decide_eq_false hn]
    exact readInt_ofInt hlow hhigh

theorem mapM_map {α β : Type} {f : Item → Option β} {g : α → Item} {h : α → β} {xs : List α}
    (hf : ∀ x ∈ xs, f (g x) = some (h x)) : (xs.map g).mapM f = some (xs.map h) := by
  induction xs with
  | nil => rfl
  | cons x xs ih =>
    rw [List.map_cons, List.mapM_cons, hf x (List.mem_cons_self ..), ih fun y hy =>
      hf y (List.mem_cons_of_mem _ hy)]
    rfl

theorem readList_field {β : Type} (f : Item → Option β) (items : List Item) :
    readList f ((if items.isEmpty then none else some (Item.array items)).getD .null) =
      items.mapM f := by
  cases items <;> rfl

theorem readList_self {α : Type} {f : Item → Option α} {g : α → Item} {xs : List α}
    (hf : ∀ x ∈ xs, f (g x) = some x) :
    readList f ((if (xs.map g).isEmpty then none else some (Item.array (xs.map g))).getD .null) =
      some xs := by
  have hmap : (xs.map g).mapM f = some (xs.map id) := mapM_map hf
  rw [readList_field, hmap, List.map_id]

/-- A constant of one of the six kinds. A float is a number and not the negative zero. -/
def StorableValue : Value → Prop
  | .num (.float x) => Binary64.read x ≠ .nan ∧ x ≠ Binary64.zero true
  | .str s => StorableText s
  | .unknown _ => False
  | _ => True

def StorableName : Option Bytes → Prop
  | none => True
  | some s => s ≠ [] ∧ StorableText s

theorem ofInt_byte (b : UInt8) : UInt8.ofInt (b.toNat : Int) = b := by
  have hb := b.toNat_lt
  have hmod : ((b.toNat : Int) % 2 ^ 8).toNat = b.toNat := by omega
  rw [UInt8.ofInt, hmod, UInt8.ofNat_toNat]

theorem ofInt_word (w : UInt32) : UInt32.ofInt (w.toNat : Int) = w := by
  have hw := w.toNat_lt
  have hmod : ((w.toNat : Int) % 2 ^ 32).toNat = w.toNat := by omega
  rw [UInt32.ofInt, hmod, UInt32.ofNat_toNat]

theorem readByte_field (b : UInt8) :
    readByte ((if decide ((b.toNat : Int) = 0) then none else some (Item.ofInt b.toNat)).getD
      .null) = some b := by
  have hb := b.toNat_lt
  rw [readByte, readInt_field (by omega) (by omega)]
  exact congrArg some (ofInt_byte b)

theorem storableText_nil : StorableText [] := ⟨by simp [Utf8.valid, Utf8.runes], by decide⟩

theorem StorableName.text {name : Option Bytes} (h : StorableName name) :
    StorableText (name.getD []) := by
  cases name with
  | none => exact storableText_nil
  | some s => exact h.2

theorem StorableName.read {name : Option Bytes} (h : StorableName name) {item : Item}
    (hitem : readText item = some (name.getD [])) : readName item = some name := by
  rw [readName, hitem]
  cases name with
  | none => rfl
  | some s =>
    obtain ⟨b, s, rfl⟩ := List.exists_cons_of_ne_nil h.1
    rfl

def upvalueFields (u : Upvalue) : List (Nat × Option Item) :=
  [(1, if (u.name.getD []).isEmpty then none else some (.ofText (u.name.getD []))),
    (2, if !u.inStack then none else some (.bool true)),
    (3, some (.ofInt u.index)),
    (4, if decide ((u.kind.toNat : Int) = 0) then none else some (.ofInt u.kind.toNat))]

theorem upvalueItem_eq (u : Upvalue) : upvalueItem u = .map (numbered (upvalueFields u)) := by
  simp only [upvalueItem, textField, intField, always_eq, unlessEmpty_eq, numbered_append,
    List.cons_append,
    List.nil_append, upvalueFields]

theorem readUpvalue_item {u : Upvalue} (hname : StorableName u.name)
    (hindex : StorableInt u.index) :
    readUpvalue (upvalueItem u) = some u := by
  have hitem := item_field (upvalueFields u) [1, 2, 3, 4] rfl (by decide) (by decide)
  have h1 : readName ((keyed (upvalueFields u)).item 1) = some u.name := by
    rw [hitem 1 (by decide)]
    exact hname.read (readText_field hname.text)
  have h2 : readBool ((keyed (upvalueFields u)).item 2) = some u.inStack := by
    rw [hitem 2 (by decide)]
    show readBool ((if !u.inStack then none else some (.bool true)).getD .null) = _
    cases u.inStack <;> rfl
  have h3 : readInt64 ((keyed (upvalueFields u)).item 3) = some u.index := by
    rw [hitem 3 (by decide)]
    exact readInt_ofInt hindex.low hindex.high
  have h4 : readByte ((keyed (upvalueFields u)).item 4) = some u.kind := by
    rw [hitem 4 (by decide)]
    exact readByte_field u.kind
  rw [upvalueItem_eq, readUpvalue, readFields_numbered]
  simp only [Option.bind_eq_bind, Option.bind_some, h1, h2, h3, h4]
  rfl

def localFields (v : LocalVar) : List (Nat × Option Item) :=
  [(1, some (.ofText (v.name.getD []))), (2, some (.ofInt v.startPc)), (3, some (.ofInt v.endPc))]

theorem readLocal_item {v : LocalVar} (hname : StorableName v.name) (hstart : StorableInt v.startPc)
    (hend : StorableInt v.endPc) : readLocal (localItem v) = some v := by
  have hitem := item_field (localFields v) [1, 2, 3] rfl (by decide) (by decide)
  have h1 : readName ((keyed (localFields v)).item 1) = some v.name := by
    rw [hitem 1 (by decide)]
    exact hname.read (readText_ofText hname.text)
  have h2 : readInt64 ((keyed (localFields v)).item 2) = some v.startPc := by
    rw [hitem 2 (by decide)]
    exact readInt_ofInt hstart.low hstart.high
  have h3 : readInt64 ((keyed (localFields v)).item 3) = some v.endPc := by
    rw [hitem 3 (by decide)]
    exact readInt_ofInt hend.low hend.high
  rw [show localItem v = .map (numbered (localFields v)) from rfl, readLocal, readFields_numbered]
  simp only [Option.bind_eq_bind, Option.bind_some, h1, h2, h3]
  rfl

theorem readAbsLine_item {a : AbsLine} (hpc : StorableInt a.pc) (hline : StorableInt a.line) :
    readAbsLine (absLineItem a) = some a := by
  have h1 : readInt64 (.ofInt a.pc) = some a.pc := readInt_ofInt hpc.low hpc.high
  have h2 : readInt64 (.ofInt a.line) = some a.line := readInt_ofInt hline.low hline.high
  show (readInt64 (.ofInt a.pc)).bind
      (fun pc => (readInt64 (.ofInt a.line)).bind fun line => some (AbsLine.mk pc line)) = _
  rw [h1, h2]
  rfl

def valueFields : Value → List (Nat × Option Item)
  | .num (.int n) =>
    [(1, some (.uint 3)), (2, if decide (n.toInt = 0) then none else some (.ofInt n.toInt))]
  | .num (.float x) => [(1, some (.uint 4)), (3, if x.value == 0 then none else some (.float x))]
  | .str s => [(1, some (.uint 5)), (4, if s.isEmpty then none else some (.ofText s))]
  | v => [(1, some (.uint v.tag.toNat))]

theorem valueItem_eq (v : Value) : valueItem v = .map (numbered (valueFields v)) := by
  rcases v with _ | b | (n | x) | s | t <;>
    simp only [valueItem, textField, intField, always_eq, unlessEmpty_eq, numbered_append,
      List.cons_append,
      List.nil_append, List.append_nil, valueFields, Value.tag] <;> rfl

theorem readFloat_field {x : Double} (hx : x ≠ Binary64.zero true) :
    readFloat ((if x.value == 0 then none else some (Item.float x)).getD .null) = some x := by
  cases h : x.value == 0 with
  | false => rfl
  | true =>
    have hbits := Double.of_value (Binary64.ne_nan_of_beq h).1
    obtain hzero | hzero := Binary64.eq_zero_of_beq h
    · rw [← hbits, hzero]
      rfl
    · exact absurd (hbits.symm.trans (congrArg Double.of hzero)) hx

/-- A constant of a kind; only the part that the kind has counts. -/
def valueOf (tag : UInt8) (n : Int) (x : Double) (s : Bytes) : Value :=
  match tag with
  | 0 => .nil
  | 1 => .bool false
  | 2 => .bool true
  | 3 => .num (.int (Int64.ofInt n))
  | 4 => .num (.float x)
  | 5 => .str s
  | t => .unknown t

theorem readValue_eq {gs : List (Nat × Option Item)} {tag : UInt8} {n : Int} {x : Double}
    {s : Bytes}
    (htag : readByte ((keyed gs).item 1) = some tag) (hint : readInt64 ((keyed gs).item 2) = some n)
    (hfloat : readFloat ((keyed gs).item 3) = some x)
    (htext : readText ((keyed gs).item 4) = some s) :
    readValue (.map (numbered gs)) = some (valueOf tag n x s) := by
  rw [readValue, readFields_numbered]
  simp only [Option.bind_eq_bind, Option.bind_some, htag, hint, hfloat, htext]
  rfl

theorem readValue_item {v : Value} (h : StorableValue v) : readValue (valueItem v) = some v := by
  rw [valueItem_eq]
  rcases v with _ | b | (n | x) | s | t
  · rfl
  · cases b <;> rfl
  · have hitem := item_field (valueFields (.num (.int n))) [1, 2] rfl (by decide) (by decide)
    have hint : readInt64 ((keyed (valueFields (.num (.int n)))).item 2) = some n.toInt := by
      rw [hitem 2 (by decide)]
      exact readInt_field n.le_toInt (Int.le_of_lt_add_one n.toInt_lt)
    rw [readValue_eq (by rw [hitem 1 (by decide)]; rfl) hint (by rw [hitem 3 (by decide)]; rfl)
      (by rw [hitem 4 (by decide)]; rfl)]
    exact congrArg (fun n => some (Value.num (.int n))) n.ofInt_toInt
  · have hitem := item_field (valueFields (.num (.float x))) [1, 3] rfl (by decide) (by decide)
    have hfloat : readFloat ((keyed (valueFields (.num (.float x)))).item 3) = some x := by
      rw [hitem 3 (by decide)]
      exact readFloat_field h.2
    rw [readValue_eq (by rw [hitem 1 (by decide)]; rfl) (by rw [hitem 2 (by decide)]; rfl) hfloat
      (by rw [hitem 4 (by decide)]; rfl)]
    rfl
  · have hitem := item_field (valueFields (.str s)) [1, 4] rfl (by decide) (by decide)
    have htext : readText ((keyed (valueFields (.str s))).item 4) = some s := by
      rw [hitem 4 (by decide)]
      exact readText_field h
    rw [readValue_eq (by rw [hitem 1 (by decide)]; rfl) (by rw [hitem 2 (by decide)]; rfl)
      (by rw [hitem 3 (by decide)]; rfl) htext]
    rfl
  · exact h.elim

def functionFields (p : Prototype) : List (Nat × Option Item) :=
  [(1, some (.ofText p.source)),
    (2, if decide (p.lineDefined = 0) then none else some (.ofInt p.lineDefined)),
    (3, if decide (p.lastLineDefined = 0) then none else some (.ofInt p.lastLineDefined)),
    (4, if decide (p.numParams = 0) then none else some (.ofInt p.numParams)),
    (5, if decide ((p.flag.toNat : Int) = 0) then none else some (.ofInt p.flag.toNat)),
    (6, some (.ofInt p.maxStackSize)),
    (7, some (.array (p.code.toList.map fun i => .uint i.word.toNat))),
    (8, if (p.constants.toList.map valueItem).isEmpty then none
      else some (.array (p.constants.toList.map valueItem))),
    (9, if (toItems p.nested).isEmpty then none else some (.array (toItems p.nested))),
    (10, if (p.upvalues.toList.map upvalueItem).isEmpty then none
      else some (.array (p.upvalues.toList.map upvalueItem))),
    (11, if (p.lineInfo.toList.map fun d => Item.ofInt d.toInt).isEmpty then none
      else some (.array (p.lineInfo.toList.map fun d => .ofInt d.toInt))),
    (12, if (p.absLines.toList.map absLineItem).isEmpty then none
      else some (.array (p.absLines.toList.map absLineItem))),
    (13, if (p.locals.toList.map localItem).isEmpty then none
      else some (.array (p.locals.toList.map localItem)))]

theorem toItem_eq (p : Prototype) : toItem p = .map (numbered (functionFields p)) := by
  cases p
  simp only [toItem, intField, listField, always_eq, unlessEmpty_eq, numbered_append,
    List.cons_append,
    List.nil_append, functionFields]

theorem toItems_eq (ps : List Prototype) : toItems ps = ps.map toItem := by
  induction ps with
  | nil => rfl
  | cons p ps ih => rw [toItems, ih, List.map_cons]

/-- What one function needs in order to be read as it was written. -/
structure StorableNode (p : Prototype) : Prop where
  source : StorableText p.source
  lineDefined : StorableInt p.lineDefined
  lastLineDefined : StorableInt p.lastLineDefined
  numParams : StorableInt p.numParams
  maxStackSize : StorableInt p.maxStackSize
  constants : ∀ v ∈ p.constants.toList, StorableValue v
  upvalues : ∀ u ∈ p.upvalues.toList, StorableName u.name ∧ StorableInt u.index
  absLines : ∀ a ∈ p.absLines.toList, StorableInt a.pc ∧ StorableInt a.line
  locals : ∀ v ∈ p.locals.toList, StorableName v.name ∧ StorableInt v.startPc ∧ StorableInt v.endPc
  lines : p.lineInfo.isEmpty = true ∨ p.lineInfo.size = p.code.size

/-- A function whose parts can be written, within the limits of the reader. -/
structure Storable (p : Prototype) : Prop where
  nodes : ∀ q ∈ p.walk, StorableNode q
  limits : (toItem p).within 0 = true

theorem nested_induction {P : Prototype → Prop} (h : ∀ p, (∀ q ∈ p.nested, P q) → P p)
    (p : Prototype) : P p := by
  suffices hsize : ∀ n p, sizeOf p < n → P p from hsize _ p (Nat.lt_succ_self _)
  intro n
  induction n with
  | zero => exact fun p hp => absurd hp (Nat.not_lt_zero _)
  | succ n ih =>
    intro p hp
    refine h p fun q hq => ih q ?_
    have hless := List.sizeOf_lt_of_mem hq
    cases p
    simp only [Prototype.mk.sizeOf_spec] at hp
    simp only at hless
    omega

variable {p : Prototype} {depth : Nat}

theorem nodes_nested (h : ∀ q ∈ p.walk, StorableNode q) : ∀ q ∈ p.nested, ∀ r ∈ q.walk,
    StorableNode r :=
  fun q hq r hr => h r (Prototype.mem_walk.2 (.inr ⟨q, hq, hr⟩))

theorem plain_ofInt {n : Int} (h : StorableInt n) : (Item.ofInt n).Plain := by
  have hlow := h.low
  have hhigh := h.high
  cases n with
  | ofNat n =>
    rw [Int.ofNat_eq_natCast] at hhigh
    exact .uint (by omega)
  | negSucc n => exact .nint (by omega)

theorem plain_array {α : Type} {f : α → Item} {xs : List α} (h : ∀ x ∈ xs, (f x).Plain) :
    (Item.array (xs.map f)).Plain :=
  .array fun i hi => by
    obtain ⟨x, hx, rfl⟩ := List.mem_map.1 hi
    exact h x hx

def PlainField (g : Nat × Option Item) : Prop := g.1 < 16 ∧ ∀ v, g.2 = some v → v.Plain

theorem plain_map {gs : List (Nat × Option Item)} (h : ∀ g ∈ gs, PlainField g) :
    (Item.map (numbered gs)).Plain := by
  have hmem : ∀ x ∈ numbered gs, x.1.Plain ∧ x.2.Plain := by
    intro x hx
    obtain ⟨g, hg, hx⟩ := List.mem_flatMap.1 hx
    obtain ⟨v, hv, rfl⟩ := List.mem_map.1 hx
    exact ⟨.uint (Nat.lt_trans (h g hg).1 (by decide)), (h g hg).2 v (Option.mem_toList.1 hv)⟩
  exact .map (fun x hx => (hmem x hx).1) fun x hx => (hmem x hx).2

theorem plainField_some {n : Nat} {v : Item} (hn : n < 16) (h : v.Plain) : PlainField (n, some v) :=
  ⟨hn, fun _ hw => Option.some.inj hw ▸ h⟩

theorem plainField_unless {n : Nat} {b : Bool} {v : Item} (hn : n < 16) (h : v.Plain) :
    PlainField (n, if b then none else some v) := by
  cases b with
  | false => exact plainField_some hn h
  | true => exact ⟨hn, fun _ hv => by cases hv⟩

theorem storableInt_byte (b : UInt8) : StorableInt b.toNat := by
  have := b.toNat_lt
  constructor <;> omega

theorem plain_value {v : Value} (h : StorableValue v) : (valueItem v).Plain := by
  rw [valueItem_eq]
  have htag : ∀ t : UInt8, (Item.uint t.toNat).Plain :=
    fun t => .uint (Nat.lt_trans t.toNat_lt (by decide))
  refine plain_map ?_
  rcases v with _ | b | (n | x) | s | t
  · exact List.forall_mem_singleton.2 (plainField_some (by decide) (htag _))
  · exact List.forall_mem_singleton.2 (plainField_some (by decide) (htag _))
  · refine List.forall_mem_cons.2
      ⟨plainField_some (by decide) (htag 3), List.forall_mem_singleton.2 ?_⟩
    exact plainField_unless (by decide) (plain_ofInt ⟨n.le_toInt, Int.le_of_lt_add_one n.toInt_lt⟩)
  · refine List.forall_mem_cons.2
      ⟨plainField_some (by decide) (htag 4), List.forall_mem_singleton.2 ?_⟩
    exact plainField_unless (by decide) (.float h.1)
  · refine List.forall_mem_cons.2
      ⟨plainField_some (by decide) (htag 5), List.forall_mem_singleton.2 ?_⟩
    exact plainField_unless (by decide) (.text (StorableText.short h))
  · exact h.elim

theorem plain_upvalue {u : Upvalue} (hname : StorableName u.name) (hindex : StorableInt u.index) :
    (upvalueItem u).Plain := by
  rw [upvalueItem_eq]
  refine plain_map ?_
  simp only [upvalueFields, List.forall_mem_cons, List.not_mem_nil, false_implies, implies_true,
    and_true]
  exact ⟨plainField_unless (by decide) (.text hname.text.short),
    plainField_unless (by decide) (.bool true),
    plainField_some (by decide) (plain_ofInt hindex),
      plainField_unless (by decide) (plain_ofInt (storableInt_byte _))⟩

theorem plain_local {v : LocalVar} (hname : StorableName v.name) (hstart : StorableInt v.startPc)
    (hend : StorableInt v.endPc) :
    (localItem v).Plain := by
  rw [show localItem v = .map (numbered (localFields v)) from rfl]
  refine plain_map ?_
  simp only [localFields, List.forall_mem_cons, List.not_mem_nil, false_implies, implies_true,
    and_true]
  exact ⟨plainField_some (by decide) (.text hname.text.short),
    plainField_some (by decide) (plain_ofInt hstart),
    plainField_some (by decide) (plain_ofInt hend)⟩

theorem plain_absLine {a : AbsLine} (hpc : StorableInt a.pc) (hline : StorableInt a.line) :
    (absLineItem a).Plain := by
  refine .array fun i hi => ?_
  simp only [List.mem_cons, List.not_mem_nil, or_false] at hi
  rcases hi with rfl | rfl
  · exact plain_ofInt hpc
  · exact plain_ofInt hline

theorem plain_function (h : ∀ q ∈ p.walk, StorableNode q) : (toItem p).Plain := by
  induction p using nested_induction with
  | h p ih =>
    have hp := h p (Prototype.mem_walk.2 (.inl rfl))
    rw [toItem_eq]
    refine plain_map ?_
    simp only [functionFields, List.forall_mem_cons, List.not_mem_nil, false_implies, implies_true,
      and_true]
    refine ⟨plainField_some (by decide) (.text hp.source.short),
      plainField_unless (by decide) (plain_ofInt hp.lineDefined),
      plainField_unless (by decide) (plain_ofInt hp.lastLineDefined),
        plainField_unless (by decide) (plain_ofInt hp.numParams),
      plainField_unless (by decide) (plain_ofInt (storableInt_byte _)),
        plainField_some (by decide) (plain_ofInt hp.maxStackSize),
      plainField_some (by decide)
        (plain_array fun i _ => .uint (Nat.lt_trans i.word.toNat_lt (by decide))),
      plainField_unless (by decide) (plain_array fun v hv => plain_value (hp.constants v hv)),
      plainField_unless (by decide) ?_,
      plainField_unless (by decide)
        (plain_array fun u hu => plain_upvalue (hp.upvalues u hu).1 (hp.upvalues u hu).2),
      plainField_unless (by decide) (plain_array fun d _ => plain_ofInt ?_),
      plainField_unless (by decide)
        (plain_array fun a ha => plain_absLine (hp.absLines a ha).1 (hp.absLines a ha).2),
      plainField_unless (by decide) (plain_array fun v hv =>
        plain_local (hp.locals v hv).1 (hp.locals v hv).2.1 (hp.locals v hv).2.2)⟩
    · rw [toItems_eq]
      exact plain_array fun q hq => ih q hq (nodes_nested h q hq)
    · have hlow := d.le_toInt
      have hhigh := d.toInt_lt
      constructor <;> omega

theorem mem_flat_numbered {gs : List (Nat × Option Item)} {n : Nat} {v : Item}
    (h : (n, some v) ∈ gs) :
    v ∈ Cbor.flat (numbered gs) := by
  refine List.mem_flatMap.2 ⟨(.uint n, v), ?_, by simp⟩
  exact List.mem_flatMap.2 ⟨(n, some v), h, List.mem_map.2 ⟨v, by simp, rfl⟩⟩

theorem within_nested (h : (toItem p).within depth = true) :
    depth < Cbor.maxNesting ∧ ∀ q ∈ p.nested, (toItem q).within (depth + 2) = true := by
  rw [toItem_eq, Item.within, Bool.and_eq_true, Bool.and_eq_true, decide_eq_true_eq,
    Cbor.pairsWithin_iff] at h
  obtain ⟨⟨hdepth, -⟩, hfields⟩ := h
  refine ⟨hdepth, fun q hq => ?_⟩
  have hne : (toItems p.nested).isEmpty = false := by
    rw [toItems_eq, List.isEmpty_map]
    exact List.isEmpty_eq_false_iff.2 (List.ne_nil_of_mem hq)
  have hfield : (9, some (Item.array (toItems p.nested))) ∈ functionFields p := by
    simp [functionFields, hne]
  have harray := hfields _ (mem_flat_numbered hfield)
  rw [Item.within, Bool.and_eq_true, Cbor.allWithin_iff] at harray
  exact harray.2 _ (by rw [toItems_eq]; exact List.mem_map_of_mem hq)

theorem fields_eq (p : Prototype) : ({ p with
    code := p.code.toList.toArray, constants := p.constants.toList.toArray,
    upvalues := p.upvalues.toList.toArray
    lineInfo := p.lineInfo.toList.toArray, absLines := p.absLines.toList.toArray,
    locals := p.locals.toList.toArray } :
    Prototype) = p := by
  cases p
  rfl

theorem bind_eq_some {α β : Type} {x : Option α} {f : α → Option β} {a : α} {b : β}
    (hx : x = some a) (hf : f a = some b) :
    (x >>= f) = some b := by
  rw [hx]
  exact hf

theorem ofItem_toItem (h : ∀ q ∈ p.walk, StorableNode q) {levels : Nat}
    (hwithin : (toItem p).within depth = true)
    (hlevels : Cbor.maxNesting ≤ depth + levels) : ofItem levels (toItem p) = some p := by
  induction p using nested_induction generalizing depth levels with
  | h p ih =>
    obtain ⟨hdepth, hnested⟩ := within_nested hwithin
    have hp := h p (Prototype.mem_walk.2 (.inl rfl))
    cases levels with
    | zero => omega
    | succ levels =>
      have hitem := item_field (functionFields p) [1, 2, 3, 4, 5, 6, 7, 8, 9, 10, 11, 12, 13] rfl
        (by decide) (by decide)
      have h1 : readText ((keyed (functionFields p)).item 1) = some p.source := by
        rw [hitem 1 (by decide)]
        exact readText_ofText hp.source
      have h2 : readInt64 ((keyed (functionFields p)).item 2) = some p.lineDefined := by
        rw [hitem 2 (by decide)]
        exact readInt_field hp.lineDefined.low hp.lineDefined.high
      have h3 : readInt64 ((keyed (functionFields p)).item 3) = some p.lastLineDefined := by
        rw [hitem 3 (by decide)]
        exact readInt_field hp.lastLineDefined.low hp.lastLineDefined.high
      have h4 : readInt64 ((keyed (functionFields p)).item 4) = some p.numParams := by
        rw [hitem 4 (by decide)]
        exact readInt_field hp.numParams.low hp.numParams.high
      have h5 : readByte ((keyed (functionFields p)).item 5) = some p.flag := by
        rw [hitem 5 (by decide)]
        exact readByte_field p.flag
      have h6 : readInt64 ((keyed (functionFields p)).item 6) = some p.maxStackSize := by
        rw [hitem 6 (by decide)]
        exact readInt_ofInt hp.maxStackSize.low hp.maxStackSize.high
      have h7 : readList (readInt 0 0xFFFFFFFF) ((keyed (functionFields p)).item 7) =
          some (p.code.toList.map fun i => (i.word.toNat : Int)) := by
        rw [hitem 7 (by decide)]
        refine mapM_map fun i _ => readInt_ofInt (n := (i.word.toNat : Int)) (by omega) ?_
        have := i.word.toNat_lt
        omega
      have h8 : readList readValue ((keyed (functionFields p)).item 8) =
          some p.constants.toList := by
        rw [hitem 8 (by decide)]
        exact readList_self fun v hv => readValue_item (hp.constants v hv)
      have h9 : readList (ofItem levels) ((keyed (functionFields p)).item 9) = some p.nested := by
        rw [hitem 9 (by decide)]
        show readList _
            ((if (toItems p.nested).isEmpty then none
            else some (Item.array (toItems p.nested))).getD .null) = _
        rw [toItems_eq]
        exact readList_self fun q hq => ih q hq (nodes_nested h q hq) (hnested q hq) (by omega)
      have h10 : readList readUpvalue ((keyed (functionFields p)).item 10) =
          some p.upvalues.toList := by
        rw [hitem 10 (by decide)]
        exact readList_self fun u hu => readUpvalue_item (hp.upvalues u hu).1 (hp.upvalues u hu).2
      have h11 : readList (readInt (-128) 127)
          ((keyed (functionFields p)).item 11) = some (p.lineInfo.toList.map Int8.toInt) := by
        rw [hitem 11 (by decide)]
        refine (readList_field _ _).trans (mapM_map fun d _ => readInt_ofInt ?_ ?_)
        · have := d.le_toInt
          omega
        · have := d.toInt_lt
          omega
      have h12 : readList readAbsLine ((keyed (functionFields p)).item 12) =
          some p.absLines.toList := by
        rw [hitem 12 (by decide)]
        exact readList_self fun a ha => readAbsLine_item (hp.absLines a ha).1 (hp.absLines a ha).2
      have h13 : readList readLocal ((keyed (functionFields p)).item 13) =
          some p.locals.toList := by
        rw [hitem 13 (by decide)]
        exact readList_self fun v hv =>
          readLocal_item (hp.locals v hv).1 (hp.locals v hv).2.1 (hp.locals v hv).2.2
      have hcode : ((p.code.toList.map fun i => (i.word.toNat : Int)).map fun w =>
          Instruction.mk (UInt32.ofInt w)) =
          p.code.toList := by
        rw [List.map_map]
        exact List.map_id'' (fun i => congrArg Instruction.mk (ofInt_word i.word)) _
      have hlines : (p.lineInfo.toList.map Int8.toInt).map Int8.ofInt = p.lineInfo.toList := by
        rw [List.map_map]
        exact List.map_id'' (fun d => d.ofInt_toInt) _
      rw [toItem_eq, ofItem]
      refine bind_eq_some (readFields_numbered _) ?_
      refine bind_eq_some h1 (bind_eq_some h2
        (bind_eq_some h3 (bind_eq_some h4 (bind_eq_some h5 (bind_eq_some h6 ?_)))))
      refine bind_eq_some h7 (bind_eq_some h8
        (bind_eq_some h9 (bind_eq_some h10 (bind_eq_some h11 (bind_eq_some h12 ?_)))))
      refine bind_eq_some h13 ?_
      rw [hcode, hlines]
      exact congrArg some (fields_eq p)

theorem checkAll_eq_ok {ps : List Prototype} (h : ∀ p ∈ ps, check p = .ok ()) :
    checkAll ps = .ok () := by
  induction ps with
  | nil => rfl
  | cons p ps ih =>
    rw [checkAll, h p (List.mem_cons_self ..)]
    exact ih fun q hq => h q (List.mem_cons_of_mem _ hq)

theorem check_eq_ok (h : ∀ q ∈ p.walk, StorableNode q) : check p = .ok () := by
  induction p using nested_induction with
  | h p ih =>
    have hp := h p (Prototype.mem_walk.2 (.inl rfl))
    have hnested := checkAll_eq_ok fun q hq => ih q hq (nodes_nested h q hq)
    have hlines := hp.lines
    have hconstants := hp.constants
    cases p
    rw [check, if_neg (by simpa [or_iff_not_imp_left] using hlines)]
    split
    · rename_i t hfound
      obtain ⟨v, hv, ht⟩ := Array.exists_of_findSome?_eq_some hfound
      have hstorable := hconstants v (Array.mem_toList_iff.2 hv)
      cases v with
      | unknown t => exact hstorable.elim
      | _ => cases ht
    · exact hnested

theorem decode_encode (h : Storable p) : decode (encode p) = .ok p := by
  have hitem : Item.decode (encode p) = some (toItem p) :=
    Cbor.decode_write (plain_function h.nodes) h.limits
  have hfunction : ofItem Cbor.maxNesting (toItem p) = some p :=
    ofItem_toItem h.nodes h.limits (by omega)
  rw [decode, hitem]
  dsimp only
  rw [hfunction]
  dsimp only
  rw [check_eq_ok h.nodes]

/-- A function has a text: it is a string constant, or the name of an upvalue or of a local. -/
def Mentions (p : Prototype) (s : Bytes) : Prop :=
  Value.str s ∈ p.constants.toList ∨ (∃ u ∈ p.upvalues.toList, u.name = some s) ∨
    ∃ v ∈ p.locals.toList, v.name = some s

theorem mem_textsAll {s : Bytes} {ps : List Prototype} : s ∈ textsAll ps ↔
    ∃ p ∈ ps, s ∈ texts p := by
  induction ps with
  | nil => simp [textsAll]
  | cons p ps ih => rw [textsAll, List.mem_append, ih, List.exists_mem_cons_iff]

theorem mem_texts {q : Prototype} (hq : q ∈ p.walk) {s : Bytes} (hs : Mentions q s) :
    s ∈ texts p := by
  induction p using nested_induction with
  | h p ih =>
    rcases Prototype.mem_walk.1 hq with rfl | ⟨r, hr, hq⟩
    · cases q
      rw [texts]
      simp only [List.mem_append, List.mem_filterMap]
      rcases hs with hs | ⟨u, hu, hname⟩ | ⟨v, hv, hname⟩
      · exact .inl (.inl (.inl ⟨_, hs, rfl⟩))
      · exact .inl (.inr ⟨u, hu, hname⟩)
      · exact .inr ⟨v, hv, hname⟩
    · have hnested := mem_textsAll.2 ⟨r, hr, ih r hr hq⟩
      cases p
      rw [texts]
      simp only [List.mem_append]
      exact .inl (.inl (.inr hnested))

theorem lookup_foldl_of_some {table : Interner} {s : Bytes} {n : Nat} (ws : List Bytes)
    (h : table.lookup? s = some n) :
    (ws.foldl Interner.intern table).lookup? s = some n := by
  induction ws generalizing table with
  | nil => exact h
  | cons w ws ih =>
    refine ih ?_
    by_cases hw : w = s
    · subst hw
      rw [Interner.lookup?_intern_self, Interner.reservedIndex, h]
      rfl
    · rw [Interner.lookup?_intern_of_ne table hw, h]

theorem lookup_foldl_of_mem {table : Interner} {s : Bytes} {ws : List Bytes} (h : s ∈ ws) :
    ((ws.foldl Interner.intern table).lookup? s).isSome = true := by
  induction ws generalizing table with
  | nil => cases h
  | cons w ws ih =>
    rcases List.mem_cons.1 h with rfl | h
    · rw [List.foldl_cons, lookup_foldl_of_some ws (Interner.lookup?_intern_self table s)]
      rfl
    · exact ih h

/-- Reading undoes writing. Every function comes back in all its parts, its texts are recorded in
the table, which keeps what it had, and written again it gives the same bytes. -/
theorem decodeInto_encode (h : Storable p) (table : Interner) :
    ∃ after, decodeInto (encode p) table = .ok (p, after) ∧
    (∀ q ∈ p.walk, ∀ s, Mentions q s → (after.lookup? s).isSome = true) ∧
    (∀ s n, table.lookup? s = some n → after.lookup? s = some n) ∧
    ∀ q t, decodeInto (encode p) table = .ok (q, t) → encode q = encode p := by
  have hread : decodeInto (encode p) table = .ok (p, (texts p).foldl Interner.intern table) := by
    rw [decodeInto, decode_encode h]
    rfl
  refine ⟨_, hread, fun q hq s hs => lookup_foldl_of_mem (mem_texts hq hs),
    fun s n hn => lookup_foldl_of_some _ hn,
    fun q t hq => ?_⟩
  cases hread.symm.trans hq
  rfl

def innerSample : Prototype where
  numParams := 1
  flag := 1
  locals := #[⟨some (utf8 "a"), 0, 1⟩, ⟨none, 0, 1⟩]

def outerSample : Prototype where
  source := utf8 "=t"
  maxStackSize := 2
  code := #[⟨71⟩]
  constants :=
    #[.nil, .bool true, .num (.int (-7)), .num (.float (Binary64.ofBits 0x3FE0000000000000)),
      .str (utf8 "x")]
  nested := [innerSample]
  upvalues := #[⟨some (utf8 "_ENV"), true, 0, 0⟩]
  lineInfo := #[-128]
  absLines := #[⟨0, 1⟩]

theorem storableText_small {s : Bytes} (hvalid : Utf8.valid s = true) (hshort : s.length < 100) :
    StorableText s :=
  ⟨hvalid, Nat.lt_trans hshort (by decide)⟩

theorem storable_outerSample : Storable outerSample := by
  refine ⟨fun q hq => ?_, by decide⟩
  rw [show outerSample.walk = [outerSample, innerSample] from rfl, List.mem_cons,
    List.mem_singleton] at hq
  have hint : ∀ n : Int, -100 ≤ n → n ≤ 100 → StorableInt n :=
    fun n hlow hhigh => ⟨by omega, by omega⟩
  have hsource : StorableText (utf8 "=t") := storableText_small (by cbv) (by decide)
  rcases hq with rfl | rfl
  · refine ⟨hsource, hint _ (by decide) (by decide), hint _ (by decide) (by decide),
      hint _ (by decide) (by decide), hint _ (by decide) (by decide), ?_, ?_, ?_, ?_, .inr rfl⟩
    · simp only [outerSample, List.forall_mem_cons, List.not_mem_nil, false_implies, implies_true,
        and_true]
      refine ⟨trivial, trivial, trivial, ⟨by decide, fun h => ?_⟩,
        storableText_small (by cbv) (by decide)⟩
      exact absurd h (by decide)
    · simp only [outerSample, List.forall_mem_cons, List.not_mem_nil, false_implies, implies_true,
        and_true]
      exact ⟨⟨by decide, storableText_small (by cbv) (by decide)⟩, hint _ (by decide) (by decide)⟩
    · simp only [outerSample, List.forall_mem_cons, List.not_mem_nil, false_implies, implies_true,
        and_true]
      exact ⟨hint _ (by decide) (by decide), hint _ (by decide) (by decide)⟩
    · simp [outerSample]
  · refine ⟨storableText_small (by cbv) (by decide), hint _ (by decide) (by decide),
      hint _ (by decide) (by decide),
      hint _ (by decide) (by decide), hint _ (by decide) (by decide), by
        simp [innerSample], by simp [innerSample],
      by simp [innerSample], ?_, .inl rfl⟩
    simp only [innerSample, List.forall_mem_cons, List.not_mem_nil, false_implies, implies_true,
      and_true]
    exact ⟨⟨⟨by decide, storableText_small (by cbv) (by decide)⟩, hint _ (by decide) (by decide),
      hint _ (by decide) (by decide)⟩,
      trivial, hint _ (by decide) (by decide), hint _ (by decide) (by decide)⟩

theorem decodeInto_encode_outerSample : Storable outerSample ∧
    ∃ after, decodeInto (encode outerSample) .empty = .ok (outerSample, after) ∧
      (after.lookup? (utf8 "a")).isSome = true := by
  obtain ⟨after, hread, hrecorded, -⟩ := decodeInto_encode storable_outerSample .empty
  refine ⟨storable_outerSample, after, hread,
    hrecorded innerSample ?_ _ (.inr (.inr ⟨_, List.mem_cons_self .., rfl⟩))⟩
  exact Prototype.mem_walk.2
    (.inr ⟨innerSample, List.mem_cons_self .., Prototype.mem_walk.2 (.inl rfl)⟩)

end LuaChunk.Wire
