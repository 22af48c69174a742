import LuaChunk.Text.Utf8
import LuaChunk.Number.Binary64

/-!
CBOR items. `Item.read` takes one item off the front of a byte string; `Item.write` gives the
shortest form of an item: integers and lengths in as few bytes as they fit, floats in the narrowest
format that has their value.

An item is refused if it is nested too deep or has a list that is too long, and so is anything that
is not well formed.
-/

set_option autoImplicit false

namespace LuaChunk.Cbor

open LuaChunk

inductive Item where
  | uint (n : Nat)
  | nint (n : Nat)
  | bytes (s : Bytes)
  /-- a text by its chunks; a text of known length is one chunk -/
  | text (chunks : List Bytes)
  | array (items : List Item)
  | map (pairs : List (Item × Item))
  | tag (n : Nat) (content : Item)
  | simple (n : Nat)
  | float (x : Double)

namespace Item

instance : Inhabited Item := ⟨.uint 0⟩

def null : Item := .simple 22

def bool (b : Bool) : Item := .simple (if b then 21 else 20)

def ofInt : Int → Item
  | .ofNat n => .uint n
  | .negSucc n => .nint n

def ofText (s : Bytes) : Item := .text [s]

end Item

def maxNesting : Nat := 32

def maxItems : Nat := 131072

/-- The first bytes of an item: its major type, what the first byte says besides, and the number
that follows from it. -/
structure Head where
  major : Nat
  info : Nat
  value : Nat

def number? : (n : Nat) → (acc : Nat) → Bytes → Option (Nat × Bytes)
  | 0, acc, s => some (acc, s)
  | _ + 1, _, [] => none
  | n + 1, acc, b :: s => number? n (256 * acc + b.toNat) s

def head? : Bytes → Option (Head × Bytes)
  | [] => none
  | b :: s =>
    let major := b.toNat / 32
    let info := b.toNat % 32
    let sized := fun (n : Nat) => (number? n 0 s).map fun (value, rest) =>
      (⟨major, info, value⟩, rest)
    if info < 24 then some (⟨major, info, info⟩, s)
    else match info with
      | 24 =>
        match sized 1 with
        | some (h, rest) => if major = 7 && h.value < 32 then none else some (h, rest)
        | none => none
      | 25 => sized 2
      | 26 => sized 4
      | 27 => sized 8
      | 31 => if major ∈ [2, 3, 4, 5] then some (⟨major, info, 0⟩, s) else none
      | _ => none

def take? (n : Nat) (s : Bytes) : Option (Bytes × Bytes) :=
  let front := s.take n
  if front.length = n then some (front, s.drop n) else none

/-- The chunks of a string up to the break; each is a string of known length of the same type. -/
def chunks (major : Nat) : (fuel : Nat) → (acc : List Bytes) → Bytes → Option (List Bytes × Bytes)
  | 0, _, _ => none
  | fuel + 1, acc, s =>
    match s with
    | [] => none
    | b :: rest =>
      if b = 0xFF then some (acc.reverse, rest)
      else match head? s with
        | none => none
        | some (h, rest) =>
          if h.major = major && h.info ≠ 31 then
            match take? h.value rest with
            | some (chunk, rest) => chunks major fuel (chunk :: acc) rest
            | none => none
          else none

def pairs? : List Item → Option (List (Item × Item))
  | [] => some []
  | [_] => none
  | k :: v :: rest => (pairs? rest).map ((k, v) :: ·)

def primitive (h : Head) : Item :=
  match h.info with
  | 25 => .float (Narrow.decode Narrow.half h.value)
  | 26 => .float (Narrow.decode Narrow.single h.value)
  | 27 => .float ⟨h.value.toUInt64⟩
  | _ => .simple h.value

mutual

def readAt : (fuel depth : Nat) → Bytes → Option (Item × Bytes)
  | 0, _, _ => none
  | fuel + 1, depth, s =>
    match head? s with
    | none => none
    | some (h, rest) =>
      let indefinite : Bool := h.info = 31
      match h.major with
      | 0 => some (.uint h.value, rest)
      | 1 => some (.nint h.value, rest)
      | 2 =>
        if indefinite then
          (chunks 2 fuel [] rest).map fun (cs, rest) => (.bytes cs.flatten, rest)
        else (take? h.value rest).map fun (c, rest) => (.bytes c, rest)
      | 3 =>
        if indefinite then (chunks 3 fuel [] rest).map fun (cs, rest) => (.text cs, rest)
        else (take? h.value rest).map fun (c, rest) => (.text [c], rest)
      | 4 =>
        if maxNesting < depth + 1 then none
        else
          let items := if indefinite then readUntilBreak fuel (depth + 1) [] rest
            else if maxItems < h.value then none
            else readMany fuel (depth + 1) h.value [] rest
          match items with
          | some (items, rest) =>
            if maxItems < items.length then none else some (.array items, rest)
          | none => none
      | 5 =>
        if maxNesting < depth + 1 then none
        else
          let items := if indefinite then readUntilBreak fuel (depth + 1) [] rest
            else if maxItems < h.value then none
            else readMany fuel (depth + 1) (2 * h.value) [] rest
          match items with
          | some (items, rest) =>
            if 2 * maxItems < items.length then none
            else (pairs? items).map fun pairs => (.map pairs, rest)
          | none => none
      | 6 =>
        match rest with
        | [] => none
        | b :: _ =>
          let inner := if b.toNat / 32 = 6 then depth + 1 else depth
          if maxNesting < inner then none
          else (readAt fuel inner rest).map fun (content, rest) => (.tag h.value content, rest)
      | _ => some (primitive h, rest)

def readMany : (fuel depth n : Nat) → (acc : List Item) → Bytes → Option (List Item × Bytes)
  | _, _, 0, acc, s => some (acc.reverse, s)
  | 0, _, _ + 1, _, _ => none
  | fuel + 1, depth, n + 1, acc, s =>
    match readAt fuel depth s with
    | some (item, rest) => readMany fuel depth n (item :: acc) rest
    | none => none

def readUntilBreak : (fuel depth : Nat) → (acc : List Item) → Bytes → Option (List Item × Bytes)
  | 0, _, _, _ => none
  | fuel + 1, depth, acc, s =>
    match s with
    | [] => none
    | b :: rest =>
      if b = 0xFF then some (acc.reverse, rest)
      else match readAt fuel depth s with
        | some (item, rest) => readUntilBreak fuel depth (item :: acc) rest
        | none => none

end

/-- One item off the front of a byte string. -/
def Item.read (s : Bytes) : Option (Item × Bytes) := readAt (2 * s.length + 2) 0 s

/-- The item that a byte string is, with nothing left over. -/
def Item.decode (s : Bytes) : Option Item :=
  match Item.read s with
  | some (item, []) => some item
  | _ => none

def bigEndian : Nat → Nat → Bytes
  | 0, _ => []
  | n + 1, x => bigEndian n (x / 256) ++ [(x % 256).toUInt8]

def head (major n : Nat) : Bytes :=
  let first := fun (info : Nat) => (32 * major + info).toUInt8
  if n < 24 then [first n]
  else if n < 0x100 then first 24 :: bigEndian 1 n
  else if n < 0x10000 then first 25 :: bigEndian 2 n
  else if n < 0x100000000 then first 26 :: bigEndian 4 n
  else first 27 :: bigEndian 8 n

/-- A float in the narrowest format that has its value. -/
def float (x : Float) : Bytes :=
  match Binary64.read x with
  | .nan => 0xF9 :: bigEndian 2 0x7E00
  | .infinite negative => 0xF9 :: bigEndian 2 (if negative then 0xFC00 else 0x7C00)
  | .finite .. =>
    match Narrow.encode? Narrow.half x, Narrow.encode? Narrow.single x with
    | some bits, _ => 0xF9 :: bigEndian 2 bits
    | none, some bits => 0xFA :: bigEndian 4 bits
    | none, none => 0xFB :: bigEndian 8 x.toBits.toNat

mutual

def Item.write : Item → Bytes
  | .uint n => head 0 n
  | .nint n => head 1 n
  | .bytes s => head 2 s.length ++ s
  | .text cs => head 3 cs.flatten.length ++ cs.flatten
  | .array items => head 4 items.length ++ writeAll items
  | .map pairs => head 5 pairs.length ++ writePairs pairs
  | .tag n content => head 6 n ++ content.write
  | .simple n => head 7 n
  | .float x => float x

def writeAll : List Item → Bytes
  | [] => []
  | i :: rest => i.write ++ writeAll rest

def writePairs : List (Item × Item) → Bytes
  | [] => []
  | (k, v) :: rest => k.write ++ v.write ++ writePairs rest

end

end LuaChunk.Cbor
