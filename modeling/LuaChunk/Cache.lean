import LuaChunk.Assoc
import LuaChunk.Hash.Fingerprint
import LuaChunk.Number.Numeral
import LuaChunk.Wire.Form

/-!
The compile cache: compiled functions by keys. The key of a compilation is a digest of all that it
depends on. A row keeps the fingerprint of its function, so that a damaged row is never served.
-/

set_option autoImplicit false

namespace LuaChunk.Cache

open LuaChunk

/-- Part of every key: a new generation of compiled code starts with a new version. -/
def keyVersion : Bytes := utf8 "lunac-1"

def key (chunk source : Bytes) (strip : Bool) : Bytes :=
  let flag := if strip then utf8 "true" else utf8 "false"
  Bytes.toHex (Sha256.digest (keyVersion ++ 0 :: chunk ++ 0 :: flag ++ 0 :: source))

structure Row where
  chunk : Bytes
  fingerprint : Bytes
  data : Bytes
  deriving DecidableEq, Repr

/-- The rows by their keys; a key has at most one row. -/
structure Store where
  rows : List (Bytes × Row) := []

/-- Why there is no function for a key. -/
inductive Miss where
  | notFound
  | undecodable (chunk : Bytes) (e : Wire.Error)
  | mismatch (chunk found recorded : Bytes)
  deriving DecidableEq, Repr

namespace Miss

/-- The text of a miss; none where the reason is the shape of the data. -/
def text? : Miss → Option Bytes
  | .notFound => some (utf8 "chunk not cached")
  | .undecodable chunk e =>
    e.text?.map fun t => chunk ++ utf8 ": cached chunk is corrupt: " ++ t
  | .mismatch chunk found recorded =>
    some (chunk ++ utf8 ": cached chunk is corrupt: fingerprint " ++ found ++ utf8 ", recorded "
      ++ recorded)

/-- Whether a row was there and could not be used. -/
def isCorrupt : Miss → Bool
  | .notFound => false
  | _ => true

end Miss

def Row.prototype (r : Row) : Except Miss Prototype :=
  match Wire.decode r.data with
  | .error e => .error (.undecodable r.chunk e)
  | .ok p =>
    if p.fingerprint = r.fingerprint then .ok p
    else .error (.mismatch r.chunk p.fingerprint r.fingerprint)

namespace Store

def row? (s : Store) (key : Bytes) : Option Row := s.rows.lookup key

def delete (s : Store) (key : Bytes) : Store := ⟨Assoc.erase key s.rows⟩

def setRow (s : Store) (key : Bytes) (r : Row) : Store := ⟨Assoc.insert key r s.rows⟩

def put (s : Store) (key chunk : Bytes) (p : Prototype) : Store :=
  s.setRow key ⟨chunk, p.fingerprint, Wire.encode p⟩

def get (s : Store) (key : Bytes) : Except Miss Prototype :=
  match s.row? key with
  | none => .error .notFound
  | some r => r.prototype

def modifyRow (s : Store) (key : Bytes) (change : Row → Row) : Store :=
  ⟨s.rows.map fun (k, r) => if k = key then (k, change r) else (k, r)⟩

def modifyRows (s : Store) (change : Row → Row) : Store := ⟨s.rows.map fun (k, r) => (k, change r)⟩

def size (s : Store) : Nat := s.rows.length

def dataSize (s : Store) : Nat := s.rows.foldl (fun n r => n + r.2.data.length) 0

@[simp] theorem row?_setRow_self (s : Store) (key : Bytes) (r : Row) :
    (s.setRow key r).row? key = some r :=
  Assoc.lookup_insert_self key r s.rows

theorem row?_setRow_of_ne (s : Store) {key other : Bytes} (r : Row) (h : other ≠ key) :
    (s.setRow key r).row? other = s.row? other :=
  Assoc.lookup_insert_of_ne h r s.rows

@[simp] theorem row?_delete_self (s : Store) (key : Bytes) : (s.delete key).row? key = none :=
  Assoc.lookup_erase_self key s.rows

theorem row?_delete_of_ne (s : Store) {key other : Bytes} (h : other ≠ key) :
    (s.delete key).row? other = s.row? other :=
  Assoc.lookup_erase_of_ne h s.rows

end Store

def imageHeader : Bytes := utf8 "lunac compile cache\n"

def rowLine (key : Bytes) (r : Row) : Bytes :=
  Bytes.joinWith [32] [Bytes.toHex key, Bytes.toHex r.chunk, Bytes.toHex r.fingerprint,
    Bytes.toHex r.data] ++ [10]

def Store.image (s : Store) : Bytes := imageHeader ++ s.rows.flatMap fun (k, r) => rowLine k r

def bytesOfHex : Bytes → Bytes
  | a :: b :: rest => (16 * Numeral.hexValue a + Numeral.hexValue b).toUInt8 :: bytesOfHex rest
  | _ => []

def readRow? (line : Bytes) : Option (Bytes × Row) :=
  match (Bytes.splitAt 32 line).map bytesOfHex with
  | [key, chunk, fingerprint, data] => some (key, ⟨chunk, fingerprint, data⟩)
  | _ => none

/-- The cache of an image; none if the bytes do not start as an image does. -/
def Store.ofImage? (image : Bytes) : Option Store :=
  (Bytes.dropPrefix? imageHeader image).map fun rows =>
    ⟨(Bytes.lines rows).filterMap readRow?⟩

end LuaChunk.Cache
