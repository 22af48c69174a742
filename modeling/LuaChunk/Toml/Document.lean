import LuaChunk.Toml.Statement

/-!
TOML documents. A document is built statement by statement. A header or a dotted key makes tables
for the parts of its key that are missing; such a table is implied, and a later statement may still
define it, once. Any other second definition of a key is an error.
-/

set_option autoImplicit false

namespace LuaChunk.Toml

open LuaChunk

inductive Value where
  | string (s : Bytes)
  | integer (n : Int)
  | float (x : Float)
  | boolean (b : Bool)
  | time (s : Bytes)
  | array (items : List Value)
  | table (entries : List (Bytes × Value))
  | tables (rows : List (List (Bytes × Value)))

abbrev Table := List (Bytes × Value)

inductive Error where
  | malformed
  /-- a key is defined twice, or part of another one's value -/
  | redefined (key : Key)
  /-- a value is not of the sort that its key asks for -/
  | mismatch
  deriving DecidableEq, Repr

def Error.text : Error → Bytes
  | .malformed => utf8 "malformed document"
  | .redefined k => utf8 "key defined twice: " ++ Bytes.joinWith (utf8 ".") k
  | .mismatch => utf8 "incompatible types"

def Table.set (t : Table) (k : Bytes) (v : Value) : Table :=
  match t with
  | [] => [(k, v)]
  | (k', v') :: rest => if k' = k then (k, v) :: rest else (k', v') :: Table.set rest k v

/-- Changes the table that a key leads to. Of several tables under one name the last is meant. -/
def Table.update (change : Table → Except Error Table) (t : Table) : Key → Except Error Table
  | [] => change t
  | k :: ks =>
    match t.lookup k with
    | some (.table sub) => return Table.set t k (.table (← Table.update change sub ks))
    | some (.tables rows) =>
      return Table.set t k
        (.tables (rows.dropLast ++ [← Table.update change (rows.getLastD []) ks]))
    | _ => throw (.redefined [k])

/-- A document as far as it is built. -/
structure Draft where
  root : Table := []
  implied : List Key := []
  arrays : List Key := []

namespace Draft

abbrev M := StateT Draft (Except Error)

def imply (k : Key) : M Unit := modify fun d => { d with implied := k :: d.implied }

def settle (k : Key) : M Unit := modify fun d => { d with implied := d.implied.filter (· != k) }

/-- Notes whether the value of a key in a context is an array. A key without a name stands for its
context. -/
def noteKind (context : Key) (k : Bytes) (isArray : Bool) : M Unit := do
  let full := if k.isEmpty then context else context ++ [k]
  let full := if full.isEmpty then [[]] else full
  modify fun d =>
    let others := d.arrays.filter (· != full)
    { d with arrays := if isArray then full :: others else others }

def update (context : Key) (change : Table → Except Error Table) : M Unit := do
  let root ← Table.update change (← get).root context
  modify fun d => { d with root }

def table (context : Key) : M Table := do go context (← get).root
where
  go : Key → Table → M Table
    | [], t => pure t
    | k :: ks, t =>
      match t.lookup k with
      | some (.table sub) => go ks sub
      | some (.tables rows) => go ks (rows.getLastD [])
      | _ => throw (.redefined [k])

def setValue (context : Key) (k : Bytes) (v : Value) : M Unit := do
  let full := context ++ [k]
  if ((← table context).lookup k).isSome then
    let d ← get
    if !d.implied.contains full then throw (.redefined full)
    settle full
    if d.arrays.contains full then update context fun t => pure (Table.set t k v)
  else update context fun t => pure (Table.set t k v)

def makeParents : (above : Key) → (parents : Key) → M Unit
  | _, [] => pure ()
  | above, k :: ks => do
    let full := above ++ [k]
    match (← table above).lookup k with
    | none =>
      imply full
      update above fun t => pure (Table.set t k (.table []))
    | some (.table _) => pure ()
    | some (.tables _) => pure ()
    | some _ => throw (.redefined full)
    makeParents full ks

def openTable (k : Key) : M Unit := do
  makeParents [] k.dropLast
  setValue k.dropLast (k.getLastD []) (.table [])

def openElement (k : Key) : M Unit := do
  makeParents [] k.dropLast
  let last := k.getLastD []
  match (← table k.dropLast).lookup last with
  | none => update k.dropLast fun t => pure (Table.set t last (.tables [[]]))
  | some (.tables rows) =>
    update k.dropLast fun t => pure (Table.set t last (.tables (rows ++ [[]])))
  | some _ => throw (.redefined k)

def enter : (context : Key) → (parents : Key) → M Key
  | context, [] => pure context
  | context, k :: ks => do
    imply (context ++ [k])
    openTable (context ++ [k])
    enter (context ++ [k]) ks

def isArray : Expr → Bool
  | .array _ => true
  | _ => false

/-- Puts a value into a table at the end of a key; the parts before name tables. -/
def insertAt (t : Table) (v : Value) : Key → Except Error Table
  | [] => pure t
  | [k] => pure (Table.set t k v)
  | k :: ks =>
    match t.lookup k with
    | none => return Table.set t k (.table (← insertAt [] v ks))
    | some (.table sub) => return Table.set t k (.table (← insertAt sub v ks))
    | some _ => throw (.redefined [k])

mutual

/-- The value of an expression under a key. The fields of a table are defined in the document as
they are met, so that none is defined twice. -/
def eval (context : Key) (k : Bytes) (inArray : Bool) : Expr → M Value
  | .string s => pure (.string s)
  | .integer n => pure (.integer n)
  | .float x => pure (.float x)
  | .boolean b => pure (.boolean b)
  | .time s => pure (.time s)
  | .array items => do
    noteKind context k true
    return .array (← evalItems context k items)
  | .table fields => do
    let full := context ++ [k]
    imply full
    if inArray then openElement full else openTable full
    return .table (← evalFields full [] fields)

def evalItems (context : Key) (k : Bytes) : List Expr → M (List Value)
  | [] => pure []
  | e :: rest => do
    let v ← eval context k true e
    return v :: (← evalItems context k rest)

def evalFields (context : Key) (found : Table) : List Field → M Table
  | [] => pure found
  | f :: rest => do
    let (key, v) ← define context f
    evalFields context (← insertAt found v key) rest

def define (context : Key) : Field → M (Key × Value)
  | .mk key e => do
    let inner ← enter context key.dropLast
    let last := key.getLastD []
    let v ← eval inner last false e
    setValue inner last v
    noteKind inner last (isArray e)
    return (key, v)

end

/-- Carries out the statements that follow a header. -/
def run : (context : Key) → List Statement → M Unit
  | _, [] => pure ()
  | context, .field f :: rest => do
    discard (define context f)
    run context rest
  | _, .table k :: rest => do
    openTable k
    noteKind k [] false
    run k rest
  | _, .element k :: rest => do
    openElement k
    noteKind k [] false
    run k rest

end Draft

def read (document : Bytes) : Except Error Table :=
  match statements document with
  | none => .error .malformed
  | some ss =>
    match (Draft.run [] ss).run {} with
    | .ok (_, d) => .ok d.root
    | .error e => .error e

end LuaChunk.Toml
