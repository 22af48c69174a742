import LuaChunk.Compile.Discharge

/-!
Declarations and the resolution of names. A name means its innermost active declaration: in the
function where it is used, from the newest declaration on, then in the enclosing functions one by
one. A variable of an enclosing function becomes an upvalue of every function in between. A name
without a declaration is a field of the variable `_ENV`.
-/

set_option autoImplicit false

namespace LuaChunk.Compile

open LuaChunk

/-- Declares a variable, which is not active yet; the result is its place among the function's
declarations. -/
def declare (name : Option Bytes) (kind : VarKind) (declaredAt : Option Nat := none)
    (control : Bool := false) :
    M Nat := do
  modify fun s => { s with vars := s.vars.push { kind, name, declaredAt, control } }
  let s ← get
  return s.vars.size - 1 - s.fn.firstVar

def declareHidden (name : String) : M Unit := do
  intern (utf8 name)
  discard (declare (some (utf8 name)) .regular)

def modifyVariable (i : Nat) (change : Variable → Variable) : M Unit := do
  if i < (← get).vars.size then modify fun s => { s with vars := s.vars.modify i change }
  else broken .indexInRange

def maxLocals : Nat := 200

/-- Adds a local variable to the debug information; the result is its place there. -/
def registerLocal (v : Variable) (reg : Nat) : M Nat := do
  let place ← ofFn (·.locals.size)
  modifyFn fun f => { f with
    locals :=
      f.locals.push ⟨v.name, v.kind, reg, f.locals.countP (·.stop.isNone), f.code.size, none⟩ }
  match v.name with
  | some s => stored (.text · s)
  | none => pure ()
  return place

def modifyLocal (i : Nat) (change : Span → Span) : M Unit := do
  if i < (← ofFn (·.locals.size)) then modifyFn fun f =>
    { f with locals := f.locals.modify i change }
  else broken .indexInRange

/-- Activates the next `n` declarations in the registers from `level` on. -/
def activateFrom : (n level : Nat) → M Unit
  | 0, _ => pure ()
  | n + 1, level => do
    let s ← get
    let place := s.fn.firstVar + s.fn.active
    modifyFn fun f => { f with active := f.active + 1 }
    let v ← variableAt place
    let debug ← registerLocal v level
    modifyVariable place fun v => { v with reg := level, debug }
    if maxLocals < level + 1 then limitError maxLocals "local variables"
    activateFrom n (level + 1)

def activate (n : Nat) : M Unit := do activateFrom n (← activeRegisters)

def activateUnplaced (n : Nat) : M Unit := modifyFn fun f => { f with active := f.active + n }

def endScopes : (n : Nat) → M Unit
  | 0 => pure ()
  | n + 1 => do
    modifyFn fun f => { f with active := f.active - 1 }
    let v ← ownVariable (← get).fn.active
    if v.kind.inRegister then
      let pc ← here
      modifyLocal v.debug fun x => { x with stop := some pc }
    endScopes n

def removeVariables (level : Nat) : M Unit := do
  let n := (← get).fn.active - level
  endScopes n
  if (← get).vars.size < n then broken .indexInRange
  modify fun s => { s with vars := s.vars.shrink (s.vars.size - n) }

/-- Changes the innermost of some blocks that satisfies a condition, if there is one. -/
def modifyFirst? (p : Block → Bool) (change : Block → Block) : List Block → Option (List Block)
  | [] => none
  | b :: rest =>
    if p b then some (change b :: rest) else (modifyFirst? p change rest).map (b :: ·)

/-- Changes the innermost block that satisfies a condition; a function whose block is changed has
variables to close. -/
def closeFirst (p : Block → Bool) (change : Block → Block) : M Unit := do
  match modifyFirst? p change (← ofFn (·.blocks)) with
  | some blocks => modifyFn fun f => { f with blocks, needClose := true }
  | none => broken .indexInRange

def markCaptured (index : Nat) : M Unit :=
  closeFirst (fun b => b.level ≤ index) fun b => { b with captured := true }

def markToClose : M Unit :=
  closeFirst (fun _ => true) fun b => { b with captured := true, insideToClose := true }

/-- What is known of a name's global declarations while no declaration of it has been found. -/
inductive Declared where
  /-- no global declaration was seen: all globals are allowed -/
  | free
  /-- other globals are declared by name: this one is not -/
  | closed
  /-- the innermost declaration of all globals, by its place among all declarations -/
  | wildcard (place : Nat)
  deriving DecidableEq

/-- What a name means. -/
inductive Meaning where
  | localVar (reg index : Nat) (kind : UInt8)
  | upvalue (i : Nat) (kind : UInt8)
  /-- a constant known to the compiler, by its place among all declarations -/
  | constVar (place : Nat)
  /-- a global declared by name, by its place among all declarations -/
  | declared (place : Nat)
  | undeclared (d : Declared)
  deriving DecidableEq

def envName : Bytes := utf8 "_ENV"

/-- What a name is looked up in: the active declarations and the upvalues of a function. -/
structure FnSite where
  firstVar : Nat
  active : Nat
  upvalues : Array Upvalue

def Builder.site (f : Builder) : FnSite := ⟨f.firstVar, f.active, f.upvalues⟩

/-- The newest of `n` declarations from `first` on that satisfies a condition. -/
def newest? (vars : Array Variable) (p : Variable → Bool) (first : Nat) : (n : Nat) → Option Nat
  | 0 => none
  | n + 1 =>
    match vars[first + n]? with
    | some v => if p v then some (first + n) else newest? vars p first n
    | none => newest? vars p first n

/-- The innermost active declaration that satisfies a condition, for functions within each other,
innermost first: how many functions outward it is, and its place among all declarations. -/
def innermost? (vars : Array Variable) (p : Variable → Bool) : List FnSite → Option (Nat × Nat)
  | [] => none
  | f :: rest =>
    match newest? vars p f.firstVar f.active with
    | some place => some (0, place)
    | none =>
      match innermost? vars p rest with
      | some (depth, place) => some (depth + 1, place)
      | none => none

namespace Variable

def declares (name : Bytes) (v : Variable) : Bool := v.name == some name

def isWildcard (v : Variable) : Bool := v.kind.isGlobal && v.name.isNone

def isNamedGlobal (v : Variable) : Bool := v.kind.isGlobal && v.name.isSome

end Variable

/-- Whether upvalue `i` of the innermost function leads, function by function, to a register of the
function that is `depth` functions outward, its kind the same on the whole way. -/
def leadsTo (reg : Nat) (kind : UInt8) : (depth : Nat) → List FnSite → (i : Nat) → Bool
  | depth + 1, f :: rest, i =>
    match f.upvalues[i]? with
    | some u =>
      u.kind == kind &&
        (if depth = 0 then u.inStack && u.index == reg
        else !u.inStack && 0 ≤ u.index && leadsTo reg kind depth rest u.index.toNat)
    | none => false
  | _, _, _ => false

/-- Whether upvalue `i` of the innermost function leads to the environment, which is the first
upvalue of the outermost function. -/
def leadsToEnv : List FnSite → (i : Nat) → Bool
  | [], _ => false
  | [f], i => i == 0 && (f.upvalues[0]?.any fun u => u.name == some envName)
  | f :: rest, i =>
    match f.upvalues[i]? with
    | some u =>
      u.kind == VarKind.regular.number && !u.inStack && 0 ≤ u.index && leadsToEnv rest u.index.toNat
    | none => false

/-- The lexical rule. A name means its innermost active declaration; `_ENV` without one means the
environment, and any other name without one is a global, which has to be declared if some global
is declared by its name and no declaration of all globals is visible. -/
def isLexical (vars : Array Variable) (fns : List FnSite) (name : Bytes) (m : Meaning) : Bool :=
  match innermost? vars (Variable.declares name) fns with
  | some (depth, place) =>
    match vars[place]? with
    | none => false
    | some v =>
      if v.kind.isGlobal then m == .declared place
      else if v.kind = .compileTime then m == .constVar place
      else
        match depth, m with
        | 0, .localVar reg i kind =>
          reg == v.reg && kind == v.kind.number && (fns.head?.any fun f => f.firstVar + i == place)
        | depth + 1, .upvalue i kind =>
          kind == v.kind.number && leadsTo v.reg kind (depth + 1) fns i
        | _, _ => false
  | none =>
    if name = envName then
      match m with
      | .upvalue i kind => kind == VarKind.regular.number && leadsToEnv fns i
      | _ => false
    else
      match innermost? vars Variable.isWildcard fns with
      | some (_, place) => m == .undeclared (.wildcard place)
      | none =>
        m == .undeclared
          (if (innermost? vars Variable.isNamedGlobal fns).isSome then .closed else .free)

/-- Records whether a name was taken for its innermost declaration. -/
def noteMeaning (name : Bytes) (m : Meaning) : M Unit := modify fun s =>
  { s with
    strayed := s.strayed || !isLexical s.vars ((s.fn :: s.outer).map Builder.site) name m }

/-- Records whether a function captures a variable for the first time. -/
def noteCapture (u : Upvalue) : M Unit := modify fun s =>
  { s with
    strayed := s.strayed || s.fn.upvalues.any fun v =>
      v.name == u.name || (v.inStack == u.inStack && v.index == u.index) }

def searchFrom (vars : Array Variable) (firstVar : Nat) (name : Bytes) :
    (n : Nat) → Declared → Option Meaning
  | 0, d => some (.undeclared d)
  | n + 1, d =>
    let place := firstVar + n
    match vars[place]? with
    | none => none
    | some v =>
      if v.kind.isGlobal then
        match v.name with
        | none =>
          match d with
          | .wildcard _ => searchFrom vars firstVar name n d
          | _ => searchFrom vars firstVar name n (.wildcard place)
        | some other =>
          if other = name then some (.declared place)
          else
            match d with
            | .free => searchFrom vars firstVar name n .closed
            | _ => searchFrom vars firstVar name n d
      else if v.name = some name then
        some (if v.kind = .compileTime then .constVar place
          else .localVar v.reg n v.kind.number)
      else searchFrom vars firstVar name n d

def maxUpvalues : Nat := 255

def addUpvalue (u : Upvalue) : M Nat := do
  noteCapture u
  let place ← ofFn (·.upvalues.size)
  if maxUpvalues < place + 1 then limitError maxUpvalues "upvalues"
  modifyFn fun f => { f with upvalues := f.upvalues.push u }
  match u.name with
  | some s => stored (.text · s)
  | none => pure ()
  return place

def findUpvalue? (name : Bytes) : M (Option (Nat × UInt8)) := do
  let ups ← ofFn (·.upvalues)
  match ups.findIdx? fun u => u.name == some name with
  | some i => return (ups[i]?).map fun u => (i, u.kind)
  | none => return none

/-- The meaning of a name in the function under construction, which has `enclosing` functions
around it. `isBase` says that the name is used in this very function. -/
def resolveFrom (name : Bytes) : (enclosing : Nat) → (isBase : Bool) → Declared → M Meaning
  | enclosing, isBase, d => do
    let s ← get
    match searchFrom s.vars s.fn.firstVar name s.fn.active d with
    | none => broken .indexInRange
    | some (.localVar r i kind) =>
      if !isBase then markCaptured i
      return .localVar r i kind
    | some (.undeclared d) =>
      match ← findUpvalue? name with
      | some (i, kind) =>
        noteMeaning name (.upvalue i kind)
        return .upvalue i kind
      | none =>
        match enclosing with
        | 0 => return .undeclared d
        | enclosing + 1 =>
          match ← inEnclosing (resolveFrom name enclosing false d) with
          | .localVar r _ kind => return .upvalue (← addUpvalue ⟨some name, true, r, kind⟩) kind
          | .upvalue i kind => return .upvalue (← addUpvalue ⟨some name, false, i, kind⟩) kind
          | m => return m
    | some m => return m

def resolve (name : Bytes) : M Meaning := do resolveFrom name (← get).outer.length true .free

/-- The number of the token that declares the local variable that a name stands for, if it stands
for one. -/
def State.declarationOf (s : State) (name : Bytes) : Option Nat :=
  match innermost? s.vars (Variable.declares name) ((s.fn :: s.outer).map Builder.site) with
  | some (_, place) => (s.vars[place]?).bind (·.declaredAt)
  | none => none

def globalAccess (name : Bytes) : M Exp := do
  let m ← resolve envName
  noteMeaning envName m
  let env ← match m with
    | .localVar r i _ => pure (ExpKind.localVar r i)
    | .upvalue i _ => pure (.upvalue i)
    | .constVar i => pure (.constVar i)
    | _ =>
      semanticError (utf8 "_ENV is global when accessing variable '" ++ name ++ utf8 "'")
  let table ← toRegisterOrUpvalue ⟨env, none, none⟩
  index table (.str name)

def Exp.readOnly (e : Exp) : Exp :=
  match e.kind with
  | .indexed t k a => { e with kind := .indexed t k { a with readOnly := true } }
  | .indexUp t k a => { e with kind := .indexUp t k { a with readOnly := true } }
  | .indexStr t k a => { e with kind := .indexStr t k { a with readOnly := true } }
  | _ => e

def variableExp (name : Bytes) : M Exp := do
  let global := fun (declaration : Option Nat) => do
    let e ← globalAccess name
    match declaration with
    | some place =>
      return if (← variableAt place).kind = .constGlobal then e.readOnly else e
    | none => return e
  let m ← resolve name
  noteMeaning name m
  match m with
  | .localVar r i _ => return ⟨.localVar r i, none, none⟩
  | .upvalue i _ => return ⟨.upvalue i, none, none⟩
  | .constVar i => return ⟨.constVar i, none, none⟩
  | .declared place => global (some place)
  | .undeclared (.wildcard place) => global (some place)
  | .undeclared .free => global none
  | .undeclared .closed =>
    semanticError (utf8 "variable '" ++ name ++ utf8 "' not declared")

def readOnlyName? (e : Exp) : M (Option Bytes) := do
  let global := fun (a : GlobalAccess) => do
    if a.readOnly then
      match a.name with
      | some k =>
        match (← get).fn.pool.values[k.index]? with
        | some (.str s) => return some s
        | _ => broken .indexInRange
      | none => broken .indexInRange
    else return none
  match e.kind with
  | .constVar i => return (← variableAt i).name
  | .localVar _ i =>
    let v ← ownVariable i
    return if v.kind = .regular then none else v.name
  | .upvalue i =>
    match (← get).fn.upvalues[i]? with
    | some u => return if u.kind = VarKind.regular.number then none else u.name
    | none => broken .indexInRange
  | .indexUp _ _ a | .indexStr _ _ a | .indexed _ _ a => global a
  | _ => return none

/-- What declares the variable that a name means: the innermost declaration of the name, or else of
all globals. -/
def State.declaring? (s : State) (name : Bytes) : Option Variable :=
  let fns := (s.fn :: s.outer).map Builder.site
  match innermost? s.vars (Variable.declares name) fns with
  | some (_, place) => s.vars[place]?
  | none =>
    if name = envName then none
    else
      match innermost? s.vars Variable.isWildcard fns with
      | some (_, place) => s.vars[place]?
      | none => none

/-- Records the variable that was read, where nothing follows its name. -/
def noteTarget (name : Option Bytes) : M Unit := modify fun s => { s with target := name }

def noteWrite (e : Exp) : M Unit := do
  let refused ← readOnlyName? e
  let target := (← get).target
  let declaration := target.bind (← get).declaring?
  modify fun s => { s with writes := s.writes.push ⟨target, declaration, refused⟩ }

def checkReadOnly (e : Exp) : M Unit := do
  match ← readOnlyName? e with
  | some name =>
    semanticError (utf8 "attempt to assign to const variable '" ++ name ++ utf8 "'")
  | none => pure ()

end LuaChunk.Compile
