import LuaChunk.Compile.Chunk
import LuaChunk.Proofs.Number.Unsigned

/-!
Floats that are not a NaN and not a negative zero, wherever a compilation keeps them: in tokens,
expressions, constants and declarations. A state is clean if all its floats are of that kind, and if
each float that was placed is kept exactly unless some operand did not fit.
-/

set_option autoImplicit false

namespace LuaChunk

/-- What a type's values may be. A type without floats allows all its values. -/
class Regularity (α : Type) where
  regular : α → Prop

export Regularity (regular)

instance (priority := low) Regularity.all (α : Type) : Regularity α := ⟨fun _ => True⟩

class Floatless (α : Type) [Regularity α] : Prop where
  regular : ∀ a : α, LuaChunk.regular a

class Good {α : Type} [Regularity α] (a : α) : Prop where
  regular : LuaChunk.regular a

/-- The values that are allowed. -/
abbrev Allowed (α : Type) [Regularity α] : Type := { a : α // regular a }

instance (priority := low) Floatless.all (α : Type) : @Floatless α (.all α) :=
  @Floatless.mk α (.all α) fun _ => trivial

section

variable {α β : Type} [Regularity α] [Regularity β]

instance (a : Allowed α) : Good a.val := ⟨a.property⟩

instance (priority := low) Good.of_floatless [h : Floatless α] (a : α) : Good a := ⟨h.regular a⟩

instance {c : Prop} [Decidable c] (a a' : α) [h : Good a] [h' : Good a'] :
    Good (if c then a else a') := by
  split
  · exact h
  · exact h'

instance : Regularity (Option α) := ⟨fun o => ∀ a, o = some a → regular a⟩

instance : Good (none : Option α) := ⟨nofun⟩

instance (a : α) [h : Good a] : Good (some a) := ⟨fun _ ha => Option.some.inj ha ▸ h.regular⟩

instance [h : Floatless α] : Floatless (Option α) := ⟨fun _ a _ => h.regular a⟩

instance : Regularity (α × β) := ⟨fun p => regular p.1 ∧ regular p.2⟩

instance (a : α) (b : β) [h : Good a] [h' : Good b] : Good (a, b) := ⟨h.regular, h'.regular⟩

instance (p : α × β) [h : Good p] : Good p.1 := ⟨h.regular.1⟩

instance (p : α × β) [h : Good p] : Good p.2 := ⟨h.regular.2⟩

instance [h : Floatless α] [h' : Floatless β] : Floatless (α × β) :=
  ⟨fun p => ⟨h.regular p.1, h'.regular p.2⟩⟩

instance : Regularity (List α) := ⟨fun as => ∀ a ∈ as, regular a⟩

instance : Good ([] : List α) := ⟨fun _ ha => absurd ha List.not_mem_nil⟩

theorem Good.of_some {a : α} (h : Good (some a)) : Good a := ⟨h.regular a rfl⟩

instance (as bs : List α) [h : Good as] [h' : Good bs] : Good (as ++ bs) :=
  ⟨List.forall_mem_append.2 ⟨h.regular, h'.regular⟩⟩

instance (a : α) (as : List α) [h : Good a] [h' : Good as] : Good (a :: as) :=
  ⟨List.forall_mem_cons.2 ⟨h.regular, h'.regular⟩⟩

instance [h : Floatless α] : Floatless (List α) := ⟨fun _ a _ => h.regular a⟩

end

instance : Regularity Double := ⟨fun x => Binary64.Regular x⟩

def Number.Regular : Number → Prop
  | .int _ => True
  | .float x => Binary64.Regular x

instance : Regularity Number := ⟨Number.Regular⟩

/-- A constant of a source. -/
def Value.Regular : Value → Prop
  | .num n => n.Regular
  | .unknown _ => False
  | _ => True

instance : Regularity Value := ⟨Value.Regular⟩

instance (n : Number) [h : Good n] : Good (Value.num n) := ⟨h.regular⟩

instance (n : Int64) : Good (Number.int n) := ⟨trivial⟩

instance (x : Double) [h : Good x] : Good (Number.float x) := ⟨h.regular⟩

instance : Good Value.nil := ⟨trivial⟩

instance (b : Bool) : Good (Value.bool b) := ⟨trivial⟩

instance (s : Bytes) : Good (Value.str s) := ⟨trivial⟩

def Token.Regular : Token → Prop
  | .float x _ => Binary64.Regular x
  | _ => True

instance : Regularity Token := ⟨Token.Regular⟩

/-- All constants of the function and of those nested in it. -/
def Prototype.Regular (p : Prototype) : Prop := ∀ q ∈ p.walk, ∀ v ∈ q.constants, v.Regular

namespace Compile

instance : Regularity PoolEntry := ⟨fun k => k.value.Regular⟩

instance (k : PoolEntry) [h : Good k] : Good k.value := ⟨h.regular⟩

instance : Regularity GlobalAccess := ⟨fun a => regular a.name⟩

instance (readOnly : Bool) (name : Option PoolEntry) [h : Good name] :
    Good (GlobalAccess.mk readOnly name) := ⟨h.regular⟩

def ExpKind.Regular : ExpKind → Prop
  | .float x => Binary64.Regular x
  | .konst k => regular k
  | .indexed _ _ a => regular a
  | .indexUp _ k a | .indexStr _ k a => regular k ∧ regular a
  | _ => True

instance : Regularity ExpKind := ⟨ExpKind.Regular⟩

instance : Regularity Exp := ⟨fun e => regular e.kind⟩

instance (kind : ExpKind) (t f : Option Nat) [h : Good kind] : Good (Exp.mk kind t f) := ⟨h.regular⟩

instance (e : Exp) [h : Good e] : Good e.kind := ⟨h.regular⟩

section

variable (n r : Nat) (a : GlobalAccess) (k : PoolEntry)

instance : Good ExpKind.void := ⟨trivial⟩
instance : Good ExpKind.nil := ⟨trivial⟩
instance : Good ExpKind.true_ := ⟨trivial⟩
instance : Good ExpKind.false_ := ⟨trivial⟩
instance [h : Good k] : Good (ExpKind.konst k) := ⟨h.regular⟩
instance (x : Double) [h : Good x] : Good (ExpKind.float x) := ⟨h.regular⟩
instance (i : Int64) : Good (ExpKind.int i) := ⟨trivial⟩
instance (s : Bytes) : Good (ExpKind.str s) := ⟨trivial⟩
instance : Good (ExpKind.inReg r) := ⟨trivial⟩
instance : Good (ExpKind.localVar r n) := ⟨trivial⟩
instance : Good (ExpKind.upvalue n) := ⟨trivial⟩
instance : Good (ExpKind.constVar n) := ⟨trivial⟩
instance [h : Good a] : Good (ExpKind.indexed r n a) := ⟨h.regular⟩
instance [h : Good k] [h' : Good a] : Good (ExpKind.indexUp r k a) := ⟨h.regular, h'.regular⟩
instance : Good (ExpKind.indexInt r n) := ⟨trivial⟩
instance [h : Good k] [h' : Good a] : Good (ExpKind.indexStr r k a) := ⟨h.regular, h'.regular⟩
instance : Good (ExpKind.jump n) := ⟨trivial⟩
instance : Good (ExpKind.relocatable n) := ⟨trivial⟩
instance : Good (ExpKind.call n) := ⟨trivial⟩
instance : Good (ExpKind.vararg n) := ⟨trivial⟩

end

theorem Exp.goodKind {e : Exp} {kind : ExpKind} (h : Good e) (hk : e.kind = kind) : Good kind :=
  hk ▸ ⟨h.regular⟩

theorem ExpKind.goodFloat {x : Double} (h : Good (ExpKind.float x)) : Good x := ⟨h.regular⟩

theorem ExpKind.goodEntry {k : PoolEntry} (h : Good (ExpKind.konst k)) : Good k := ⟨h.regular⟩

theorem GlobalAccess.goodEntry {readOnly : Bool} {k : PoolEntry}
    (h : Good (GlobalAccess.mk readOnly (some k))) : Good k :=
  ⟨h.regular k rfl⟩

theorem ExpKind.good_of_indexed {t k : Nat} {a : GlobalAccess} (h : Good (ExpKind.indexed t k a)) :
    Good a := ⟨h.regular⟩

theorem ExpKind.good_of_indexUp {t : Nat} {k : PoolEntry} {a : GlobalAccess}
    (h : Good (ExpKind.indexUp t k a)) :
    Good k ∧ Good a := ⟨⟨h.regular.1⟩, ⟨h.regular.2⟩⟩

theorem ExpKind.good_of_indexStr {t : Nat} {k : PoolEntry} {a : GlobalAccess}
    (h : Good (ExpKind.indexStr t k a)) :
    Good k ∧ Good a := ⟨⟨h.regular.1⟩, ⟨h.regular.2⟩⟩

instance : Good Exp.void := inferInstanceAs (Good (Exp.mk ..))

instance (r : Nat) : Good (Exp.inReg r) := inferInstanceAs (Good (Exp.mk ..))

instance (s : Bytes) : Good (Exp.str s) := inferInstanceAs (Good (Exp.mk ..))

instance (pc : Nat) : Good (Exp.relocatable pc) := inferInstanceAs (Good (Exp.mk ..))

instance (n : Number) [h : Good n] : Good (Exp.ofNumber n) := by
  refine ⟨?_⟩
  cases n with
  | int n => trivial
  | float x => exact h.regular

def Operand.Regular : Operand → Prop
  | .konst k => k.value.Regular
  | .reg _ => True

instance : Regularity Operand := ⟨Operand.Regular⟩

instance (k : PoolEntry) [h : Good k] : Good (Operand.konst k) := ⟨h.regular⟩

instance (r : Nat) : Good (Operand.reg r) := ⟨trivial⟩

theorem Operand.goodEntry {k : PoolEntry} (h : Good (Operand.konst k)) : Good k := ⟨h.regular⟩

instance (o : Operand) [h : Good o] : Good o.toExp := by
  cases o <;> exact ⟨h.regular⟩

instance (o : Operand) [h : Good o] : Good o.meant := by
  cases o with
  | konst k => exact ⟨fun v hv => List.mem_singleton.1 hv ▸ h.regular⟩
  | reg r => exact ⟨fun v hv => absurd hv List.not_mem_nil⟩

instance (v : Value) [h : Good v] : Good (ExpKind.ofValue v) := by
  refine ⟨?_⟩
  obtain ⟨h⟩ := h
  rcases v with _ | (_ | _) | (_ | x) | _ | _
  case num.float => exact h
  all_goals trivial

instance (e : Exp) [h : Good e] : Good e.readOnly := by
  obtain ⟨kind, t, f⟩ := e
  cases kind
  case float | konst | indexed | indexUp | indexStr => exact ⟨h.regular⟩
  all_goals exact ⟨trivial⟩

theorem Exp.regular_numeral {e : Exp} (h : regular e) {n : Number} (hn : e.numeral? = some n) :
    n.Regular := by
  replace h : e.kind.Regular := h
  unfold numeral? at hn
  split at hn
  · cases hn
  · split at hn <;> cases hn
    case h_1 => trivial
    case h_2 hk =>
      rw [hk] at h
      exact h

theorem regular_fold {op : ArithOp} {e₁ e₂ e : Exp} (h : fold? op e₁ e₂ = some e) : regular e := by
  unfold fold? at h
  split at h
  · split at h
    · split at h
      · cases h
        trivial
      · split at h
        · cases h
        · rename_i hguard
          cases h
          exact Binary64.regular_of_guard hguard
      · cases h
    · cases h
  · cases h

instance : Regularity Constructor := ⟨fun c => regular c.item⟩

instance (table records stored pending : Nat) (item : Exp) [h : Good item] :
    Good (Constructor.mk table item records stored pending) := ⟨h.regular⟩

instance (c : Constructor) [h : Good c] : Good c.item := ⟨h.regular⟩

instance : Regularity Variable := ⟨fun v => v.value.Regular⟩

instance (v : Variable) [h : Good v] : Good v.value := ⟨h.regular⟩

section

variable {α β : Type} [Regularity α] [Regularity β]

def Turn.Regular : Turn α β → Prop
  | .again a => regular a
  | .done b => regular b

instance : Regularity (Turn α β) := ⟨Turn.Regular⟩

instance (a : α) [h : Good a] : Good (Turn.again a : Turn α β) := ⟨h.regular⟩

instance (b : β) [h : Good b] : Good (Turn.done b : Turn α β) := ⟨h.regular⟩

end

/-- The float that stands for a constant. -/
def Keeper.float? : Keeper → Option Double
  | .entry (some (.num (.float y))) => some y
  | .load i => some (Binary64.ofInt i.sbx)
  | .declaration (.num (.float y)) => some y
  | _ => none

/-- The constant is neither a NaN nor a negative zero, and what stands for it is the very same
float. -/
structure FloatUse.Kept (u : FloatUse) : Prop where
  regular : Binary64.Regular u.value
  float : u.keeper.float? = some u.value

def RegularRows (meant : Array (List Value)) : Prop := ∀ row ∈ meant, ∀ v ∈ row, v.Regular

theorem RegularRows.push {meant : Array (List Value)} {row : List Value} (h : RegularRows meant)
    (hr : regular row) :
    RegularRows (meant.push row) := fun r h' => by
  obtain h' | rfl := Array.mem_push.1 h'
  · exact h r h'
  · exact hr

theorem RegularRows.pop {meant : Array (List Value)} (h : RegularRows meant) :
    RegularRows meant.pop := fun r hr => by
  obtain ⟨k, hk⟩ := Array.mem_iff_getElem?.1 hr
  rw [Array.getElem?_pop] at hk
  split at hk
  · exact h r (Array.mem_of_getElem? hk)
  · cases hk

structure Builder.Clean (f : Builder) : Prop where
  pool : ∀ v ∈ f.pool.values, v.Regular
  nested : ∀ p ∈ f.nested, p.Regular
  meant : RegularRows f.meant

structure State.Clean (s : State) : Prop where
  token : s.lexer.token.Regular
  ahead : ∀ t, s.lexer.ahead = some t → t.Regular
  vars : ∀ v ∈ s.vars, v.value.Regular
  fn : s.fn.Clean
  outer : ∀ f ∈ s.outer, f.Clean
  floats : s.spilled = true ∨ ∀ u ∈ s.floats, u.Kept
  closings : ∀ c ∈ s.closings, RegularRows c.meant

end Compile

end LuaChunk
