import LuaChunk.Compile.Chunk
import LuaChunk.Proofs.Code.Lists
import LuaChunk.Proofs.Source.Progress

/-!
What is recorded of a run, and what of it holds at every end. An assignment and a function statement
are recorded with the name that is their whole target, if it is one, and with what declares it; they
are refused just if that is read-only. And at every moment the lists of jumps that are held are in
order.
-/

set_option autoImplicit false

namespace LuaChunk

namespace Failure

def refusalStart : Bytes := utf8 "attempt to assign to const variable '"

/-- Whether a failure refuses a write. -/
def isRefusal : Failure → Bool
  | .error e => decide (e.kind = .semantic) && refusalStart.isPrefixOf e.message
  | _ => false

/-- The failure refuses a write to the variable with a name. -/
def Refuses (name : Bytes) : Failure → Prop
  | .error e => e.kind = .semantic ∧ e.message = refusalStart ++ name ++ utf8 "'"
  | _ => False

theorem Lexical.isRefusal {e : Failure} (h : e.Lexical) : e.isRefusal = false := by
  cases e with
  | error e =>
    have hk : e.kind ≠ .semantic := by rw [show e.kind = .lexical from h]; nofun
    rw [Failure.isRefusal, decide_eq_false hk, Bool.false_and]
  | read | broken => rfl

end Failure

namespace Compile

/-- Whether variables of this kind keep their first value. -/
def VarKind.isReadOnly : VarKind → Bool
  | .const | .toClose | .compileTime | .constGlobal => true
  | .regular | .global => false

/-- Whether the variable may not be written: it is a constant of some kind, or controls a loop. -/
def Variable.isReadOnly (v : Variable) : Bool := v.control || v.kind.isReadOnly

def Controls (vars : Array Variable) : Prop :=
  ∀ (k : Nat) (v : Variable), vars[k]? = some v → v.control = true → v.kind.isReadOnly = true

namespace Write

/-- Whether the whole target is the name of a read-only variable. -/
def isReadOnly (w : Write) : Bool := w.declaration.any Variable.isReadOnly

structure Allowed (w : Write) : Prop where
  writable : w.isReadOnly = false
  passed : w.refused = none

structure Refused (w : Write) (name : Bytes) : Prop where
  readOnly : w.isReadOnly = true
  named : w.name = some name
  refused : w.refused = some name

end Write

/-- The lists that are held have all jumps of the function in them that have no destination, each
jump in one list and once; every goto that waits is a list; and no list is used twice at the same
time. -/
structure Moment.Sound (m : Moment) : Prop where
  lists : ∃ lists : List (List Nat), JumpList.Threads m.code m.aims lists ∧
    (∀ p, m.held p ↔ ∃ ms ∈ lists, ms.head? = some p) ∧ ∀ p ∈ m.gotos, [p] ∈ lists
  apart : (m.used.filterMap id ++ m.gotos).Nodup
  held : ∀ p, some p ∈ m.used → m.held p

/-- What an action that does not fail adds to what is recorded: tokens are taken of those that were
left, no name is taken for a wrong declaration, functions are finished, variables are written that
may be, and lists of jumps are in order. -/
structure Logs (s s' : State) : Prop where
  tokens : s'.lexer.taken + s'.lexer.measure = s.lexer.taken + s.lexer.measure
  strayed : s'.strayed = s.strayed
  closings : ∀ c ∈ s.closings, c ∈ s'.closings
  moments : ∀ m, s'.moments m → s.moments m ∨ m.Sound
  writes : ∃ ws : List Write, s'.writes.toList = s.writes.toList ++ ws ∧ ∀ w ∈ ws, w.Allowed

namespace Logs

variable {s s' s'' : State}

theorem of_same (hl : s'.lexer = s.lexer) (hs : s'.strayed = s.strayed)
    (hc : s'.closings = s.closings)
    (hw : s'.writes = s.writes) (hm : s'.moments = s.moments) : Logs s s' :=
  ⟨by rw [hl], hs, fun _ h => hc ▸ h, fun _ h => .inl (hm ▸ h), [],
    by rw [hw, List.append_nil], List.forall_mem_nil _⟩

theorem refl (s : State) : Logs s s := .of_same rfl rfl rfl rfl rfl

theorem trans (h : Logs s s') (h' : Logs s' s'') : Logs s s'' := by
  obtain ⟨ws, hw, ha⟩ := h.writes
  obtain ⟨ws', hw', ha'⟩ := h'.writes
  refine ⟨h'.tokens.trans h.tokens, h'.strayed.trans h.strayed,
    fun c hc => h'.closings c (h.closings c hc),
    fun m hm => (h'.moments m hm).elim (h.moments m) .inr, ws ++ ws', ?_, ?_⟩
  · rw [hw', hw, List.append_assoc]
  · exact fun w hm => (List.mem_append.1 hm).elim (ha w) (ha' w)

end Logs

/-- What is recorded when an action fails. The failure is an error of the source; it refuses a write
just if the last write was to a read-only variable; and lists of jumps are in order. -/
structure Aborts (s : State) (e : Failure) (s' : State) : Prop where
  reported : e.Reported
  strayed : s'.strayed = s.strayed
  moments : ∀ m, s'.moments m → s.moments m ∨ m.Sound
  writes : ∃ ws : List Write, (∀ w ∈ ws, w.Allowed) ∧
    (s'.writes.toList = s.writes.toList ++ ws ∧ e.isRefusal = false ∨
      ∃ w name, s'.writes.toList = s.writes.toList ++ ws ++ [w] ∧ w.Refused name ∧ e.Refuses name)

namespace Aborts

variable {s s' s'' : State} {e : Failure}

theorem of_same (hr : e.Reported) (he : e.isRefusal = false) (hs : s'.strayed = s.strayed)
    (hw : s'.writes = s.writes)
    (hm : s'.moments = s.moments) : Aborts s e s' :=
  ⟨hr, hs, fun _ h => .inl (hm ▸ h), [], List.forall_mem_nil _,
    .inl ⟨by rw [hw, List.append_nil], he⟩⟩

theorem after (h : Aborts s' e s'') (hl : Logs s s') : Aborts s e s'' := by
  obtain ⟨ws, hw, ha⟩ := hl.writes
  obtain ⟨ws', ha', hcases⟩ := h.writes
  refine ⟨h.reported, h.strayed.trans hl.strayed,
    fun m hm => (h.moments m hm).elim (hl.moments m) .inr, ws ++ ws',
    fun w hm => (List.mem_append.1 hm).elim (ha w) (ha' w), ?_⟩
  rw [hw] at hcases
  obtain ⟨h₁, h₂⟩ | ⟨w, name, h₁, h₂⟩ := hcases
  · exact .inl ⟨by rw [h₁, List.append_assoc], h₂⟩
  · exact .inr ⟨w, name, by rw [h₁, List.append_assoc _ ws ws'], h₂⟩

end Aborts

end Compile

end LuaChunk
