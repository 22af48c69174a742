import LuaChunk.Proofs.Compile.Primary
import LuaChunk.Proofs.Source.Stream

/-!
Trees of operators and their texts. A tree can be written with parentheses around every application
of an operator, or with those only that the binding powers of the operators ask for. What makes both
texts right is that an operator is read where its left power is above the power that is asked for,
and that nothing binds tighter that follows it.
-/

set_option autoImplicit false

namespace LuaChunk

open Compile

structure Infix where
  op : BinaryOp
  kind : TokenKind
  reads : binaryOp? kind = some op

namespace Infix

def token (i : Infix) : Token := .ofKind i.kind

theorem token_kind (i : Infix) : i.token.kind = i.kind := by
  obtain ⟨op, kind, h⟩ := i
  cases kind <;> rfl

def left (i : Infix) : Nat := i.op.priority.1

def right (i : Infix) : Nat := i.op.priority.2

end Infix

/-- The token of a unary operator. -/
def Compile.UnaryOp.token : UnaryOp → Token
  | .minus => .byte (byte '-')
  | .bnot => .byte (byte '~')
  | .not => .word .not_
  | .len => .byte (byte '#')

/-- An expression of names and constants. -/
inductive Tree where
  | name (s : Bytes)
  | int (n : Int64)
  | float (x : Double)
  | string (s : Bytes)
  | nil
  | true_
  | false_
  | unary (op : UnaryOp) (operand : Tree)
  | binary (op : Infix) (l r : Tree)

namespace Tree

def isOperation : Tree → Bool
  | unary .. | binary .. => true
  | _ => false

def leaf : Tree → Token
  | name s => .name s
  | int n => .integer n []
  | float x => .float x []
  | string s => .string s []
  | nil => .word .nil_
  | true_ => .word .true_
  | false_ => .word .false_
  | unary .. | binary .. => .eos

def parenthesized (ts : List Token) : List Token := .byte (byte '(') :: ts ++ [.byte (byte ')')]

/-- The tree with parentheses around every operation. -/
def full : Tree → List Token
  | unary op t => parenthesized (op.token :: t.full)
  | binary op l r => parenthesized (l.full ++ op.token :: r.full)
  | t => [t.leaf]

def looseOperand : Tree → Bool
  | binary op _ _ => op.left ≤ unaryPriority
  | _ => false

def looseLeft (op : Infix) : Tree → Bool
  | unary .. => unaryPriority < op.left
  | binary inner _ _ => inner.right < op.left
  | _ => false

def looseRight (op : Infix) : Tree → Bool
  | binary inner _ _ => inner.left ≤ op.right
  | _ => false

def guarded (loose : Bool) (ts : List Token) : List Token := if loose then parenthesized ts else ts

/-- The tree with the parentheses only that it needs. -/
def minimal : Tree → List Token
  | unary op t => op.token :: guarded t.looseOperand t.minimal
  | binary op l r =>
    guarded (l.looseLeft op) l.minimal ++ op.token :: guarded (r.looseRight op) r.minimal
  | t => [t.leaf]

/-- The text `ts` of a tree is read whole where operators above `limit` are read, if no operator
follows whose left power is above `stop`. -/
inductive Written : (limit stop : Nat) → Tree → List Token → Prop
  | leaf {limit stop : Nat} {t : Tree} (h : t.isOperation = false) : Written limit stop t [t.leaf]
  | parenthesized {limit stop : Nat} {t : Tree} {ts : List Token} (ht : t.isOperation = true)
    (h : Written 0 0 t ts) :
    Written limit stop t (parenthesized ts)
  | unary {limit stop : Nat} {op : UnaryOp} {t : Tree} {ts : List Token} (hs : stop ≤ unaryPriority)
    (h : Written unaryPriority stop t ts) : Written limit stop (unary op t) (op.token :: ts)
  | binary {limit stop : Nat} {op : Infix} {l r : Tree} {ls rs : List Token} (hl : limit < op.left)
    (hs : stop ≤ op.right)
    (hleft : Written limit op.left l ls) (hright : Written op.right stop r rs) :
    Written limit stop (binary op l r) (ls ++ op.token :: rs)

end Tree

namespace Infix

/-- The binding powers: both are positive, the right one is the left one or one less, and a power of
thirteen is found on the right only. -/
theorem powers (i : Infix) : 0 < i.left ∧ 0 < i.right ∧ i.right ≤ i.left ∧ i.left ≤ i.right + 1 ∧
    i.left ≠ 13 ∧
    i.right ≤ 13 := by
  obtain ⟨op, kind, h⟩ := i
  have htwo : op.TakesTwo := binaryOp?_takesTwo kind op h
  cases op with
  | arith a =>
    have hmmBin := htwo a rfl
    cases a <;> first | (exact absurd hmmBin (by decide)) | simp [left, right, BinaryOp.priority]
  | _ => simp [left, right, BinaryOp.priority]

end Infix

namespace Tree

theorem written_full (t : Tree) (limit stop : Nat) : Written limit stop t t.full := by
  induction t generalizing limit stop with
  | unary op t ih => exact .parenthesized rfl (.unary (Nat.zero_le _) (ih _ _))
  | binary op l r ihl ihr =>
    have hp := op.powers
    exact .parenthesized rfl (.binary hp.1 (Nat.zero_le _) (ihl _ _) (ihr _ _))
  | _ => exact .leaf rfl

/-- Whether a tree can stand without parentheses between two powers. -/
def Fits (limit stop : Nat) : Tree → Prop
  | unary .. => stop ≤ unaryPriority
  | binary op _ _ => limit < op.left ∧ stop ≤ op.right
  | _ => True

theorem fits_zero (t : Tree) : t.Fits 0 0 := by
  cases t with
  | unary => exact Nat.zero_le _
  | binary op => exact ⟨op.powers.1, Nat.zero_le _⟩
  | _ => trivial

theorem written_guarded {limit stop : Nat} {t : Tree} {loose : Bool} {ts : List Token}
    (hloose : loose = true → t.isOperation = true) (hfits : loose = false → t.Fits limit stop)
    (h : ∀ limit stop, stop ≠ 13 → t.Fits limit stop → Written limit stop t ts) (hs : stop ≠ 13) :
    Written limit stop t (guarded loose ts) := by
  cases loose with
  | true => exact .parenthesized (hloose rfl) (h 0 0 (by decide) t.fits_zero)
  | false => exact h limit stop hs (hfits rfl)

theorem written_minimal (t : Tree) (limit stop : Nat) (hs : stop ≠ 13) (hf : t.Fits limit stop) :
    Written limit stop t t.minimal := by
  induction t generalizing limit stop with
  | unary op t ih =>
    have hfits : t.looseOperand = false → t.Fits unaryPriority stop := by
      intro hloose
      cases t with
      | unary => exact hf
      | binary inner l r =>
        have hp := inner.powers
        simp only [looseOperand, decide_eq_false_iff_not] at hloose
        simp only [Fits, unaryPriority] at hf hloose ⊢
        omega
      | _ => trivial
    have hoperation : t.looseOperand = true → t.isOperation = true := by
      cases t <;> simp [looseOperand, isOperation]
    exact .unary hf (written_guarded hoperation hfits ih hs)
  | binary op l r ihl ihr =>
    have hp := op.powers
    have hl : l.looseLeft op = false → l.Fits limit op.left := by
      intro hloose
      cases l with
      | unary => simpa [looseLeft, Fits] using hloose
      | binary inner _ _ =>
        have hi := inner.powers
        simp only [looseLeft, decide_eq_false_iff_not] at hloose
        simp only [Fits] at hf ⊢
        omega
      | _ => trivial
    have hr : r.looseRight op = false → r.Fits op.right stop := by
      intro hloose
      cases r with
      | unary =>
        simp only [Fits, unaryPriority] at hf ⊢
        omega
      | binary inner _ _ =>
        have hi := inner.powers
        simp only [looseRight, decide_eq_false_iff_not] at hloose
        simp only [Fits] at hf ⊢
        omega
      | _ => trivial
    have hlo : l.looseLeft op = true → l.isOperation = true := by
      cases l <;> simp [looseLeft, isOperation]
    have hro : r.looseRight op = true → r.isOperation = true := by
      cases r <;> simp [looseRight, isOperation]
    exact .binary hf.1 hf.2 (written_guarded hlo hl ihl hp.2.2.2.2.1)
      (written_guarded hro hr ihr hs)
  | _ => exact .leaf rfl

end Tree

end LuaChunk
