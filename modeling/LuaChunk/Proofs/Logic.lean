import LuaChunk.Source.Error

set_option autoImplicit false

namespace LuaChunk

def Failure.Reported : Failure → Prop
  | .error _ => True
  | _ => False

def Failure.Lexical : Failure → Prop
  | .error e => e.kind = .lexical
  | _ => False

theorem Failure.Lexical.reported {e : Failure} (h : e.Lexical) : e.Reported := by
  cases e with
  | error => trivial
  | read | broken => exact h

def Ok {σ α : Type} (m : EStateM Failure σ α) (s : σ) (Q : α → σ → Prop) : Prop :=
  match m s with
  | .ok a s' => Q a s'
  | .error e _ => e.Lexical

namespace Ok

section

variable {σ α β : Type} {m : EStateM Failure σ α} {s : σ} {Q R : α → σ → Prop}

theorem mono (h : Ok m s R) (hi : ∀ a s', R a s' → Q a s') : Ok m s Q := by
  unfold Ok at h ⊢
  split at h <;> simp_all

theorem of_eq {m' : EStateM Failure σ α} (heq : m s = m' s) (h : Ok m' s Q) : Ok m s Q := by
  unfold Ok at h ⊢
  rw [heq]
  exact h

theorem bind_iff {f : α → EStateM Failure σ β} {P : β → σ → Prop} :
    Ok (m >>= f) s P ↔ Ok m s fun a s' => Ok (f a) s' P := by
  unfold Ok
  show (match EStateM.bind m f s with | .ok a s' => P a s' | .error e _ => e.Lexical) ↔ _
  unfold EStateM.bind
  cases m s <;> rfl

theorem throw {e : CompileError} (h : e.kind = .lexical) :
    Ok (MonadExcept.throw (Failure.error e)) s Q := h

theorem get_iff {P : σ → σ → Prop} : Ok MonadState.get s P ↔ P s s := Iff.rfl

theorem modify_iff {f : σ → σ} {P : PUnit → σ → Prop} : Ok (modify f) s P ↔ P ⟨⟩ (f s) := Iff.rfl

end

end Ok

end LuaChunk
