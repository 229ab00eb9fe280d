/-!
# Bounded runs

A computation over a state. It may stop early, keeping the state that it has reached, and it gives
no answer at all when its depth does not suffice.
-/

namespace Treewalk

/-- A run over states `σ` ends with a result `α` or early with an `ε`; `none` is a lack of depth. -/
def Run (σ ε α : Type) : Type := σ → Option (Except ε α × σ)

namespace Run

variable {σ ε α β : Type}

@[always_inline, inline]
def pure (a : α) : Run σ ε α := fun s => some (.ok a, s)

@[always_inline, inline]
def bind (x : Run σ ε α) (f : α → Run σ ε β) : Run σ ε β := fun s =>
  match x s with
  | some (.ok a, t) => f a t
  | some (.error e, t) => some (.error e, t)
  | none => none

instance : Monad (Run σ ε) where
  pure := pure
  bind := bind

/-- Depth ran out. -/
def exhausted : Run σ ε α := fun _ => none

/-- Stops early. -/
def exit (e : ε) : Run σ ε α := fun s => some (.error e, s)

def get : Run σ ε σ := fun s => some (.ok s, s)

def modify (f : σ → σ) : Run σ ε Unit := fun s => some (.ok (), f s)

/-- Turns an early stop into a result. -/
@[always_inline, inline]
def attempt (x : Run σ ε α) : Run σ ε (Except ε α) := fun s =>
  match x s with
  | some (r, t) => some (.ok r, t)
  | none => none

/-! ## What each step does to the state -/

@[simp] theorem pure_apply (a : α) (s : σ) : (Pure.pure a : Run σ ε α) s = some (.ok a, s) := rfl

@[simp] theorem exhausted_apply (s : σ) : (exhausted : Run σ ε α) s = none := rfl

@[simp] theorem exit_apply (e : ε) (s : σ) : (exit e : Run σ ε α) s = some (.error e, s) := rfl

@[simp] theorem get_apply (s : σ) : (get : Run σ ε σ) s = some (.ok s, s) := rfl

@[simp] theorem modify_apply (f : σ → σ) (s : σ) :
    (modify f : Run σ ε Unit) s = some (.ok (), f s) := rfl

theorem bind_apply (x : Run σ ε α) (f : α → Run σ ε β) (s : σ) :
    (x >>= f) s = match x s with
      | some (.ok a, t) => f a t
      | some (.error e, t) => some (.error e, t)
      | none => none := rfl

theorem attempt_apply (x : Run σ ε α) (s : σ) :
    x.attempt s = (x s).map fun (r, t) => (.ok r, t) := by
  unfold attempt
  cases x s <;> rfl

theorem bind_ok {x : Run σ ε α} {f : α → Run σ ε β} {s t : σ} {a : α} (h : x s = some (.ok a, t)) :
    (x >>= f) s = f a t := by
  rw [bind_apply, h]

theorem bind_error {x : Run σ ε α} {f : α → Run σ ε β} {s t : σ} {e : ε}
    (h : x s = some (.error e, t)) : (x >>= f) s = some (.error e, t) := by
  rw [bind_apply, h]

theorem bind_none {x : Run σ ε α} {f : α → Run σ ε β} {s : σ} (h : x s = none) :
    (x >>= f) s = none := by
  rw [bind_apply, h]

instance : LawfulMonad (Run σ ε) :=
  LawfulMonad.mk' _
    (fun x => by
      funext s
      show (match x s with
        | some (.ok a, t) => some (.ok a, t)
        | some (.error e, t) => some (.error e, t)
        | none => none) = x s
      rcases x s with _ | ⟨_ | _, _⟩ <;> rfl)
    (fun _ _ => rfl)
    (fun x _ _ => by
      funext s
      simp only [bind_apply]
      rcases x s with _ | ⟨_ | _, _⟩ <;> rfl)

end Run

end Treewalk
