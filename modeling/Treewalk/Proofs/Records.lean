import Treewalk.Run

/-!
# Runs that keep a record

Beside its state such a run keeps a record, which no step looks at. Without the record it is a run
over the states alone.
-/

namespace Treewalk.Run

variable {σ τ ε α β : Type}

/-- The run with a record that it leaves as it is. -/
def beside (x : Run σ ε α) : Run (σ × τ) ε α := fun (s, t) => (x s).map fun (r, s') => (r, s', t)

theorem beside_eq {x : Run σ ε α} {s s' : σ} {r : Except ε α} (h : x s = some (r, s')) (t : τ) :
    beside x (s, t) = some (r, s', t) := by
  rw [beside, h]
  rfl

/-- Without the record the run is `y`. -/
def Erases (x : Run (σ × τ) ε α) (y : Run σ ε α) : Prop :=
  ∀ s t, (x (s, t)).map (fun (r, s', _) => (r, s')) = y s

namespace Erases

variable {x : Run (σ × τ) ε α} {y : Run σ ε α}

theorem beside (y : Run σ ε α) : Erases (Run.beside y : Run (σ × τ) ε α) y := by
  intro s t
  simp only [Run.beside]
  cases y s <;> rfl

theorem pure (a : α) : Erases (Pure.pure a : Run (σ × τ) ε α) (Pure.pure a) :=
  fun _ _ => rfl

theorem exhausted : Erases (Run.exhausted : Run (σ × τ) ε α) Run.exhausted :=
  fun _ _ => rfl

theorem bind {f : α → Run (σ × τ) ε β} {g : α → Run σ ε β} (hx : Erases x y)
    (hf : ∀ a, Erases (f a) (g a)) : Erases (x >>= f) (y >>= g) := by
  intro s t
  rw [bind_apply, bind_apply, ← hx s t]
  rcases x (s, t) with _ | ⟨e | a, s₁, t₁⟩
  · rfl
  · rfl
  · exact hf a s₁ t₁

theorem attempt (hx : Erases x y) : Erases x.attempt y.attempt := by
  intro s t
  rw [attempt_apply, attempt_apply, ← hx s t]
  cases x (s, t) <;> rfl

end Erases

end Treewalk.Run
