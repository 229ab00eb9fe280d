import Treewalk.Run

/-!
# What ends of a run satisfy

A run without an end satisfies everything, so these are laws of terminating runs.
-/

namespace Treewalk.Run

variable {σ ε α β : Type}

/-- Every end of the run from `s` satisfies `post`. -/
def Meets (x : Run σ ε α) (s : σ) (post : Except ε α → σ → Prop) : Prop :=
  ∀ r t, x s = some (r, t) → post r t

theorem Meets.mono {x : Run σ ε α} {s : σ} {post post' : Except ε α → σ → Prop}
    (h : x.Meets s post) (hp : ∀ r t, post r t → post' r t) : x.Meets s post' :=
  fun r t hx => hp r t (h r t hx)

/-! ## Sequences -/

theorem bind_ends {x : Run σ ε α} {f : α → Run σ ε β} {s t : σ} {r : Except ε β}
    (h : (x >>= f) s = some (r, t)) :
    (∃ e, x s = some (.error e, t) ∧ r = .error e) ∨
      ∃ a u, x s = some (.ok a, u) ∧ f a u = some (r, t) := by
  rw [bind_apply] at h
  split at h
  · exact Or.inr ⟨_, _, by assumption, h⟩
  · cases h
    exact Or.inl ⟨_, by assumption, rfl⟩
  · cases h

theorem attempt_ends {x : Run σ ε α} {s t : σ} {r : Except ε (Except ε α)}
    (h : x.attempt s = some (r, t)) : ∃ found, r = .ok found ∧ x s = some (found, t) := by
  rw [attempt_apply] at h
  obtain ⟨⟨found, u⟩, hx, heq⟩ := Option.map_eq_some_iff.1 h
  cases heq
  exact ⟨found, rfl, hx⟩

/-- A law of states that holds at the start holds at the end, of values `P` and of early ends
`E`. -/
def Keeps (I : σ → Prop) (E : ε → Prop) (P : α → Prop) (x : Run σ ε α) : Prop :=
  ∀ s, I s → x.Meets s fun r t => I t ∧ match r with
    | .ok a => P a
    | .error e => E e

section Keeps

variable {I : σ → Prop} {E : ε → Prop} {P Q : α → Prop}

theorem Keeps.pure {a : α} (h : P a) : Keeps I E P (Pure.pure a) := by
  rintro s hs r t hr
  cases hr
  exact ⟨hs, h⟩

theorem Keeps.exit {e : ε} (h : E e) : Keeps I E P (exit e) := by
  rintro s hs r t hr
  cases hr
  exact ⟨hs, h⟩

theorem Keeps.exhausted : Keeps I E P exhausted := by
  rintro s _ r t hr
  cases hr

theorem Keeps.get : Keeps I E I (get : Run σ ε σ) := by
  rintro s hs r t hr
  cases hr
  exact ⟨hs, hs⟩

theorem Keeps.modify {f : σ → σ} (h : ∀ s, I s → I (f s)) :
    Keeps I E (fun _ => True) (modify f : Run σ ε Unit) := by
  rintro s hs r t hr
  cases hr
  exact ⟨h s hs, trivial⟩

theorem Keeps.bind {R : β → Prop} {x : Run σ ε α} {f : α → Run σ ε β} (hx : Keeps I E P x)
    (hf : ∀ a, P a → Keeps I E R (f a)) : Keeps I E R (x >>= f) := by
  rintro s hs r t hr
  rcases bind_ends hr with ⟨e, he, rfl⟩ | ⟨a, u, ha, hu⟩
  · exact hx s hs _ _ he
  · obtain ⟨hi, hp⟩ := hx s hs _ _ ha
    exact hf a hp u hi r t hu

theorem Keeps.mono {F : ε → Prop} {x : Run σ ε α} (hx : Keeps I E P x) (hp : ∀ a, P a → Q a)
    (he : ∀ e, E e → F e) : Keeps I F Q x := by
  intro s hs
  refine (hx s hs).mono ?_
  rintro (e | a) t ⟨hi, h⟩
  · exact ⟨hi, he e h⟩
  · exact ⟨hi, hp a h⟩

end Keeps

/-- A relation of states that no step and any sequence of steps obeys. -/
structure Composes (R : σ → σ → Prop) : Prop where
  refl : ∀ s, R s s
  trans : ∀ {s t u}, R s t → R t u → R s u

/-- The state at the end relates to the state at the start. -/
def Relates (R : σ → σ → Prop) (x : Run σ ε α) : Prop := ∀ s, x.Meets s fun _ t => R s t

section Relates

variable {R S : σ → σ → Prop}

theorem Relates.mono {x : Run σ ε α} (hx : Relates R x) (h : ∀ s t, R s t → S s t) :
    Relates S x := fun s r t hr => h s t (hx s r t hr)

theorem Relates.exhausted : Relates R (exhausted : Run σ ε α) := by
  intro s r t hr
  cases hr

theorem Relates.pure (hR : Composes R) {a : α} : Relates R (Pure.pure a : Run σ ε α) := by
  intro s r t hr
  cases hr
  exact hR.refl s

theorem Relates.exit (hR : Composes R) {e : ε} : Relates R (exit e : Run σ ε α) := by
  intro s r t hr
  cases hr
  exact hR.refl s

theorem Relates.get (hR : Composes R) : Relates R (get : Run σ ε σ) := by
  intro s r t hr
  cases hr
  exact hR.refl s

theorem Relates.modify {f : σ → σ} (h : ∀ s, R s (f s)) :
    Relates R (modify f : Run σ ε Unit) := by
  intro s r t hr
  cases hr
  exact h s

theorem Relates.bind (hR : Composes R) {x : Run σ ε α} {f : α → Run σ ε β} (hx : Relates R x)
    (hf : ∀ a, Relates R (f a)) : Relates R (x >>= f) := by
  intro s r t hr
  rcases bind_ends hr with ⟨e, he, -⟩ | ⟨a, u, ha, hu⟩
  · exact hx s _ _ he
  · exact hR.trans (hx s _ _ ha) (hf a u _ _ hu)

end Relates

/-! ## More answers -/

/-- Every answer of `x` is the answer of `y`. -/
def Refines (x y : Run σ ε α) : Prop := ∀ s r, x s = some r → y s = some r

namespace Refines

variable {x y : Run σ ε α}

theorem refl (x : Run σ ε α) : Refines x x := fun _ _ h => h

theorem trans {z : Run σ ε α} (h : Refines x y) (h' : Refines y z) : Refines x z :=
  fun s r hr => h' s r (h s r hr)

theorem exhausted : Refines (exhausted : Run σ ε α) y := by
  intro s r h
  cases h

theorem bind {f g : α → Run σ ε β} (h : Refines x y) (hf : ∀ a, Refines (f a) (g a)) :
    Refines (x >>= f) (y >>= g) := by
  rintro s ⟨r, t⟩ hr
  rcases bind_ends hr with ⟨e, he, rfl⟩ | ⟨a, u, ha, hu⟩
  · exact bind_error (h s _ he)
  · rw [bind_ok (h s _ ha)]
    exact hf a u _ hu

theorem attempt (h : Refines x y) : Refines x.attempt y.attempt := by
  intro s r hr
  rw [attempt_apply] at hr ⊢
  obtain ⟨r', hx, rfl⟩ := Option.map_eq_some_iff.1 hr
  rw [h s r' hx]
  rfl

theorem of_le {x : Nat → Run σ ε α} (h : ∀ n, Refines (x n) (x (n + 1))) {n m : Nat}
    (hnm : n ≤ m) : Refines (x n) (x m) := by
  induction hnm with
  | refl => exact .refl _
  | step _ ih => exact ih.trans (h _)

end Refines

/-! ## Two runs side by side -/

section Alike

variable {σ' ε' α' β' : Type}

/-- Related results, or related early ends. -/
def EndsAlike (E : ε → ε' → Prop) (P : α → α' → Prop) : Except ε α → Except ε' α' → Prop
  | .ok a, .ok a' => P a a'
  | .error e, .error e' => E e e'
  | _, _ => False

/-- From related states both runs end, related in all, or neither does. -/
def Alike (M : σ → σ' → Prop) (E : ε → ε' → Prop) (P : α → α' → Prop) (x : Run σ ε α)
    (x' : Run σ' ε' α') : Prop :=
  ∀ s s', M s s' → Option.Rel (fun u u' => EndsAlike E P u.1 u'.1 ∧ M u.2 u'.2) (x s) (x' s')

variable {M : σ → σ' → Prop} {E : ε → ε' → Prop} {P : α → α' → Prop} {Q : β → β' → Prop}

theorem Alike.pure {a : α} {a' : α'} (h : P a a') :
    Alike M E P (Pure.pure a) (Pure.pure a') := fun _ _ hs => .some ⟨h, hs⟩

theorem Alike.exit {e : ε} {e' : ε'} (h : E e e') : Alike M E P (exit e) (exit e') :=
  fun _ _ hs => .some ⟨h, hs⟩

theorem Alike.exhausted : Alike M E P exhausted exhausted := fun _ _ _ => .none

theorem Alike.get : Alike M E M (get : Run σ ε σ) (get : Run σ' ε' σ') :=
  fun _ _ hs => .some ⟨hs, hs⟩

theorem Alike.modify {f : σ → σ} {f' : σ' → σ'} (h : ∀ s s', M s s' → M (f s) (f' s')) :
    Alike M E (fun _ _ => True) (modify f : Run σ ε Unit) (modify f' : Run σ' ε' Unit) :=
  fun s s' hs => .some ⟨trivial, h s s' hs⟩

theorem Alike.bind {x : Run σ ε α} {x' : Run σ' ε' α'} {f : α → Run σ ε β}
    {f' : α' → Run σ' ε' β'} (hx : Alike M E P x x')
    (hf : ∀ a a', P a a' → Alike M E Q (f a) (f' a')) : Alike M E Q (x >>= f) (x' >>= f') := by
  intro s s' hs
  rw [bind_apply, bind_apply]
  have hstep := hx s s' hs
  generalize x s = u, x' s' = u' at hstep
  cases hstep with
  | none => exact .none
  | @some u u' h =>
    obtain ⟨r, t⟩ := u
    obtain ⟨r', t'⟩ := u'
    obtain ⟨hr, ht⟩ := h
    cases r <;> cases r'
    · exact .some ⟨hr, ht⟩
    · exact hr.elim
    · exact hr.elim
    · exact hf _ _ hr t t' ht

end Alike

end Treewalk.Run
