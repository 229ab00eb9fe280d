import Treewalk.Host.Session
import Treewalk.Proofs.Eval.WellScoped

/-!
# What hosts reach

The sessions that a host comes to, and that no such session holds a function or stands in a scope
that there is not.
-/

namespace Treewalk

theorem interpret_ends {n : Nat} {k : ScopeId} {source : String} {m m' : Machine}
    {r : Except Failure Object} (h : interpret n k source m = some (r, m')) :
    m' = m ∨ ∃ o, Eval.program n k (parse source).program m = some (o, m') := by
  unfold interpret at h
  dsimp only at h
  split at h
  · obtain ⟨⟨o, m₁⟩, ho, heq⟩ := Option.map_eq_some_iff.1 h
    cases heq
    exact .inr ⟨o, ho⟩
  · cases h
    exact .inl rfl

theorem interpret_fails {n : Nat} {k : ScopeId} {source : String} {m m' : Machine}
    {e : RuntimeError} (h : interpret n k source m = some (.error (.runtime e), m')) :
    Eval.program n k (parse source).program m = some (.error e, m') := by
  unfold interpret at h
  dsimp only at h
  split at h
  · obtain ⟨⟨o, m₁⟩, ho, heq⟩ := Option.map_eq_some_iff.1 h
    cases o with
    | error e' =>
      cases heq
      exact ho
    | _ => cases heq
  · cases h

namespace Session

section Ends

variable {s s' : Session} {depth : Nat}

theorem run_ends {source : String} {r : Except Failure Object}
    (h : s.run depth source = some (r, s')) : s' = s ∨ ∃ o m,
      Eval.program depth s.top (parse source).program s.machine = some (o, m) ∧
        s' = { s with machine := m } := by
  obtain ⟨⟨r', m⟩, hinterpret, heq⟩ := Option.map_eq_some_iff.1 h
  cases heq
  rcases interpret_ends hinterpret with rfl | ⟨o, ho⟩
  · exact .inl rfl
  · exact .inr ⟨o, m, ho, rfl⟩

theorem runAnyway_ends {source : String} {errors : Nat} {o : Object}
    (h : s.runAnyway depth source = some (errors, o, s')) : ∃ m,
      Eval.program depth s.top (parse source).program s.machine = some (o, m) ∧
        s' = { s with machine := m } := by
  obtain ⟨⟨_, o', m⟩, hinterpret, heq⟩ := Option.map_eq_some_iff.1 h
  obtain ⟨⟨o₁, m₁⟩, ho, heq'⟩ := Option.map_eq_some_iff.1 hinterpret
  cases heq
  cases heq'
  exact ⟨_, ho, rfl⟩

theorem call_ends {name : String} {arguments : List Object} {o : Option Object}
    (h : s.call depth name arguments = some (o, s')) : s' = s ∨ ∃ f o' m,
      s.machine.get? s.top name = some f ∧
        Eval.call depth f arguments s.machine = some (o', m) ∧ s' = { s with machine := m } := by
  unfold Session.call at h
  split at h
  · cases h
    exact .inl rfl
  · rename_i f hf
    obtain ⟨⟨o', m⟩, hcall, heq⟩ := Option.map_eq_some_iff.1 h
    cases heq
    exact .inr ⟨f, o', m, hf, hcall, rfl⟩

end Ends

/-- What a host can do. The objects that it binds and passes satisfy `p`. -/
inductive Step (p : Machine → Object → Prop) (s : Session) : Session → Prop
  | run {depth : Nat} {source : String} {r : Except Failure Object} {s' : Session} :
    s.run depth source = some (r, s') → Step p s s'
  | runAnyway {depth errors : Nat} {source : String} {o : Object} {s' : Session} :
    s.runAnyway depth source = some (errors, o, s') → Step p s s'
  /-- Runs a program in a scope of its own, which makes objects from elsewhere. -/
  | runApart {depth : Nat} {program : Program} {o : Object} {m : Machine} :
    Eval.program depth s.machine.nextScope program s.machine.newRoot = some (o, m) →
    Step p s { s with machine := m }
  | enter : Step p s s.enter
  | leave : Step p s s.leave
  | set {name : String} {value : Object} : p s.machine value → Step p s (s.set name value)
  | call {depth : Nat} {name : String} {arguments : List Object} {o : Option Object}
      {s' : Session} : (∀ x ∈ arguments, p s.machine x) →
    s.call depth name arguments = some (o, s') → Step p s s'
  /-- Calls an object that need not be bound. -/
  | apply {depth : Nat} {f o : Object} {arguments : List Object} {m : Machine} :
    p s.machine f → (∀ x ∈ arguments, p s.machine x) →
    Eval.call depth f arguments s.machine = some (o, m) → Step p s { s with machine := m }
  | takeOutput : Step p s s.takeOutput.2

/-- The sessions that a host can come to. -/
inductive Reached (p : Machine → Object → Prop) : Session → Prop
  | start : Reached p .start
  | step {s s' : Session} : Reached p s → Step p s s' → Reached p s'

/-- A well scoped machine, on which the host uses scopes that there are. -/
structure WellScoped (s : Session) : Prop where
  machine : s.machine.WellScoped
  top : s.top < s.machine.scopes.size
  below : ∀ k ∈ s.below, k < s.machine.scopes.size

namespace WellScoped

variable {s : Session}

theorem start : Session.start.WellScoped where
  machine := Machine.WellScoped.empty.newRoot
  top := Nat.zero_lt_one
  below := by simp [Session.start]

theorem of_machine (h : s.WellScoped) {m : Machine} (hg : s.machine.Grows m)
    (hm : m.WellScoped) : WellScoped { s with machine := m } where
  machine := hm
  top := Nat.lt_of_lt_of_le h.top hg.size
  below k hk := Nat.lt_of_lt_of_le (h.below k hk) hg.size

theorem run (h : s.WellScoped) {depth : Nat} {source : String} {r : Except Failure Object}
    {s' : Session} (hr : s.run depth source = some (r, s')) : s'.WellScoped := by
  rcases run_ends hr with rfl | ⟨o, m, ho, rfl⟩
  · exact h
  · obtain ⟨hg, hm, -⟩ := Eval.program_wellScoped h.machine h.top ho
    exact h.of_machine hg hm

theorem runAnyway (h : s.WellScoped) {depth errors : Nat} {source : String} {o : Object}
    {s' : Session} (hr : s.runAnyway depth source = some (errors, o, s')) : s'.WellScoped := by
  obtain ⟨m, ho, rfl⟩ := runAnyway_ends hr
  obtain ⟨hg, hm, -⟩ := Eval.program_wellScoped h.machine h.top ho
  exact h.of_machine hg hm

theorem runApart (h : s.WellScoped) {depth : Nat} {program : Program} {o : Object} {m : Machine}
    (hr : Eval.program depth s.machine.nextScope program s.machine.newRoot = some (o, m)) :
    WellScoped { s with machine := m } := by
  have hroot : s.machine.nextScope < s.machine.newRoot.scopes.size := by
    simp [Machine.nextScope, Machine.newRoot]
  have hg : s.machine.Grows s.machine.newRoot := ⟨by simp [Machine.newRoot], Nat.le_refl _⟩
  obtain ⟨hg', hm, -⟩ := Eval.program_wellScoped h.machine.newRoot hroot hr
  exact h.of_machine (hg.trans hg') hm

theorem enter (h : s.WellScoped) : s.enter.WellScoped where
  machine := h.machine.newInside h.top
  top := by simp [Session.enter, Machine.nextScope]
  below k hk := by
    have hlt : k < s.machine.scopes.size := by
      rcases List.mem_cons.1 hk with rfl | hk
      · exact h.top
      · exact h.below k hk
    simpa [Session.enter] using Nat.lt_succ_of_lt hlt

theorem leave (h : s.WellScoped) : s.leave.WellScoped := by
  unfold Session.leave
  split
  · exact h
  · rename_i outer rest hbelow
    have hmem := h.below
    rw [hbelow] at hmem
    exact ⟨h.machine, hmem outer (by simp), fun k hk => hmem k (by simp [hk])⟩

theorem set (h : s.WellScoped) (name : String) {value : Object} (hv : value.KnownTo s.machine) :
    (s.set name value).WellScoped :=
  h.of_machine ⟨by simp, Nat.le_refl _⟩ (h.machine.set s.top name hv)

theorem apply (h : s.WellScoped) {depth : Nat} {f o : Object} {arguments : List Object}
    {m : Machine} (hf : f.KnownTo s.machine) (ha : ∀ x ∈ arguments, x.KnownTo s.machine)
    (hr : Eval.call depth f arguments s.machine = some (o, m)) :
    WellScoped { s with machine := m } := by
  obtain ⟨hg, hm, -⟩ := Eval.call_wellScoped h.machine hf ha hr
  exact h.of_machine hg hm

theorem call (h : s.WellScoped) {depth : Nat} {name : String} {arguments : List Object}
    {o : Option Object} {s' : Session} (ha : ∀ x ∈ arguments, x.KnownTo s.machine)
    (hr : s.call depth name arguments = some (o, s')) : s'.WellScoped := by
  rcases call_ends hr with rfl | ⟨f, o', m, hf, hcall, rfl⟩
  · exact h
  · exact h.apply (h.machine.get? hf) ha hcall

theorem takeOutput (h : s.WellScoped) : s.takeOutput.2.WellScoped :=
  have hg : s.machine.Grows { s.machine with output := "" } := ⟨Nat.le_refl _, Nat.le_refl _⟩
  h.of_machine hg (h.machine.of_scopes rfl hg)

theorem step (h : s.WellScoped) {s' : Session}
    (hs : Step (fun m o => o.KnownTo m) s s') : s'.WellScoped := by
  cases hs with
  | run hr => exact h.run hr
  | runAnyway hr => exact h.runAnyway hr
  | runApart hr => exact h.runApart hr
  | enter => exact h.enter
  | leave => exact h.leave
  | set hv => exact h.set _ hv
  | call ha hr => exact h.call ha hr
  | apply hf ha hr => exact h.apply hf ha hr
  | takeOutput => exact h.takeOutput

end WellScoped

theorem Reached.wellScoped {s : Session} (h : s.Reached fun m o => o.KnownTo m) :
    s.WellScoped := by
  induction h with
  | start => exact .start
  | step _ hs ih => exact ih.step hs

/-! ## What is bound -/

end Session

/-- Programs and calls keep the property of all that is bound. -/
structure Eval.KeepsBound (q : Object → Prop) : Prop where
  program : ∀ {n k p o} {m m' : Machine}, m.Holds (fun _ => True) q →
    Eval.program n k p m = some (o, m') → m'.Holds (fun _ => True) q
  call : ∀ {n f arguments o} {m m' : Machine}, m.Holds (fun _ => True) q → f.Every q →
    (∀ x ∈ arguments, x.Every q) → Eval.call n f arguments m = some (o, m') →
      m'.Holds (fun _ => True) q

namespace Session

section Bound

variable {p : Machine → Object → Prop} {q : Object → Prop} (hq : Eval.KeepsBound q)
  (hp : ∀ m o, p m o → o.Every q)

include hq hp

theorem Step.holds {s s' : Session} (h : Step p s s') (hs : s.machine.Holds (fun _ => True) q) :
    s'.machine.Holds (fun _ => True) q := by
  cases h with
  | run hr =>
    rcases run_ends hr with rfl | ⟨o, m, ho, rfl⟩
    · exact hs
    · exact hq.program hs ho
  | runAnyway hr =>
    obtain ⟨m, ho, rfl⟩ := runAnyway_ends hr
    exact hq.program hs ho
  | runApart hr => exact hq.program hs.newRoot hr
  | enter => exact hs.newInside trivial
  | leave =>
    unfold Session.leave
    split <;> exact hs
  | set hv => exact hs.set s.top _ (hp _ _ hv)
  | call ha hr =>
    rcases call_ends hr with rfl | ⟨f, o, m, hf, hcall, rfl⟩
    · exact hs
    · exact hq.call hs (hs.get? trivial hf) (fun x hx => hp _ _ (ha x hx)) hcall
  | apply hf ha hr => exact hq.call hs (hp _ _ hf) (fun x hx => hp _ _ (ha x hx)) hr
  | takeOutput => exact hs.of_scopes rfl

theorem Reached.holds {s : Session} (h : s.Reached p) : s.machine.Holds (fun _ => True) q := by
  induction h with
  | start => exact Machine.Holds.empty.newRoot
  | step _ hs ih => exact hs.holds hq hp ih

end Bound

end Session

end Treewalk
