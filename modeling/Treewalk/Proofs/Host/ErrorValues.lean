import Treewalk.Proofs.Host.Reached
import Treewalk.Proofs.Value.Messages

/-!
# Errors are told apart by their messages

All errors that runs end with give the counts of arguments that built-in functions take. So two of
them with one message are one error.
-/

namespace Treewalk

/-! ## Errors that are true to arity -/

theorem RuntimeError.Operational.trueToArity {e : RuntimeError} (h : e.Operational) :
    e.TrueToArity := by
  cases e <;> trivial

/-- An error only if it is true to arity. -/
def Object.TrueToArity (o : Object) : Prop := ∀ e, o = .error e → e.TrueToArity

/-- The law of machines that bind no other errors, even inside objects. -/
abbrev Law.trueToArity : Law where
  lawful m := m.Holds (fun _ => True) Object.TrueToArity
  leads _ _ := True
  vouches _ := Object.TrueToArity
  refl _ := trivial
  trans _ _ := trivial
  mono _ h := h
  plain _ := by constructor <;> simp [Object.TrueToArity]
  error _ e h _ heq := Object.error.inj heq ▸ h.trueToArity

namespace Eval

open Law

variable {m : Machine}

theorem trueToArity_named (s : ScopeId) (name : String) : trueToArity.Gives m (named s name) := by
  refine gives_bound (fun (hm : m.Holds _ _) _ => hm.get? trivial) fun _ _ => ?_
  simp [Object.Every, Object.parts, Object.TrueToArity, RuntimeError.TrueToArity]

theorem trueToArity_upheld : trueToArity.Upheld fun _ _ => True where
  stays _ _ := trivial
  named _ name := trueToArity_named _ name
  bind _ _ _ hv := .modify trivial (fun (hm : Machine.Holds _ _ _) => hm.set _ _ hv) trivial
  closure _ _ _ := by
    intro hm r m' hr
    cases hr
    exact ⟨trivial, hm.of_scopes rfl, by simp [Object.Every, Object.parts, Object.TrueToArity]⟩
  enter _ ha := by
    intro hm r m' hr
    cases hr
    refine ⟨trivial, (hm.newInside trivial).setAll _ fun b hb => ?_, trivial⟩
    exact ha b.2 (List.of_mem_zip hb).2
  print m text := by
    have hsame : (m.print text).scopes = m.scopes := rfl
    exact .modify trivial (fun (hm : m.Holds _ _) => hm.of_scopes hsame) trivial

theorem program_trueToArity (hm : m.Holds (fun _ => True) Object.TrueToArity) {n : Nat}
    {s : ScopeId} {p : Program} {o : Object} {m' : Machine} (h : program n s p m = some (o, m')) :
    m'.Holds (fun _ => True) Object.TrueToArity ∧ o.Every Object.TrueToArity :=
  have hgives := (giving trueToArity_upheld n).sequence trueToArity_upheld (s := s) trivial p
  (outcome_lawful hgives hm h).2

theorem call_trueToArity (hm : m.Holds (fun _ => True) Object.TrueToArity) {n : Nat} {f : Object}
    {arguments : List Object} (hf : f.Every Object.TrueToArity)
    (ha : ∀ x ∈ arguments, x.Every Object.TrueToArity) {o : Object} {m' : Machine}
    (h : call n f arguments m = some (o, m')) :
    m'.Holds (fun _ => True) Object.TrueToArity ∧ o.Every Object.TrueToArity :=
  (outcome_lawful ((giving trueToArity_upheld n).apply m f arguments hf ha) hm h).2

theorem keepsBound_trueToArity : KeepsBound Object.TrueToArity where
  program hm h := (program_trueToArity hm h).1
  call hm hf ha h := (call_trueToArity hm hf ha h).1

end Eval

/-! ## Errors that runs end with -/

namespace RuntimeError

/-- A program or a call ends with the error, in a session whose host brings in only objects with
property `p`. -/
inductive Ends (p : Object → Prop) (e : RuntimeError) : Prop
  | program {s : Session} {n : Nat} {k : ScopeId} {program : Program} {m : Machine} :
    s.Reached (fun _ => p) → Eval.program n k program s.machine = some (.error e, m) → Ends p e
  | call {s : Session} {n : Nat} {f : Object} {arguments : List Object} {m : Machine} :
    s.Reached (fun _ => p) → p f → (∀ x ∈ arguments, p x) →
    Eval.call n f arguments s.machine = some (.error e, m) → Ends p e

/-- A run ends with the error. Hosts may bring in errors that runs before ended with, over at most
`n` runs in a row. -/
def RaisedWithin : Nat → RuntimeError → Prop
  | 0, _ => False
  | n + 1, e => Ends (fun o => ∀ e', .error e' ∈ o.parts → RaisedWithin n e') e

def Raised (e : RuntimeError) : Prop := ∃ n, RaisedWithin n e

theorem Ends.trueToArity {p : Object → Prop} {e : RuntimeError} (h : Ends p e)
    (hp : ∀ o, p o → o.Every Object.TrueToArity) : e.TrueToArity := by
  cases h with
  | program hs ho =>
    have hm := hs.holds Eval.keepsBound_trueToArity fun _ => hp
    exact (Eval.program_trueToArity hm ho).2.self e rfl
  | call hs hf ha ho =>
    have hm := hs.holds Eval.keepsBound_trueToArity fun _ => hp
    exact (Eval.call_trueToArity hm (hp _ hf) (fun x hx => hp x (ha x hx)) ho).2.self e rfl

theorem RaisedWithin.trueToArity {n : Nat} {e : RuntimeError} (h : RaisedWithin n e) :
    e.TrueToArity := by
  induction n generalizing e with
  | zero => exact h.elim
  | succ n ih =>
    refine Ends.trueToArity h fun o ho x hx e' heq => ?_
    exact ih (ho e' (heq ▸ hx))

theorem Raised.trueToArity {e : RuntimeError} (h : e.Raised) : e.TrueToArity :=
  have ⟨_, h⟩ := h
  h.trueToArity

end RuntimeError

/-- Any two errors that runs end with are one error if and only if they have one message; as objects
they are equal if and only if they look alike. -/
theorem errors_by_message {e e' : RuntimeError} (he : e.Raised) (he' : e'.Raised) :
    (e.message = e'.message ↔ e = e') ∧
      ((Object.error e).display = (Object.error e').display ↔
        (Object.error e).same (.error e') = true) := by
  have hmessage : e.message = e'.message ↔ e = e' :=
    ⟨RuntimeError.message_inj he.trueToArity he'.trueToArity, congrArg _⟩
  refine ⟨hmessage, ?_⟩
  rw [Object.same_iff, Object.error.injEq, ← hmessage, Object.display, Object.display,
    String.append_right_inj]

theorem errors_by_message_bound :
    let e : RuntimeError := .builtinArity .len 1
    let e' : RuntimeError := .builtinArity .push 2
    let s := Session.start.set "x" (.error e)
    (interpret 4 Machine.root "len(1, 2)" .fresh).map (·.1) = some (.error (.runtime e)) ∧
    (interpret 4 Machine.root "[1, x]" s.machine).map (·.1) = some (.error (.runtime e)) ∧
    (interpret 4 Machine.root "push([])" s.machine).map (·.1) = some (.error (.runtime e')) ∧
    e.Raised ∧ e'.Raised ∧ (e.message = e'.message ↔ e = e') ∧ e.message ≠ e'.message ∧
    ((Object.error e).display = (Object.error e).display ↔
      (Object.error e).same (.error e) = true) := by
  intro e e' s
  have hfirst : (interpret 4 Machine.root "len(1, 2)" .fresh).map (·.1) =
    some (.error (.runtime e)) := by decide +kernel
  have hbound : (interpret 4 Machine.root "[1, x]" s.machine).map (·.1) =
    some (.error (.runtime e)) := by decide +kernel
  have hother : (interpret 4 Machine.root "push([])" s.machine).map (·.1) =
    some (.error (.runtime e')) := by decide +kernel
  have hwithin : RuntimeError.RaisedWithin 1 e := by
    obtain ⟨⟨_, m⟩, h, rfl⟩ := Option.map_eq_some_iff.1 hfirst
    exact .program .start (interpret_fails h)
  have hs : s.Reached fun _ o => ∀ e', .error e' ∈ o.parts → RuntimeError.RaisedWithin 1 e' := by
    refine .step .start (.set fun e' he' => ?_)
    obtain rfl : e' = e := by simpa [Object.parts] using he'
    exact hwithin
  have he : e.Raised := by
    obtain ⟨⟨_, m⟩, h, rfl⟩ := Option.map_eq_some_iff.1 hbound
    exact ⟨2, .program hs (interpret_fails h)⟩
  have he' : e'.Raised := by
    obtain ⟨⟨_, m⟩, h, rfl⟩ := Option.map_eq_some_iff.1 hother
    exact ⟨2, .program hs (interpret_fails h)⟩
  obtain ⟨hmessage, -⟩ := errors_by_message he he'
  have hne : e ≠ e' := by decide
  exact ⟨hfirst, hbound, hother, he, he', hmessage, mt hmessage.1 hne, (errors_by_message he he).2⟩

end Treewalk
