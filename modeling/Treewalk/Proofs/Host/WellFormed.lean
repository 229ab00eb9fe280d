import Treewalk.Proofs.Eval.Signals
import Treewalk.Proofs.Host.Reached

/-!
# Sessions stay well formed

No error, no return signal and no misplaced hash pair is ever bound, put into another object or
passed to a function, as long as the host brings none in.
-/

namespace Treewalk

namespace Object

/-- Neither an error nor a return signal, and a hash only with pairs under the hash keys of their
keys. -/
def Regular (o : Object) : Prop :=
  o.isSignal = false ∧ ∀ es, o = .hash es → ∀ e ∈ es, e.key.hashKey? = some e.hashKey

/-- Regular, with all objects inside at any depth. -/
def WellFormed (o : Object) : Prop := o.Every Regular

theorem sturdy_regular : Sturdy (fun _ => True) Regular := by
  constructor <;> simp [Regular, isSignal]
  exact fun _ h => h.keyed

theorem Regular.not_signal {o : Object} (h : o.Regular) : o.isSignal = false := h.1

/-- A well formed object, or an error. -/
def Answers (o : Object) : Prop := o.WellFormed ∨ ∃ e, o = .error e

end Object

/-- All that is bound is well formed. -/
def Machine.WellFormed (m : Machine) : Prop := ∀ k, ∀ b ∈ m.bindings k, b.2.WellFormed

theorem Machine.wellFormed_iff {m : Machine} :
    m.WellFormed ↔ m.Holds (fun _ => True) Object.Regular :=
  ⟨fun h => ⟨fun k _ => h k, fun _ _ _ _ => trivial, fun _ _ => trivial⟩,
    fun h k => h.bindings k trivial⟩

/-- What expressions, statements and blocks may end with. A return signal carries no other one. -/
def Signal.Proper : Except Signal Object → Prop
  | .ok o => o.WellFormed
  | .error (.error _) => True
  | .error (.returning v) => v.WellFormed

/-- The task was given and gave nothing else but well formed objects, errors and, if it was no
call, return signals, and left the machine well formed. -/
structure Trace.WellFormed (t : Trace) : Prop where
  given : ∀ f xs, t.task = .call f xs → f.WellFormed ∧ ∀ x ∈ xs, x.WellFormed
  gave : t.reply.Answers ∨ t.task.isCall = false ∧ ∃ v, t.reply = .returning v ∧ v.WellFormed
  machine : t.stop.WellFormed

theorem Trace.Sane.wellFormed {t : Trace} (h : t.Sane (fun _ => True) Object.Regular) :
    t.WellFormed where
  given := h.given
  gave := by
    rcases h.reply with h | h | h
    · exact .inl (.inl h)
    · exact .inl (.inr h)
    · exact .inr h
  machine := Machine.wellFormed_iff.2 h.holds

/-! ## Evaluation -/

namespace Eval

open Run Object

variable {m m' : Machine}

theorem proper_ends {x : Eval Object} (hx : Sound (fun _ => True) Regular (Every Regular) x)
    (hm : m.WellFormed) {r : Except Signal Object} (h : x m = some (r, m')) :
    Signal.Proper r ∧ m'.WellFormed := by
  obtain ⟨hm', hr⟩ := hx m (Machine.wellFormed_iff.1 hm) r m' h
  refine ⟨?_, Machine.wellFormed_iff.2 hm'⟩
  rcases r with (e | v) | o
  · trivial
  · exact hr
  · exact hr

theorem program_wellFormed (hm : m.WellFormed) {n : Nat} {s : ScopeId} {p : Program} {o : Object}
    (h : program n s p m = some (o, m')) : o.Answers ∧ m'.WellFormed := by
  have hsequence := (steady sturdy_regular n).sequence sturdy_regular (s := s) trivial p
  obtain ⟨hm', ho⟩ := outcome_holds hsequence (Machine.wellFormed_iff.1 hm) h
  exact ⟨ho, Machine.wellFormed_iff.2 hm'⟩

theorem apply_wellFormed (hm : m.WellFormed) {n : Nat} {f : Object} {arguments : List Object}
    (hf : f.WellFormed) (ha : ∀ x ∈ arguments, x.WellFormed) {r : Except Signal Object}
    (h : apply n f arguments m = some (r, m')) :
    ∃ o, r = .ok o ∧ o.Answers ∧ m'.WellFormed := by
  have hcall := (steady sturdy_regular n).apply f arguments hf ha
  obtain ⟨hm', hr⟩ := hcall m (Machine.wellFormed_iff.1 hm) r m' h
  cases r with
  | error s => exact hr.elim
  | ok o => exact ⟨o, rfl, hr, Machine.wellFormed_iff.2 hm'⟩

theorem call_wellFormed (hm : m.WellFormed) {n : Nat} {f : Object} {arguments : List Object}
    (hf : f.WellFormed) (ha : ∀ x ∈ arguments, x.WellFormed) {o : Object}
    (h : call n f arguments m = some (o, m')) : o.Answers ∧ m'.WellFormed := by
  unfold call outcome at h
  split at h
  · cases h
    obtain ⟨o', ho, hanswers⟩ := apply_wellFormed hm hf ha (by assumption)
    cases ho
    exact hanswers
  · obtain ⟨o', ho, -⟩ := apply_wellFormed hm hf ha (by assumption)
    cases ho
  · cases h

theorem program_records (hm : m.WellFormed) {n : Nat} {s : ScopeId} {p : Program} {o : Object}
    (h : program n s p m = some (o, m')) :
    ∃ ts, Traced.program n s p m = some (o, m', ts) ∧ ∀ t : Trace, t.Within ts → t.WellFormed := by
  have herase := Traced.program_erases n s p m
  rw [h] at herase
  obtain ⟨⟨o, m', ts⟩, htraced, heq⟩ := Option.map_eq_some_iff.1 herase
  cases heq
  obtain ⟨hsane, -⟩ := Traced.program_tidy sturdy_regular (fun _ ho => ho.not_signal) trivial
    (Machine.wellFormed_iff.1 hm) htraced
  exact ⟨ts, htraced, fun t ht => (hsane t ht).wellFormed⟩

theorem apply_records (hm : m.WellFormed) {n : Nat} {f : Object} {arguments : List Object}
    (hf : f.WellFormed) (ha : ∀ x ∈ arguments, x.WellFormed) {r : Except Signal Object}
    (h : apply n f arguments m = some (r, m')) :
    ∃ ts, Traced.apply n f arguments (m, []) = some (r, m', ts) ∧
      ∀ t : Trace, t.Within ts → t.WellFormed := by
  have herase := (Traced.faithful n).apply f arguments m []
  rw [h] at herase
  obtain ⟨⟨r, m', ts⟩, htraced, heq⟩ := Option.map_eq_some_iff.1 herase
  cases heq
  have hsane := Traced.apply_tidy sturdy_regular (fun _ ho => ho.not_signal) hf ha
    (Machine.wellFormed_iff.1 hm) htraced
  exact ⟨ts, htraced, fun t ht => (hsane t ht).wellFormed⟩

end Eval

/-! ## Sessions -/

namespace Session

theorem Reached.wellFormed {s : Session} (h : s.Reached fun _ o => o.WellFormed) :
    s.machine.WellFormed := by
  refine Machine.wellFormed_iff.2 (h.holds ⟨fun hm ho => ?_, fun hm hf ha ho => ?_⟩ fun _ _ => id)
  · exact Machine.wellFormed_iff.1 (Eval.program_wellFormed (Machine.wellFormed_iff.2 hm) ho).2
  · exact Machine.wellFormed_iff.1 (Eval.call_wellFormed (Machine.wellFormed_iff.2 hm) hf ha ho).2

/-- Hosts that bind and pass well formed objects only reach well formed machines. On any such
machine, evaluation and calls give nothing but well formed objects, errors and, calls and whole
programs apart, return signals of well formed objects; so does each task that a program or a call
runs inside, and each function that is called is passed well formed objects. -/
theorem sessions_stay_wellFormed :
    (∀ s : Session, s.Reached (fun _ o => o.WellFormed) → s.machine.WellFormed) ∧
    ∀ (n : Nat) (m m' : Machine), m.WellFormed →
      (∀ k e r, Eval.expression n k e m = some (r, m') → Signal.Proper r ∧ m'.WellFormed) ∧
      (∀ k st r, Eval.statement n k st m = some (r, m') → Signal.Proper r ∧ m'.WellFormed) ∧
      (∀ k p o, Eval.program n k p m = some (o, m') → o.Answers ∧ m'.WellFormed ∧
        ∃ ts, Traced.program n k p m = some (o, m', ts) ∧
          ∀ t : Trace, t.Within ts → t.WellFormed) ∧
      ∀ (f : Object) (xs : List Object) r, f.WellFormed → (∀ x ∈ xs, x.WellFormed) →
        Eval.apply n f xs m = some (r, m') → (∃ o, r = .ok o ∧ o.Answers ∧ m'.WellFormed) ∧
          ∃ ts, Traced.apply n f xs (m, []) = some (r, m', ts) ∧
            ∀ t : Trace, t.Within ts → t.WellFormed := by
  refine ⟨fun s hs => hs.wellFormed, fun n m m' hm => ⟨fun k e r h => ?_, fun k st r h => ?_,
    fun k p o h => ?_, fun f xs r hf hxs h => ?_⟩⟩
  · have hsteady := Eval.steady Object.sturdy_regular n
    exact Eval.proper_ends (hsteady.expression k e trivial) hm h
  · have hsteady := Eval.steady Object.sturdy_regular n
    exact Eval.proper_ends (hsteady.statement k st trivial) hm h
  · obtain ⟨ho, hm'⟩ := Eval.program_wellFormed hm h
    exact ⟨ho, hm', Eval.program_records hm h⟩
  · exact ⟨Eval.apply_wellFormed hm hf hxs h, Eval.apply_records hm hf hxs h⟩

/-- A host binds an array; a program puts it into a hash by way of a function that returns early. -/
theorem sessions_stay_wellFormed_hash :
    let name (s : String) : Token := ⟨.ident, s, 1⟩
    let token : Token := ⟨.function, "fn", 1⟩
    let call (f : String) (xs : List Expr) : Expr := .call token (.identifier (name f)) xs
    let more : Expr := call "push" [.identifier (name "y"), .integer token 2]
    let body : Block := ⟨token, [.returning token (some more), .expression token (call "puts" [])]⟩
    let e : Expr := .hash token [(.string token, call "f" [.identifier (name "xs")])]
    let p : Program := [.binding token (name "f") (.function token [name "y"] body),
      .expression token e]
    let leave : Statement := .returning token (some (.identifier (name "xs")))
    let xs : Object := .array [.integer 1]
    let s : Session := Session.start.set "xs" xs
    s.Reached (fun _ o => o.WellFormed) ∧ s.machine.WellFormed ∧
    (∃ m' r, Eval.expression 3 0 more s.machine = some (r, m') ∧ Signal.Proper r ∧
      m'.WellFormed) ∧
    (∃ m' r, Eval.statement 3 0 leave s.machine = some (r, m') ∧ Signal.Proper r ∧
      m'.WellFormed) ∧
    (∃ m' o, Eval.program 8 0 p s.machine = some (o, m') ∧
      (∃ k, o = .hash [⟨k, .string "fn", .array [.integer 1, .integer 2]⟩]) ∧
      o.Answers ∧ m'.WellFormed ∧ ∃ ts, Traced.program 8 0 p s.machine = some (o, m', ts) ∧
        ∀ t : Trace, t.Within ts → t.WellFormed) ∧
    ∃ m' r, Eval.apply 1 (.builtin .push) [xs, xs] s.machine = some (r, m') ∧
      (∃ o, r = .ok o ∧ o.Answers ∧ m'.WellFormed) ∧
      ∃ ts, Traced.apply 1 (.builtin .push) [xs, xs] (s.machine, []) = some (r, m', ts) ∧
        ∀ t : Trace, t.Within ts → t.WellFormed := by
  intro name token call more body e p leave xs s
  have hp := Object.sturdy_regular.plain
  have hxs : xs.WellFormed := hp.every_array (List.forall_mem_singleton.2 (hp.every_integer 1))
  have hs : s.Reached fun _ o => o.WellFormed := .step .start (.set hxs)
  have hm := sessions_stay_wellFormed.1 s hs
  refine ⟨hs, hm, ⟨_, _, rfl, ?_⟩, ⟨_, _, rfl, ?_⟩, ⟨_, _, rfl, ⟨_, rfl⟩, ?_⟩, ⟨_, _, rfl, ?_⟩⟩
  · exact (sessions_stay_wellFormed.2 3 s.machine _ hm).1 0 more _ rfl
  · exact (sessions_stay_wellFormed.2 3 s.machine _ hm).2.1 0 leave _ rfl
  · exact (sessions_stay_wellFormed.2 8 s.machine _ hm).2.2.1 0 p _ rfl
  · exact (sessions_stay_wellFormed.2 1 s.machine _ hm).2.2.2 (.builtin .push) [xs, xs] _
      (hp.every_builtin .push) (by simpa using hxs) rfl

end Session

end Treewalk
