import Treewalk.Proofs.Eval.Relabel

/-!
# Evaluation does not see lines

Programs that are the same up to lines print the same and end with the same, up to the lines of
functions.
-/

namespace Treewalk

/-- All tokens on one line. -/
def Relabelling.lines : Relabelling where
  token := Token.unlined
  lead := Token.unlined
  literal _ := rfl
  scope := id
  scope_injective h := h
  identity := id

/-- An object up to the lines of functions. -/
def Object.unlined (o : Object) : Object := Relabelling.lines.object o

/-- A machine up to the lines of functions. -/
def Machine.unlined (m : Machine) : Machine :=
  { m with scopes := m.scopes.map Relabelling.lines.contents }

namespace Machine

theorem matches_unlined (m : Machine) : m.Matches .lines m.output m.output m.unlined where
  scopes k := Array.getElem?_map
  nextScope i := by simp [unlined, nextScope, Relabelling.lines]
  nextFunction _ := rfl
  output := ⟨"", by simp, by simp [unlined]⟩

theorem Matches.eq_unlined {m m' : Machine} {a : String} (h : m.Matches .lines a a m') :
    m' = m.unlined := by
  obtain ⟨scopes, nextFunction, output⟩ := m
  obtain ⟨scopes', nextFunction', output'⟩ := m'
  have hscopes : scopes' = scopes.map Relabelling.lines.contents :=
    Array.ext_getElem? fun k => (h.scopes k).trans Array.getElem?_map.symm
  have hfunction : nextFunction = nextFunction' := h.nextFunction 0
  obtain ⟨text, hout, hout'⟩ : ∃ text, output = a ++ text ∧ output' = a ++ text := h.output
  rw [unlined, hscopes, hfunction, hout', ← hout]

end Machine

namespace Eval

/-- Runs with the same end up to lines. -/
abbrev SameUpToLines (u u' : Object × Machine) : Prop :=
  u'.1.unlined = u.1.unlined ∧ u'.2.unlined = u.2.unlined

variable {n : Nat} {k : ScopeId} {p q : Program} {m m' : Machine} {o : Object}

theorem program_unlined (h : q.map Statement.unlined = p.map Statement.unlined) (n : Nat)
    (k : ScopeId) (m : Machine) :
    Option.Rel SameUpToLines (program n k p m) (program n k q m) := by
  have hp := program_follows n k p m.matches_unlined
  have hq := program_follows n k q m.matches_unlined
  have hsame : q.map Relabelling.lines.statement = p.map Relabelling.lines.statement := h
  rw [hsame] at hq
  generalize program n (Relabelling.lines.scope k) (p.map Relabelling.lines.statement) m.unlined = u
    at hp hq
  generalize program n k p m = x, program n k q m = y at hp hq
  cases hp with
  | none =>
    cases hq
    exact .none
  | some hp =>
    cases hq with
    | some hq =>
      obtain ⟨hobject, hmachine⟩ := hp
      obtain ⟨hobject', hmachine'⟩ := hq
      exact .some ⟨hobject'.symm.trans hobject,
        hmachine'.eq_unlined.symm.trans hmachine.eq_unlined⟩

theorem program_prints (h : program n k p m = some (o, m')) :
    ∃ text, m'.output = m.output ++ text := by
  have hfollows := program_follows n k p m.matches_unlined
  rw [h] at hfollows
  generalize program n (Relabelling.lines.scope k) _ m.unlined = u at hfollows
  obtain @⟨_, u, -, hmatches⟩ := hfollows
  obtain ⟨text, htext, -⟩ := hmatches.output
  exact ⟨text, htext⟩

/-! ## One program after another -/

theorem program_append_of_none (h : sequence (statement n k) .null p m = none) :
    program n k (p ++ q) m = none := by
  rw [program, outcome, sequence_append, Run.bind_none h]

theorem program_append_of_error {s : Signal}
    (h : sequence (statement n k) .null p m = some (.error s, m')) :
    program n k (p ++ q) m = some (s.taken, m') := by
  rw [program, outcome, sequence_append, Run.bind_error h]

theorem program_append_of_ok (h : sequence (statement n k) .null p m = some (.ok o, m')) :
    program n k (p ++ q) m = if q.isEmpty then some (o, m') else program n k q m' := by
  rw [program, outcome, sequence_append, Run.bind_ok h]
  cases q with
  | nil => rfl
  | cons s q => rfl

end Eval

end Treewalk
