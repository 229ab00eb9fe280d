import Treewalk.Proofs.Eval.Relabel

/-!
# Evaluation does not see what was printed

A program that runs after other output does what it does without, and its own output comes behind.
-/

namespace Treewalk

/-- The machine as it is when this was printed before everything else. -/
def Machine.after (text : String) (m : Machine) : Machine := { m with output := text ++ m.output }

theorem Token.literal_id (t : Token) : (id t).literal = t.literal := rfl

/-- All labels as they are. -/
def Relabelling.same : Relabelling where
  token := id
  lead := id
  literal := Token.literal_id
  scope := id
  scope_injective h := h
  identity := id

namespace Relabelling

theorem closure_same (c : Closure) : same.closure c = c := by
  unfold closure
  simp [same, Block.mapTokens_id]

theorem object_same (o : Object) : same.object o = o :=
  o.mapClosures_eq_self fun c _ => closure_same c

theorem contents_same (s : Scope) : same.contents s = s := by
  have hbindings : same.bindings s.bindings = s.bindings := by
    simp [bindings, object_same]
  unfold contents
  rw [hbindings]
  simp [same]

theorem statements_same (ss : List Statement) : ss.map same.statement = ss := by
  have hstatement : same.statement = id := funext fun s => s.mapTokens_id
  rw [hstatement, List.map_id]

end Relabelling

namespace Machine

theorem matches_after (text : String) (m : Machine) : m.Matches .same "" text (m.after text) where
  scopes k := by
    have hid : Relabelling.same.contents = id := funext Relabelling.contents_same
    rw [hid, Option.map_id]
    rfl
  nextScope _ := rfl
  nextFunction _ := rfl
  output := ⟨m.output, String.empty_append.symm, rfl⟩

theorem Matches.eq_after {text : String} {m m' : Machine} (h : m.Matches .same "" text m') :
    m' = m.after text := by
  obtain ⟨scopes, nextFunction, output⟩ := m
  obtain ⟨scopes', nextFunction', output'⟩ := m'
  have hscopes : scopes' = scopes := by
    refine Array.ext_getElem? fun k => (h.scopes k).trans ?_
    have hid : Relabelling.same.contents = id := funext Relabelling.contents_same
    rw [hid, Option.map_id]
    rfl
  have hfunction : nextFunction = nextFunction' := h.nextFunction 0
  obtain ⟨printed, hout, hout'⟩ :
      ∃ printed, output = "" ++ printed ∧ output' = text ++ printed := h.output
  rw [after, hscopes, hfunction, hout', hout, String.empty_append]

end Machine

namespace Eval

theorem program_after (n : Nat) (k : ScopeId) (p : Program) (text : String) (m : Machine) :
    program n k p (m.after text) = (program n k p m).map fun (o, m') => (o, m'.after text) := by
  have hfollows := program_follows n k p (Machine.matches_after text m)
  rw [Relabelling.statements_same] at hfollows
  have hscope : Relabelling.same.scope k = k := rfl
  rw [hscope] at hfollows
  generalize program n k p m = u, program n k p (m.after text) = u' at hfollows
  cases hfollows with
  | none => rfl
  | @some u u' h =>
    obtain ⟨o, m₁⟩ := u
    obtain ⟨o', m₁'⟩ := u'
    obtain ⟨hobject, hmatches⟩ := h
    have ho : o' = o := hobject.trans (Relabelling.object_same o)
    have hm : m₁' = m₁.after text := hmatches.eq_after
    rw [Option.map_some, ho, hm]

end Eval

end Treewalk
