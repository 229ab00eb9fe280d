import Treewalk.Host.Interpret
import Treewalk.Proofs.Eval.Lines
import Treewalk.Proofs.Eval.Signals
import Treewalk.Proofs.Parser.Seam

/-!
# Scripts in one piece or in two

A text that ends in a semicolon and then another one: running both at once is running the one and
then the other.
-/

namespace Treewalk

theorem verdict_of_not_signal {o : Object} (h : o.isSignal = false) : verdict o = .ok o := by
  cases o <;> first | rfl | cases h

theorem clean_ends {n : Nat} {k : ScopeId} {p : Program} {m m' : Machine}
    {r : Except Signal Object} (hclean : m.CleanFrom k)
    (h : Eval.sequence (Eval.statement n k) .null p m = some (r, m')) :
    match r with
    | .ok o => o.isSignal = false
    | .error (.error _) => True
    | .error (.returning v) => v.isSignal = false := by
  have hp := m.sturdy_proper k
  have hsound := (Eval.steady hp n).sequence hp (s := k) (.inl .here) p
  obtain ⟨-, hr⟩ := hsound m hclean.holds r m' h
  rcases r with (e | v) | o
  · trivial
  · exact (Object.Every.self hr).1
  · exact (Object.Every.self hr).1

/-- How a run of two texts at once, from `m` to an end `u'`, relates to a run of the second text
alone, from `m₁` to an end `u`, when the first one has led from `m` to `m₁` and given `o`. All is
the same up to the lines of functions. -/
structure Joins (m m₁ : Machine) (o : Object) (second : Program)
    (u u' : Except Failure Object × Machine) : Prop where
  result : u'.1.map Object.unlined = (if second.isEmpty then .ok o else u.1).map Object.unlined
  machine : u'.2.unlined = u.2.unlined
  /-- The output is that of the first text and then that of the second. -/
  output : ∃ out₁ out₂, m₁.output = m.output ++ out₁ ∧ u.2.output = m₁.output ++ out₂ ∧
    u'.2.output = m.output ++ out₁ ++ out₂

theorem interpret_of_errors_nil {source : String} (h : (parse source).errors = []) (n : Nat)
    (k : ScopeId) (m : Machine) : interpret n k source m =
      (Eval.program n k (parse source).program m).map fun (o, m') => (verdict o, m') := by
  rw [interpret]
  exact if_pos h

theorem verdict_unlined (o : Object) : (verdict o).map Object.unlined = verdict o.unlined := by
  cases o <;> rfl

theorem endsAlike_verdict {P : Object → Object → Prop} {h : Closure → Closure} {o : Object}
    (hp : P o (o.mapClosures h)) :
    Run.EndsAlike (· = ·) P (verdict o) (verdict (o.mapClosures h)) := by
  cases o with
  | error e => rfl
  | _ => exact hp

section

variable {n : Nat} {k : ScopeId} {m m₁ : Machine} {o : Object} {p q : Program}

theorem joins_of_ok (hq : q.map Statement.unlined = p.map Statement.unlined)
    (ho : o.isSignal = false) (hprints : ∃ text, m₁.output = m.output ++ text) :
    Option.Rel (Joins m m₁ o p) ((Eval.program n k p m₁).map fun (o, m') => (verdict o, m'))
      ((if q.isEmpty then some (o, m₁) else Eval.program n k q m₁).map
        fun (o, m') => (verdict o, m')) := by
  obtain ⟨out₁, hout₁⟩ := hprints
  have hempty : q.isEmpty = p.isEmpty := by
    have hlength : q.length = p.length := by simpa using congrArg List.length hq
    cases p <;> cases q <;> simp_all
  rw [hempty]
  cases p with
  | nil =>
    -- Without statements the second text does nothing, and its value does not count.
    refine .some ⟨?_, rfl, out₁, "", hout₁, by simp, by simp [hout₁]⟩
    exact congrArg (Except.map Object.unlined) (verdict_of_not_signal ho)
  | cons s p =>
    have hsame := Eval.program_unlined hq n k m₁
    have hprint (o' : Object) (m' : Machine) (h : Eval.program n k (s :: p) m₁ = some (o', m')) :=
      Eval.program_prints h
    rw [if_neg (by simp)]
    generalize Eval.program n k (s :: p) m₁ = x, Eval.program n k q m₁ = y at hsame hprint
    cases hsame with
    | none => exact .none
    | @some u u' h =>
      obtain ⟨hobject, hmachine⟩ := h
      obtain ⟨out₂, hout₂⟩ := hprint u.1 u.2 rfl
      refine .some ⟨?_, hmachine, out₁, out₂, hout₁, hout₂, ?_⟩
      · rw [if_neg (by simp), verdict_unlined, verdict_unlined, hobject]
      · have hout : u'.2.unlined.output = u.2.unlined.output := congrArg Machine.output hmachine
        rw [← hout₁, ← hout₂]
        exact hout

end

/-- Two texts that parse, the first of which ends in a semicolon, run in a scope in sight of which
no signal is bound. If the first one ends in an error or by a return, so do both at once, and
nothing of the second is run. Otherwise both at once run as the second does after the first. -/
theorem texts_join {s₁ s₂ : String} (h₁ : (parse s₁).errors = []) (h₂ : (parse s₂).errors = [])
    (hend : EndsInSemicolon s₁) (n : Nat) (k : ScopeId) (m : Machine) (hclean : m.CleanFrom k) :
    match Eval.sequence (Eval.statement n k) .null (parse s₁).program m with
    | none => interpret n k s₁ m = none ∧ interpret n k (s₁ ++ "\n" ++ s₂) m = none
    | some (.error (.error e), m₁) =>
      interpret n k s₁ m = some (.error (.runtime e), m₁) ∧
        interpret n k (s₁ ++ "\n" ++ s₂) m = some (.error (.runtime e), m₁)
    | some (.error (.returning v), m₁) =>
      interpret n k s₁ m = some (.ok v, m₁) ∧
        interpret n k (s₁ ++ "\n" ++ s₂) m = some (.ok v, m₁)
    | some (.ok o, m₁) =>
      interpret n k s₁ m = some (.ok o, m₁) ∧
        Option.Rel (Joins m m₁ o (parse s₂).program) (interpret n k s₂ m₁)
          (interpret n k (s₁ ++ "\n" ++ s₂) m) := by
  obtain ⟨hjoined, q, hprogram, hq⟩ := parse_append_newline h₁ h₂ hend
  simp only [interpret_of_errors_nil h₁, interpret_of_errors_nil h₂,
    interpret_of_errors_nil hjoined, hprogram]
  -- A program by itself is a program with no other one behind it.
  have halone := List.append_nil (parse s₁).program
  split
  · rename_i h
    rw [Eval.program_append_of_none h, ← halone, Eval.program_append_of_none h]
    exact ⟨rfl, rfl⟩
  · rename_i e m₁ h
    rw [Eval.program_append_of_error h, ← halone, Eval.program_append_of_error h]
    exact ⟨rfl, rfl⟩
  · rename_i v m₁ h
    have hv : v.isSignal = false := clean_ends hclean h
    rw [Eval.program_append_of_error h, ← halone, Eval.program_append_of_error h]
    exact ⟨congrArg (fun r => some (r, m₁)) (verdict_of_not_signal hv),
      congrArg (fun r => some (r, m₁)) (verdict_of_not_signal hv)⟩
  · rename_i o m₁ h
    have ho : o.isSignal = false := clean_ends hclean h
    have hfirst : Eval.program n k (parse s₁).program m = some (o, m₁) := by
      rw [← halone, Eval.program_append_of_ok h]
      rfl
    rw [Eval.program_append_of_ok h, hfirst]
    exact ⟨congrArg (fun r => some (r, m₁)) (verdict_of_not_signal ho),
      joins_of_ok hq ho (Eval.program_prints hfirst)⟩

theorem texts_join_rebinding :
    let s₁ := "let x = true; puts(x);"
    let s₂ := "let x = !x; puts(x); x"
    let m := Machine.fresh
    let m₁ : Machine := ⟨#[⟨[("x", .boolean true)], []⟩], 0, "true\n"⟩
    let k := Machine.root
    (parse s₁).errors = [] ∧ (parse s₂).errors = [] ∧ EndsInSemicolon s₁ ∧ m.CleanFrom k ∧
      interpret 9 k s₁ m = some (.ok .null, m₁) ∧
      (interpret 9 k (s₁ ++ "\n" ++ s₂) m).map (·.2.output) = some "true\nfalse\n" ∧
      Option.Rel (Joins m m₁ .null (parse s₂).program) (interpret 9 k s₂ m₁)
        (interpret 9 k (s₁ ++ "\n" ++ s₂) m) := by
  intro s₁ s₂ m m₁ k
  have h₁ : (parse s₁).errors = [] := by decide +kernel
  have h₂ : (parse s₂).errors = [] := by decide +kernel
  have hend : EndsInSemicolon s₁ := by
    simp only [EndsInSemicolon, s₁]
    rfl
  have hclean : m.CleanFrom k := by
    intro k _ b hb
    simp only [m, Machine.fresh, Machine.bindings_newRoot] at hb
    simp [Machine.empty, Machine.bindings] at hb
  have hrun : Eval.sequence (Eval.statement 9 k) .null (parse s₁).program m =
      some (.ok .null, m₁) := by
    simp only [s₁, m, m₁, k]
    rfl
  have houtput : (interpret 9 k (s₁ ++ "\n" ++ s₂) m).map (·.2.output) =
      some "true\nfalse\n" := by decide +kernel
  have h := texts_join h₁ h₂ hend 9 k m hclean
  rw [hrun] at h
  exact ⟨h₁, h₂, hend, hclean, h.1, houtput, h.2⟩

end Treewalk
