import Treewalk.Proofs.Host.Scripts
import Treewalk.Proofs.Parser.Unlined

/-!
# Layout has no meaning

Texts with the same tokens on other lines parse alike, fail alike and run alike.
-/

namespace Treewalk

theorem Object.looksLike_of_unlined {o o' : Object} (h : o'.unlined = o.unlined) :
    o'.LooksLike o := by
  have hhere : o.unlined.LooksLike o := Relabelling.lines.looksLike_object o
  have hthere : o'.unlined.LooksLike o' := Relabelling.lines.looksLike_object o'
  rw [h] at hthere
  exact ⟨hthere.flat.symm.trans hhere.flat, hthere.display.symm.trans hhere.display⟩

/-- Two ends of `interpret` with the same output, and with the same error or with results that look
the same. -/
structure LooksAlike (u u' : Except Failure Object × Machine) : Prop where
  output : u'.2.output = u.2.output
  result : Run.EndsAlike (· = ·) (fun o o' => o'.LooksLike o) u.1 u'.1

theorem looksAlike_of_unlined {u u' : Object × Machine} (h : Eval.SameUpToLines u u') :
    LooksAlike (verdict u.1, u.2) (verdict u'.1, u'.2) := by
  obtain ⟨hobject, hmachine⟩ := h
  have houtput : u'.2.unlined.output = u.2.unlined.output := congrArg Machine.output hmachine
  refine ⟨houtput, ?_⟩
  have hverdict : (verdict u'.1).map Object.unlined = (verdict u.1).map Object.unlined := by
    rw [verdict_unlined, verdict_unlined, hobject]
  show Run.EndsAlike _ _ (verdict u.1) (verdict u'.1)
  generalize verdict u.1 = r, verdict u'.1 = r' at hverdict
  cases r <;> cases r'
  · exact (Except.error.inj hverdict).symm
  · cases hverdict
  · cases hverdict
  · exact Object.looksLike_of_unlined (Except.ok.inj hverdict)

/-- Layout has no meaning: texts with the same tokens, on whatever lines, parse to the same program
with the same errors up to lines. Without errors they run alike from any machine, or neither run
ends. -/
theorem texts_relined {s₁ s₂ : String} (h : Relined (scan s₂) (scan s₁)) :
    (parse s₂).program.map Statement.unlined = (parse s₁).program.map Statement.unlined ∧
      (parse s₂).errors.map SyntaxError.unlined = (parse s₁).errors.map SyntaxError.unlined ∧
      ((parse s₁).errors = [] → ∀ n k m,
        Option.Rel LooksAlike (interpret n k s₁ m) (interpret n k s₂ m)) := by
  have hparsed : (parse s₂).unlined = (parse s₁).unlined := h.parseTokens
  obtain ⟨hprogram, herrors⟩ := Parsed.mk.inj hparsed
  refine ⟨hprogram, herrors, fun h₁ n k m => ?_⟩
  have h₂ : (parse s₂).errors = [] := by
    rw [h₁] at herrors
    exact List.map_eq_nil_iff.1 herrors
  have hruns := Eval.program_unlined hprogram n k m
  rw [interpret_of_errors_nil h₁, interpret_of_errors_nil h₂]
  generalize Eval.program n k (parse s₁).program m = u,
    Eval.program n k (parse s₂).program m = u' at hruns
  cases hruns with
  | none => exact .none
  | some h => exact .some (looksAlike_of_unlined h)

theorem texts_relined_closure :
    let s₁ := "let f = fn(x) \x7b x + 1 \x7d; puts(f(1)); f"
    let s₂ := "let f // successor\n=fn (x)\n\x7bx+1\x7d;puts\n(f(1) );f"
    Relined (scan s₂) (scan s₁) ∧ (parse s₁).errors = [] ∧
      (interpret 20 Machine.root s₁ .fresh).map (·.2.output) = some "2\n" ∧
      Option.Rel LooksAlike (interpret 20 Machine.root s₁ .fresh)
        (interpret 20 Machine.root s₂ .fresh) := by
  intro s₁ s₂
  have h : (scan s₂).map Token.unlined = (scan s₁).map Token.unlined := by decide +kernel
  have h₁ : (parse s₁).errors = [] := by decide +kernel
  have houtput : (interpret 20 Machine.root s₁ .fresh).map (·.2.output) = some "2\n" := by
    decide +kernel
  exact ⟨h, h₁, houtput, (texts_relined h).2.2 h₁ 20 Machine.root .fresh⟩

end Treewalk
