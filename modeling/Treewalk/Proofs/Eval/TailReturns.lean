import Treewalk.Eval.Evaluate

/-!
# Returns at the end of a body

A call takes a return off. So a return in tail position, where nothing is left to skip, does what
its expression does.
-/

namespace Treewalk

/-- Statements with any of their tail returns left out: those that come last, or last in a branch of
a conditional that comes last as a statement by itself. -/
inductive DropsReturns : List Statement → List Statement → Prop
  | kept {ss} : DropsReturns ss ss
  | last (ss) {t u e} : DropsReturns (ss ++ [.returning t (some e)]) (ss ++ [.expression u e])
  | branch (ss) {t u v condition bs bs'} : DropsReturns bs bs' →
    DropsReturns (ss ++ [.expression t (.conditional u condition ⟨v, bs⟩ none)])
      (ss ++ [.expression t (.conditional u condition ⟨v, bs'⟩ none)])
  | branches (ss) {t u v w condition bs bs' cs cs'} : DropsReturns bs bs' →
    DropsReturns cs cs' →
    DropsReturns (ss ++ [.expression t (.conditional u condition ⟨v, bs⟩ (some ⟨w, cs⟩))])
      (ss ++ [.expression t (.conditional u condition ⟨v, bs'⟩ (some ⟨w, cs'⟩))])

namespace Eval

/-! ## Runs that end alike once their signal is taken -/

/-- The ends are the same when signals are taken for the objects that they give. -/
def SameOutcome (x y : Eval Object) : Prop := ∀ m, outcome x m = outcome y m

namespace SameOutcome

variable {α : Type} {x y : Eval Object}

theorem refl (x : Eval Object) : SameOutcome x x := fun _ => rfl

theorem bind (x : Eval α) {f g : α → Eval Object} (h : ∀ a, SameOutcome (f a) (g a)) :
    SameOutcome (x >>= f) (x >>= g) := by
  intro m
  unfold outcome
  rcases hx : x m with _ | ⟨s | a, m'⟩
  · rw [Run.bind_none hx, Run.bind_none hx]
  · rw [Run.bind_error hx, Run.bind_error hx]
  · rw [Run.bind_ok hx, Run.bind_ok hx]
    exact h a m'

theorem returning (x : Eval Object) : SameOutcome (x >>= fun v => Run.exit (.returning v)) x := by
  intro m
  unfold outcome
  rcases hx : x m with _ | ⟨s | v, m'⟩
  · rw [Run.bind_none hx]
  · rw [Run.bind_error hx]
  · rw [Run.bind_ok hx]
    rfl

theorem concluded (h : SameOutcome x y) : Eval.concluded x = Eval.concluded y := by
  funext m
  unfold Eval.concluded
  rw [h m]

end SameOutcome

/-! ## Statements in tail position -/

variable {n : Nat} {k : ScopeId}

theorem sameOutcome_last {s s' : Statement} (h : SameOutcome (statement n k s) (statement n k s'))
    (result : Object) (ss : List Statement) :
    SameOutcome (sequence (statement n k) result (ss ++ [s]))
      (sequence (statement n k) result (ss ++ [s'])) := by
  rw [sequence_append, sequence_append]
  refine .bind _ fun o => ?_
  rw [sequence_one, sequence_one]
  exact h

theorem sameOutcome_returning (t u : Token) (e : Expr) :
    SameOutcome (statement n k (.returning t (some e))) (statement n k (.expression u e)) := by
  cases n with
  | zero => exact .refl _
  | succ n =>
    rw [statement, statement]
    exact .returning _

/-- What a conditional does when its condition is not true. -/
def otherwise (n : Nat) (k : ScopeId) : Option Block → Eval Object
  | some block => sequence (statement n k) .null block.statements
  | none => return .null

theorem expression_conditional_branches (t : Token) (condition : Expr) (b : Block)
    (c : Option Block) :
    expression (n + 1) k (.conditional t condition b c) = (do
      if (← expression n k condition).truthy then sequence (statement n k) .null b.statements
      else otherwise n k c) := by
  cases c with
  | none => rw [expression, otherwise]
  | some c => rw [expression, otherwise]

theorem sameOutcome_conditional {t u : Token} {condition : Expr} {b b' : Block}
    {c c' : Option Block}
    (hb : ∀ n, SameOutcome (sequence (statement n k) .null b.statements)
      (sequence (statement n k) .null b'.statements))
    (hc : ∀ n, SameOutcome (otherwise n k c) (otherwise n k c')) :
    SameOutcome (statement n k (.expression t (.conditional u condition b c)))
      (statement n k (.expression t (.conditional u condition b' c'))) := by
  rcases n with _ | _ | n
  · exact .refl _
  · exact .refl _
  · rw [statement, statement, expression_conditional_branches, expression_conditional_branches]
    refine .bind _ fun o => ?_
    split
    · exact hb n
    · exact hc n

theorem sameOutcome_of_dropsReturns {ss ss' : List Statement} (h : DropsReturns ss ss') (n : Nat)
    (k : ScopeId) (result : Object) :
    SameOutcome (sequence (statement n k) result ss) (sequence (statement n k) result ss') := by
  -- A branch is run from `null` and less deep than the conditional.
  induction h generalizing n result with
  | kept => exact .refl _
  | last ss => exact sameOutcome_last (sameOutcome_returning _ _ _) result ss
  | branch ss _ ih =>
    refine sameOutcome_last (sameOutcome_conditional ?_ fun _ => .refl _) result ss
    exact fun n => ih n .null
  | branches ss _ _ ihb ihc =>
    refine sameOutcome_last (sameOutcome_conditional ?_ ?_) result ss
    · exact fun n => ihb n .null
    · exact fun n => ihc n .null

/-- A function whose body has any of its tail returns left out does the same when it is called, at
each depth: the result or the error, all bindings and the output are the same, or neither call
ends. -/
theorem tail_returns_redundant {body body' : Block}
    (h : DropsReturns body.statements body'.statements) (n identity identity' : Nat)
    (parameters : List Token) (scope : ScopeId) (arguments : List Object) (m : Machine) :
    call n (.function ⟨identity', parameters, body', scope⟩) arguments m =
      call n (.function ⟨identity, parameters, body, scope⟩) arguments m := by
  unfold call
  cases n with
  | zero => rfl
  | succ n =>
    rw [apply, apply]
    split
    · have hbody (s : ScopeId) := (sameOutcome_of_dropsReturns h n s .null).concluded
      simp only [hbody]
      rfl
    · rfl

/-- Two of three returns are left out, one of them in a conditional inside another one. -/
theorem tail_returns_redundant_nested :
    let x : Token := ⟨.ident, "x", 1⟩
    let word : Token := ⟨.ident, "", 1⟩
    let number (n : Int64) : Expr := .integer word n
    let printed : Statement := .expression word (.call word (.identifier ⟨.ident, "puts", 1⟩)
      [.identifier x])
    let body (first second : Statement) : Block :=
      ⟨word, [printed, .expression word (.conditional word (.identifier x)
        ⟨word, [.returning word (some (number 1))]⟩
        (some ⟨word, [printed, .expression word (.conditional word
          (.prefixed word .not (.identifier x)) ⟨word, [printed, first]⟩
          (some ⟨word, [second]⟩))]⟩))]⟩
    let returns := body (.returning word (some (number 2))) (.returning word (some (number 3)))
    let plain := body (.expression word (number 2)) (.expression word (number 3))
    let m := Machine.empty.newRoot
    DropsReturns returns.statements plain.statements ∧
      call 9 (.function ⟨0, [x], plain, 0⟩) [.boolean false] m =
        call 9 (.function ⟨0, [x], returns, 0⟩) [.boolean false] m ∧
      (call 9 (.function ⟨0, [x], returns, 0⟩) [.boolean false] m).map
        (fun (o, m') => (o, m'.output)) = some (.integer 2, "false\nfalse\nfalse\n") := by
  intro x word number printed body returns plain m
  have h : DropsReturns returns.statements plain.statements :=
    .branches [printed] .kept (.branches [printed] (.last [printed]) (.last []))
  exact ⟨h, tail_returns_redundant h 9 0 0 [x] 0 [.boolean false] m, by decide +kernel⟩

end Eval

end Treewalk
