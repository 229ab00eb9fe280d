import Treewalk.Eval.Evaluate
import Treewalk.Proofs.Runs

/-!
# Deeper evaluation

A greater depth changes no end of an evaluation.
-/

namespace Treewalk.Eval

open Run (Refines)

theorem refines_all {eval eval' : Expr → Eval Object} (h : ∀ e, Refines (eval e) (eval' e))
    (es : List Expr) : Refines (all eval es) (all eval' es) := by
  induction es with
  | nil => exact .refl _
  | cons e es ih => exact .bind (h e) fun o => .bind ih fun xs => .refl _

theorem refines_pairs {eval eval' : Expr → Eval Object} (h : ∀ e, Refines (eval e) (eval' e))
    (ps : List (Expr × Expr)) (entries : List (Entry Object)) :
    Refines (pairs eval entries ps) (pairs eval' entries ps) := by
  induction ps generalizing entries with
  | nil => exact .refl _
  | cons p ps ih =>
    refine .bind (h p.1) fun key => ?_
    cases key.hashKey? with
    | none => exact .refl _
    | some k => exact .bind (h p.2) fun value => ih _

theorem refines_sequence {eval eval' : Statement → Eval Object}
    (h : ∀ st, Refines (eval st) (eval' st)) (ss : List Statement) (result : Object) :
    Refines (sequence eval result ss) (sequence eval' result ss) := by
  induction ss generalizing result with
  | nil => exact .refl _
  | cons st ss ih => exact .bind (h st) fun o => ih o

theorem refines_concluded {x y : Eval Object} (h : Refines x y) :
    Refines (concluded x) (concluded y) := by
  intro m u hu
  obtain ⟨⟨o, m'⟩, ho, rfl⟩ := Option.map_eq_some_iff.1 hu
  have hy : outcome y m = some (o, m') := by
    unfold outcome at ho ⊢
    split at ho
    all_goals cases ho
    all_goals rw [h m _ (by assumption)]
  rw [concluded, hy]
  rfl

structure Deepens (n : Nat) : Prop where
  expression : ∀ s e, Refines (expression n s e) (expression (n + 1) s e)
  statement : ∀ s st, Refines (statement n s st) (statement (n + 1) s st)
  apply : ∀ f arguments, Refines (apply n f arguments) (apply (n + 1) f arguments)

variable {n : Nat}

theorem Deepens.block (h : Deepens n) (s : ScopeId) (ss : List Statement) :
    Refines (sequence (Eval.statement n s) .null ss)
      (sequence (Eval.statement (n + 1) s) .null ss) :=
  refines_sequence (h.statement s) ss .null

theorem deepens_expression (ih : Deepens n) (s : ScopeId) (e : Expr) :
    Refines (expression (n + 1) s e) (expression (n + 2) s e) := by
  have part := ih.expression s
  cases e with
  | identifier _ | integer _ _ | boolean _ _ | string _ | function _ _ _ => exact .refl _
  | prefixed token op operand => exact .bind (part operand) fun o => .refl _
  | binary token op left right =>
    exact .bind (part left) fun l => .bind (part right) fun r => .refl _
  | conditional token condition consequence alternative =>
    refine .bind (part condition) fun o => ?_
    split
    · exact ih.block s _
    · cases alternative with
      | none => exact .refl _
      | some block => exact ih.block s _
  | call token callee arguments =>
    refine .bind (part callee) fun f => .bind (refines_all part arguments) fun xs => ?_
    exact .bind (ih.apply f xs) fun o => .refl _
  | array token elements => exact .bind (refines_all part elements) fun xs => .refl _
  | hash token ps => exact .bind (refines_pairs part ps []) fun es => .refl _
  | index token base position =>
    exact .bind (part base) fun b => .bind (part position) fun i => .refl _

theorem deepens_statement (ih : Deepens n) (s : ScopeId) (st : Statement) :
    Refines (statement (n + 1) s st) (statement (n + 2) s st) := by
  cases st with
  | binding token name value => exact .bind (ih.expression s value) fun o => .refl _
  | returning token value =>
    cases value with
    | none => exact .refl _
    | some value => exact .bind (ih.expression s value) fun o => .refl _
  | expression token value => exact ih.expression s value

theorem deepens_apply (ih : Deepens n) (f : Object) (arguments : List Object) :
    Refines (apply (n + 1) f arguments) (apply (n + 2) f arguments) := by
  cases f with
  | function c =>
    rw [apply, apply]
    split
    · exact .bind (.refl _) fun s => refines_concluded (ih.block s _)
    · exact .refl _
  | _ => exact .refl _

theorem deepens (n : Nat) : Deepens n := by
  induction n with
  | zero => exact ⟨fun _ _ => .exhausted, fun _ _ => .exhausted, fun _ _ => .exhausted⟩
  | succ n ih => exact ⟨deepens_expression ih, deepens_statement ih, deepens_apply ih⟩

theorem refines_apply {n d : Nat} (h : n ≤ d) (f : Object) (arguments : List Object) :
    Refines (apply n f arguments) (apply d f arguments) :=
  Run.Refines.of_le (x := fun n => apply n f arguments) (fun n => (deepens n).apply f arguments) h

end Treewalk.Eval
