import Treewalk.Program.Basic
import Treewalk.Value.Builtin

/-!
# Programs whose names are resolved

What can be seen of names in the text alone. A name is in view if it is a parameter of a function
literal around it, or if a `let` binds it that stands earlier in a list of statements, of the
program, of a body or of a branch, with the name further down in that list, at any depth.
-/

namespace Treewalk

/-- The name that the statement binds for those that follow it. -/
def Statement.declared : Statement → List String
  | .binding _ name _ => [name.literal]
  | _ => []

mutual

/-- All names in use are in view or those of built-in functions. -/
def Expr.resolved (view : List String) : Expr → Bool
  | .identifier name => view.contains name.literal || (Builtin.named? name.literal).isSome
  | .integer _ _ | .boolean _ _ | .string _ => true
  | .prefixed _ _ operand => operand.resolved view
  | .binary _ _ left right => left.resolved view && right.resolved view
  | .conditional _ condition consequence alternative =>
    condition.resolved view && consequence.resolved view && resolvedElse view alternative
  | .function _ parameters body => body.resolved (parameters.map (·.literal) ++ view)
  | .call _ callee arguments => callee.resolved view && resolvedAll view arguments
  | .array _ elements => resolvedAll view elements
  | .hash _ pairs => resolvedPairs view pairs
  | .index _ base position => base.resolved view && position.resolved view

def resolvedAll (view : List String) : List Expr → Bool
  | [] => true
  | e :: es => e.resolved view && resolvedAll view es

def resolvedPairs (view : List String) : List (Expr × Expr) → Bool
  | [] => true
  | (key, value) :: pairs => key.resolved view && value.resolved view && resolvedPairs view pairs

def resolvedElse (view : List String) : Option Block → Bool
  | none => true
  | some block => block.resolved view

def resolvedValue (view : List String) : Option Expr → Bool
  | none => true
  | some value => value.resolved view

/-- A `let` does not bring its name in view for its own value. -/
def Statement.resolved (view : List String) : Statement → Bool
  | .binding _ _ value => value.resolved view
  | .returning _ value => resolvedValue view value
  | .expression _ value => value.resolved view

/-- What a `let` binds in a list of statements is in view in the rest of that list only. -/
def resolvedStatements (view : List String) : List Statement → Bool
  | [] => true
  | s :: ss => s.resolved view && resolvedStatements (s.declared ++ view) ss

def Block.resolved (view : List String) : Block → Bool
  | ⟨_, statements⟩ => resolvedStatements view statements

end

def Program.resolved (p : Program) : Bool := resolvedStatements [] p

theorem Block.resolved_eq (view : List String) (b : Block) :
    b.resolved view = resolvedStatements view b.statements := by
  cases b
  rw [Block.resolved]

theorem resolvedAll_iff {view : List String} {es : List Expr} :
    resolvedAll view es ↔ ∀ e ∈ es, e.resolved view := by
  induction es with
  | nil => simp [resolvedAll]
  | cons e es ih => simp [resolvedAll, ih]

theorem resolvedPairs_iff {view : List String} {ps : List (Expr × Expr)} :
    resolvedPairs view ps ↔ ∀ p ∈ ps, p.1.resolved view ∧ p.2.resolved view := by
  induction ps with
  | nil => simp [resolvedPairs]
  | cons p ps ih => simp [resolvedPairs, ih]

end Treewalk
