import Treewalk.Scope.Basic
import Treewalk.Text.Quoted

/-!
# A scope described

The names that a scope binds, in order, and the same of every scope around it. Values are left out:
functions hold scopes, so they could go round in circles.
-/

namespace Treewalk

def Bindings.names (b : Bindings) : List String :=
  (b.map (·.1)).mergeSort fun s t => decide (s ≤ t)

/-- The description of scopes that bind these names, the innermost first. -/
def describeNames : List (List String) → String
  | [] => "None"
  | names :: outer =>
    let own := "Environment \x7b names: [" ++ ", ".intercalate (names.map quoted) ++ "], outer: "
    match outer with
    | [] => own ++ "None \x7d"
    | _ :: _ => own ++ "Some(RefCell \x7b value: " ++ describeNames outer ++ " \x7d) \x7d"

def Machine.describe (m : Machine) (s : ScopeId) : String :=
  describeNames ((m.chain s).map fun id => (m.bindings id).names)

end Treewalk
