import Treewalk.Eval.Evaluate
import Treewalk.Parser.Parse

/-!
# Running source text

Text with syntax errors does not run at all. No answer means that depth did not suffice.
-/

namespace Treewalk

inductive Failure
  | syntaxErrors (errors : List SyntaxError)
  | runtime (e : RuntimeError)
deriving DecidableEq

def Failure.message : Failure → String
  | syntaxErrors errors => SyntaxError.report errors
  | runtime e => e.message

/-- A program that ends with an error object has failed. -/
def verdict : Object → Except Failure Object
  | .error e => .error (.runtime e)
  | o => .ok o

/-- Runs text in a scope, which keeps the bindings. -/
def interpret (depth : Nat) (s : ScopeId) (source : String) (m : Machine) :
    Option (Except Failure Object × Machine) :=
  let parsed := parse source
  if parsed.errors = [] then
    (Eval.program depth s parsed.program m).map fun (o, m') => (verdict o, m')
  else some (.error (.syntaxErrors parsed.errors), m)

/-- Runs what could be read of a text, whatever errors it has. -/
def interpretAnyway (depth : Nat) (s : ScopeId) (source : String) (m : Machine) :
    Option (Nat × Object × Machine) :=
  let parsed := parse source
  (Eval.program depth s parsed.program m).map fun (o, m') => (parsed.errors.length, o, m')

namespace Machine

/-- A machine with one scope. -/
def fresh : Machine := empty.newRoot

/-- The scope of a fresh machine. -/
def root : ScopeId := 0

end Machine

/-- Runs a whole script, and prints its value if asked to and there is one. -/
def runScript (depth : Nat) (source : String) (autoPrint : Bool) :
    Option (Option Failure × String) :=
  match interpret depth Machine.root source .fresh with
  | none => none
  | some (.error f, m) => some (some f, m.output)
  | some (.ok o, m) =>
    if autoPrint ∧ o ≠ .null then some (none, m.output ++ o.display ++ "\n")
    else some (none, m.output)

end Treewalk
