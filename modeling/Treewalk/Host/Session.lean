import Treewalk.Host.Interpret
import Treewalk.Scope.Describe

/-!
# Sessions

A host runs text, binds objects and calls functions in the innermost of a stack of scopes.
-/

namespace Treewalk

/-- The scope in use with those that it was entered from. -/
structure Session where
  machine : Machine
  top : ScopeId
  below : List ScopeId

namespace Session

def start : Session := ⟨.fresh, Machine.root, []⟩

def height (s : Session) : Nat := s.below.length + 1

def run (depth : Nat) (source : String) (s : Session) :
    Option (Except Failure Object × Session) :=
  (interpret depth s.top source s.machine).map fun (r, m) => (r, { s with machine := m })

/-- Runs text in spite of errors, and counts them. -/
def runAnyway (depth : Nat) (source : String) (s : Session) : Option (Nat × Object × Session) :=
  (interpretAnyway depth s.top source s.machine).map fun (n, o, m) =>
    (n, o, { s with machine := m })

/-- Built-in functions are not bindings. -/
def get? (s : Session) (name : String) : Option Object := s.machine.get? s.top name

def set (name : String) (value : Object) (s : Session) : Session :=
  { s with machine := s.machine.set s.top name value }

/-- Goes into a new scope inside the one in use. -/
def enter (s : Session) : Session :=
  ⟨s.machine.newInside s.top, s.machine.nextScope, s.top :: s.below⟩

/-- Goes back, but never out of the first scope. -/
def leave (s : Session) : Session :=
  match s.below with
  | [] => s
  | outer :: rest => ⟨s.machine, outer, rest⟩

/-- Calls what a name is bound to. -/
def call (depth : Nat) (name : String) (arguments : List Object) (s : Session) :
    Option (Option Object × Session) :=
  match s.get? name with
  | none => some (none, s)
  | some f =>
    (Eval.call depth f arguments s.machine).map fun (o, m) => (some o, { s with machine := m })

def sameBinding (s : Session) (a b : String) : Bool := s.get? a = s.get? b

def describe (s : Session) : String := s.machine.describe s.top

/-- What was printed since the last time. -/
def takeOutput (s : Session) : String × Session :=
  (s.machine.output, { s with machine := { s.machine with output := "" } })

end Session

end Treewalk
