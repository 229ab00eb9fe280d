import Treewalk.Run
import Treewalk.Scope.Basic

/-!
# Signals

An error or a return stops evaluation until a call or the program takes it. As objects, signals are
what hosts and data may hold; wherever evaluation meets such an object it stops.
-/

namespace Treewalk

inductive Signal
  | error (e : RuntimeError)
  | returning (value : Object)

/-- What a call makes of a signal: a return gives its value, an error stays one. -/
def Signal.taken : Signal → Object
  | error e => .error e
  | returning value => value

abbrev Eval := Run Machine Signal

namespace Eval

def fail {σ α : Type} (e : RuntimeError) : Run σ Signal α := Run.exit (.error e)

/-- Goes on with an object unless it is a signal. -/
def settle {σ : Type} : Object → Run σ Signal Object
  | .error e => Run.exit (.error e)
  | .returning value => Run.exit (.returning value)
  | o => return o

def settleExcept {σ : Type} : Except RuntimeError Object → Run σ Signal Object
  | .ok o => settle o
  | .error e => fail e

/-- The object that a body or a program ends with, whether or not a signal ended it. -/
def outcome (x : Eval Object) (m : Machine) : Option (Object × Machine) :=
  match x m with
  | some (.ok o, m') => some (o, m')
  | some (.error s, m') => some (s.taken, m')
  | none => none

/-- Takes the signal that ends a body. -/
def concluded (x : Eval Object) : Eval Object := fun m =>
  (x.outcome m).map fun (o, m') => (.ok o, m')

/-- The object of a name: a binding or else a built-in function. -/
def named (s : ScopeId) (name : String) : Eval Object := do
  match (← Run.get).get? s name with
  | some o => settle o
  | none =>
    match Builtin.named? name with
    | some b => return .builtin b
    | none => fail (.unknownIdentifier name)

def bind (s : ScopeId) (name : String) (value : Object) : Eval Unit :=
  Run.modify (Machine.set s name value)

/-- A new function that remembers the scope. -/
def closure (s : ScopeId) (parameters : List Token) (body : Block) : Eval Object := do
  let identity := (← Run.get).nextFunction
  Run.modify fun m => { m with nextFunction := m.nextFunction + 1 }
  return .function ⟨identity, parameters, body, s⟩

/-- A new scope for a call, with the parameters bound in order. -/
def enter (c : Closure) (arguments : List Object) : Eval ScopeId := do
  let s := (← Run.get).nextScope
  Run.modify fun m =>
    (m.newInside c.scope).setAll s ((c.parameters.map (·.literal)).zip arguments)
  return s

def print (text : String) : Eval Unit := Run.modify (Machine.print text)

end Eval

end Treewalk
