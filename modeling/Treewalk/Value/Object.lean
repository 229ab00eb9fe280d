import Treewalk.Program.Equality
import Treewalk.Value.Error
import Treewalk.Value.HashKey

/-!
# Objects
-/

namespace Treewalk

abbrev ScopeId := Nat

/-- A function value. Each evaluation of a function literal makes one of its own identity. -/
structure Closure where
  identity : Nat
  parameters : List Token
  body : Block
  scope : ScopeId
deriving DecidableEq

/-- What evaluation makes. Errors and return signals are objects too, so that hosts can hold
them. -/
inductive Object
  | integer (n : Int64)
  | boolean (b : Bool)
  | string (s : String)
  | null
  | array (elements : List Object)
  | hash (entries : List (Entry Object))
  | function (closure : Closure)
  | builtin (b : Builtin)
  | error (e : RuntimeError)
  | returning (value : Object)

namespace Object

def kind : Object → Kind
  | integer _ => .integer
  | boolean _ => .boolean
  | string _ => .string
  | null => .null
  | array _ => .array
  | hash _ => .hash
  | function _ => .function
  | builtin _ => .builtin
  | error _ => .error
  | returning _ => .returning

/-- All objects are true but `null` and `false`. -/
def truthy : Object → Bool
  | null => false
  | boolean b => b
  | _ => true

def hashKey? : Object → Option HashKey
  | integer n => some (.integer n)
  | boolean b => some (.boolean b)
  | string s => some (.string (digest s))
  | _ => none

/-- Takes one return signal off. -/
def unwrapped : Object → Object
  | returning value => value
  | o => o

/-- An error is an object too. -/
def ofExcept : Except RuntimeError Object → Object
  | .ok o => o
  | .error e => error e

/-- A hash of pairs in the order of their insertion, without those whose key has no hash key. -/
def ofPairs (pairs : List (Object × Object)) : Object :=
  hash (pairs.foldl (fun es (key, value) =>
    match key.hashKey? with
    | some k => Entry.insert ⟨k, key, value⟩ es
    | none => es) [])

end Object

end Treewalk
