import Treewalk.Program.Render
import Treewalk.Value.Object

/-!
# Objects in a row

An object in preorder, without what a program cannot see: identities, scopes and lines.
-/

namespace Treewalk

inductive FlatPiece
  | integer (n : Int64)
  | boolean (b : Bool)
  | string (s : String)
  | null
  | array (size : Nat)
  | hash (size : Nat)
  | function (parameters : List String) (body : String)
  | builtin (b : Builtin)
  | error (e : RuntimeError)
  | returning
deriving DecidableEq

mutual

def Object.flat : Object → List FlatPiece
  | .integer n => [.integer n]
  | .boolean b => [.boolean b]
  | .string s => [.string s]
  | .null => [.null]
  | .array elements => .array elements.length :: flatAll elements
  | .hash entries => .hash entries.length :: flatEntries entries
  | .function c => [.function (c.parameters.map (·.literal)) c.body.render]
  | .builtin b => [.builtin b]
  | .error e => [.error e]
  | .returning value => .returning :: value.flat

def flatAll : List Object → List FlatPiece
  | [] => []
  | o :: os => o.flat ++ flatAll os

def flatEntries : List (Entry Object) → List FlatPiece
  | [] => []
  | ⟨_, key, value⟩ :: es => key.flat ++ value.flat ++ flatEntries es

end

end Treewalk
