import Treewalk.Program.Render
import Treewalk.Value.Object

/-!
# Objects as text
-/

namespace Treewalk

def Closure.display (c : Closure) : String :=
  "fn(" ++ commaSeparated (c.parameters.map (·.literal)) ++ ") " ++
    braced ("\n" ++ c.body.render ++ "\n")

mutual

/-- How an object prints. Strings print bare, and a return signal like what it carries. -/
def Object.display : Object → String
  | .integer n => toString n.toInt
  | .boolean b => if b then "true" else "false"
  | .string s => s
  | .null => "null"
  | .array elements => "[" ++ commaSeparated (displayAll elements) ++ "]"
  | .hash entries => braced (commaSeparated (displayEntries entries))
  | .function closure => closure.display
  | .builtin _ => "builtin function"
  | .error e => "ERROR: " ++ e.message
  | .returning value => value.display

def displayAll : List Object → List String
  | [] => []
  | o :: os => o.display :: displayAll os

def displayEntries : List (Entry Object) → List String
  | [] => []
  | ⟨_, key, value⟩ :: es => (key.display ++ ": " ++ value.display) :: displayEntries es

end

end Treewalk
