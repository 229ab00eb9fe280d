import Treewalk.Value.Display

/-!
# What the built-in functions do

Only `puts` has an effect, which is what it prints.
-/

namespace Treewalk

namespace Builtin

def length : Object → Except RuntimeError Object
  | .string s => .ok (.integer (.ofNat s.utf8ByteSize))
  | .array elements => .ok (.integer (.ofNat elements.length))
  | o => .error (.builtinArgument len o.kind)

/-- The elements of an array argument. -/
def elements (b : Builtin) : Object → Except RuntimeError (List Object)
  | .array elements => .ok elements
  | o => .error (.builtinExpectedArray b o.kind)

/-- A wrong number of arguments is an error before any argument is looked at. -/
def result : Builtin → List Object → Except RuntimeError Object
  | len, [o] => length o
  | first, [o] => (elements first o).map fun xs => xs.head?.getD .null
  | last, [o] => (elements last o).map fun xs => xs.getLast?.getD .null
  | rest, [o] => (elements rest o).map fun
    | [] => .null
    | _ :: xs => .array xs
  | push, [o, x] => (elements push o).map fun xs => .array (xs ++ [x])
  | puts, _ => .ok .null
  | b, _ =>
    match b.arity with
    | .exactly n => .error (.builtinArity b n)
    | .any => .ok .null

def printed : Builtin → List Object → String
  | puts, arguments => String.join (arguments.map fun o => o.display ++ "\n")
  | _, _ => ""

end Builtin

end Treewalk
