import Treewalk.Program.Basic
import Treewalk.Value.Builtin
import Treewalk.Value.Kind

/-!
# Runtime errors
-/

namespace Treewalk

inductive RuntimeError
  | unknownIdentifier (name : String)
  | unknownPrefix (op : PrefixOp) (operand : Kind)
  | unknownInfix (left : Kind) (op : InfixOp) (right : Kind)
  | typeMismatch (left : Kind) (op : InfixOp) (right : Kind)
  | divisionByZero
  | unusableAsHashKey (kind : Kind)
  | indexNotSupported (kind : Kind)
  | arrayIndexNotInteger (index : Kind)
  | notAFunction (kind : Kind)
  | wrongArgumentCount (want got : Nat)
  | builtinArity (builtin : Builtin) (want : Nat)
  | builtinArgument (builtin : Builtin) (got : Kind)
  | builtinExpectedArray (builtin : Builtin) (got : Kind)
deriving DecidableEq, Repr

namespace RuntimeError

def argumentCount : Nat → String
  | 0 => "no arguments"
  | 1 => "one argument"
  | 2 => "two arguments"
  | 3 => "three arguments"
  | _ => "several arguments"

def message : RuntimeError → String
  | unknownIdentifier name => "identifier not found: " ++ name
  | unknownPrefix op operand => "unknown operator: " ++ op.symbol ++ operand.name
  | unknownInfix left op right =>
    "unknown operator: " ++ left.name ++ " " ++ op.symbol ++ " " ++ right.name
  | typeMismatch left op right =>
    "type mismatch: " ++ left.name ++ " " ++ op.symbol ++ " " ++ right.name
  | divisionByZero => "division by zero"
  | unusableAsHashKey kind => "unusable as hash key: " ++ kind.name
  | indexNotSupported kind => "index operator not supported: " ++ kind.name
  | arrayIndexNotInteger index => "index operator not supported: ARRAY[" ++ index.name ++ "]"
  | notAFunction kind => "not a function: " ++ kind.name
  | wrongArgumentCount want got =>
    "wrong number of arguments: want=" ++ toString want ++ ", got=" ++ toString got
  | builtinArity builtin want => "`" ++ builtin.name ++ "` takes " ++ argumentCount want
  | builtinArgument builtin got =>
    "argument to `" ++ builtin.name ++ "` not supported, got " ++ got.name
  | builtinExpectedArray builtin got =>
    "argument to `" ++ builtin.name ++ "` must be ARRAY, got " ++ got.name

end RuntimeError

end Treewalk
