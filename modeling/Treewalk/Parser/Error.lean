import Treewalk.Token.Basic
import Treewalk.Text.Quoted

/-!
# Syntax errors
-/

namespace Treewalk

inductive SyntaxError
  | unexpected (expected found : TokenKind) (line : Nat)
  | noExpression (found : TokenKind) (line : Nat)
  | invalidInteger (literal : String) (line : Nat)
deriving DecidableEq, Repr

namespace SyntaxError

def line : SyntaxError → Nat
  | unexpected _ _ line => line
  | noExpression _ line => line
  | invalidInteger _ line => line

def message : SyntaxError → String
  | unexpected expected found _ =>
    "expected next token to be " ++ expected.name ++ ", got " ++ found.name ++ " instead"
  | noExpression found _ => "no prefix parse function for " ++ found.name ++ " found"
  | invalidInteger literal _ => "could not parse " ++ quoted literal ++ " as integer"

/-- One line for each error. -/
def report (errors : List SyntaxError) : String :=
  "\n".intercalate (errors.map fun e => "Error on line " ++ toString e.line ++ ": " ++ e.message)

end SyntaxError

end Treewalk
