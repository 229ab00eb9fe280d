import Treewalk.Token.Basic

/-!
# Programs

A program is a list of statements. Every node keeps the token that it grew from, so that messages
and listings can name its line.
-/

namespace Treewalk

inductive PrefixOp
  | not | negate
deriving DecidableEq, Repr

namespace PrefixOp

def symbol : PrefixOp → String
  | not => "!"
  | negate => "-"

def ofKind? : TokenKind → Option PrefixOp
  | .bang => some not
  | .minus => some negate
  | _ => none

end PrefixOp

inductive InfixOp
  | add | sub | mul | div | less | greater | equal | notEqual
deriving DecidableEq, Repr

namespace InfixOp

def symbol : InfixOp → String
  | add => "+"
  | sub => "-"
  | mul => "*"
  | div => "/"
  | less => "<"
  | greater => ">"
  | equal => "=="
  | notEqual => "!="

def ofKind? : TokenKind → Option InfixOp
  | .plus => some add
  | .minus => some sub
  | .star => some mul
  | .slash => some div
  | .less => some less
  | .greater => some greater
  | .equal => some equal
  | .notEqual => some notEqual
  | _ => none

end InfixOp

mutual

/-- An expression. Names and strings are the literals of their tokens. -/
inductive Expr
  | identifier (name : Token)
  | integer (token : Token) (value : Int64)
  | boolean (token : Token) (value : Bool)
  | string (token : Token)
  | prefixed (token : Token) (op : PrefixOp) (operand : Expr)
  | binary (token : Token) (op : InfixOp) (left right : Expr)
  | conditional (token : Token) (condition : Expr) (consequence : Block)
      (alternative : Option Block)
  | function (token : Token) (parameters : List Token) (body : Block)
  | call (token : Token) (callee : Expr) (arguments : List Expr)
  | array (token : Token) (elements : List Expr)
  | hash (token : Token) (pairs : List (Expr × Expr))
  | index (token : Token) (base position : Expr)

inductive Statement
  | binding (token name : Token) (value : Expr)
  | returning (token : Token) (value : Option Expr)
  | expression (token : Token) (value : Expr)

/-- Statements between braces; the token is the opening one. -/
structure Block where
  token : Token
  statements : List Statement

end

abbrev Program := List Statement

end Treewalk
