import Treewalk.Program.Basic

/-!
# Programs as text

Every operation stands in parentheses of its own, so that the text shows how a program groups.
-/

namespace Treewalk

def commaSeparated (items : List String) : String := ", ".intercalate items

def braced (text : String) : String := "\x7b" ++ text ++ "\x7d"

mutual

def Expr.render : Expr → String
  | .identifier name => name.literal
  | .integer token _ => token.literal
  | .boolean token _ => token.literal
  | .string token => token.literal
  | .prefixed _ op operand => "(" ++ op.symbol ++ operand.render ++ ")"
  | .binary _ op left right => "(" ++ left.render ++ " " ++ op.symbol ++ " " ++ right.render ++ ")"
  | .conditional _ condition consequence none =>
    "if " ++ condition.render ++ " " ++ braced (" " ++ consequence.render ++ " ")
  | .conditional _ condition consequence (some alternative) =>
    "if " ++ condition.render ++ " " ++ braced (" " ++ consequence.render ++ " ") ++
      " else " ++ braced (" " ++ alternative.render ++ " ")
  | .function _ parameters body =>
    "fn(" ++ commaSeparated (parameters.map (·.literal)) ++ ") " ++
      braced (" " ++ body.render ++ " ")
  | .call _ callee arguments => callee.render ++ "(" ++ commaSeparated (renderAll arguments) ++ ")"
  | .array _ elements => "[" ++ commaSeparated (renderAll elements) ++ "]"
  | .hash _ pairs => braced (commaSeparated (renderPairs pairs))
  | .index _ base position => "(" ++ base.render ++ "[" ++ position.render ++ "])"

def renderAll : List Expr → List String
  | [] => []
  | e :: es => e.render :: renderAll es

def renderPairs : List (Expr × Expr) → List String
  | [] => []
  | (key, value) :: pairs => (key.render ++ ": " ++ value.render) :: renderPairs pairs

def Statement.render : Statement → String
  | .binding _ name value => "let " ++ name.literal ++ " = " ++ value.render ++ ";"
  | .returning _ none => "return;"
  | .returning _ (some value) => "return " ++ value.render ++ ";"
  | .expression _ value => value.render

/-- Statements follow one another without a separator. -/
def renderStatements : List Statement → String
  | [] => ""
  | s :: ss => s.render ++ renderStatements ss

def Block.render : Block → String
  | ⟨_, statements⟩ => renderStatements statements

end

def Program.render (p : Program) : String := renderStatements p

end Treewalk
