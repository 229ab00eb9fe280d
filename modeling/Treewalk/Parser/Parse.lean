import Treewalk.Parser.Grammar
import Treewalk.Token.Stream

/-!
# Parsing

A program is read as far as it goes: what cannot be read leaves an error, and reading goes on after
it.
-/

namespace Treewalk

/-- A program with the errors met on the way. -/
structure Parsed where
  program : Program
  errors : List SyntaxError

namespace Window

/-- Enough depth for the tokens of the window. -/
def depth (w : Window) : Nat := 4 * w.tokens.length + 8

/-- One expression; without an answer after an error. -/
def expression (p : Precedence) (w : Window) : Option Expr × Window :=
  match Parser.expression w.depth p w with
  | some (.ok e, w') => (some e, w')
  | some (.error _, w') => (none, w')
  | none => (none, w)

/-- Everything up to the end of input. -/
def program (w : Window) : Parsed :=
  match Parser.untilKind .eof (Parser.statement w.depth) w.depth w with
  | some (.ok p, w') => ⟨p, w'.errors⟩
  | some (.error _, w') => ⟨[], w'.errors⟩
  | none => ⟨[], w.errors⟩

end Window

def parseTokens (tokens : List Token) : Parsed := (Window.ofTokens tokens).program

def parse (source : String) : Parsed := parseTokens (scan source)

end Treewalk
