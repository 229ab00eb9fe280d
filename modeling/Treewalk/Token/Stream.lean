import Treewalk.Token.Lexeme

/-!
# The tokens of a text

Tokens take the line where they start. The last one is the end of the text, and whoever reads on
reads it again.
-/

namespace Treewalk

/-- The tokens of lexemes of which the first starts on `line`. -/
def tokensFrom (line : Nat) : List Lexeme → List Token
  | [] => [.eof line]
  | l :: ls => (l.token? line).toList ++ tokensFrom (line + l.breaks) ls

/-- The tokens of a text up to and with its end. -/
def scan (source : String) : List Token := tokensFrom 1 (lexemes source.toList)

/-- The first `n` tokens that a reader of `tokens` gets. -/
def readAhead : Nat → List Token → List Token
  | 0, _ => []
  | _ + 1, [] => []
  | n + 1, [last] => last :: readAhead n [last]
  | n + 1, t :: u :: ts => t :: readAhead n (u :: ts)

end Treewalk
