import Treewalk.Parser.Window

/-!
# Lists between delimiters

All of these start on the opening token and end on the closing one.
-/

namespace Treewalk.Parser

variable {α β : Type}

/-- Items after the first, each behind a comma. -/
def moreItems (item : Parser α) : Nat → Parser (List α)
  | 0 => Run.exhausted
  | n + 1 => do
    if ← accept .comma then
      let x ← item
      return x :: (← moreItems item n)
    else return []

/-- Items separated by commas, up to `closing`. -/
def items (closing : TokenKind) (item : Parser α) (depth : Nat) : Parser (List α) := do
  if ← accept closing then return []
  let x ← item
  let xs ← moreItems item depth
  expect closing
  return x :: xs

/-- Pairs up to a closing brace. A comma may follow the last one. -/
def pairs (item : Parser α) : Nat → Parser (List (α × α))
  | 0 => Run.exhausted
  | n + 1 => do
    if (← next).kind = .rightBrace then return []
    advance
    let key ← item
    expect .colon
    advance
    let value ← item
    if (← next).kind ≠ .rightBrace then expect .comma
    return (key, value) :: (← pairs item n)

/-- What `item` reads up to `closing` or the end of input. Failed items leave nothing. -/
def untilKind (closing : TokenKind) (item : Parser α) : Nat → Parser (List α)
  | 0 => Run.exhausted
  | n + 1 => do
    let token ← current
    if token.kind = closing ∨ token.kind = .eof then return []
    let found ← Run.attempt item
    advance
    let rest ← untilKind closing item n
    match found with
    | .ok x => return x :: rest
    | .error _ => return rest

end Treewalk.Parser
