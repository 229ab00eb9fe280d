import Treewalk.Parser.Lists
import Treewalk.Parser.Precedence
import Treewalk.Program.Basic
import Treewalk.Text.Numeral

/-!
# The grammar

Each step starts on the first token of what it reads and ends on the last one. Recursion goes down
one level of depth at a time.
-/

namespace Treewalk.Parser

/-- An integer literal has to fit into 64 bits. -/
def integer : Parser Expr := do
  let token ← current
  match readInt64 token.literal with
  | some value => return .integer token value
  | none =>
    record (.invalidInteger token.literal token.line)
    fail

def parameter : Parser Token := do
  expect .ident
  current

/-- A block, from the token before its opening brace. Input that ends inside it is an error, and
the block holds what was read. -/
def block (item : Parser Statement) (depth : Nat) : Parser Block := do
  expect .leftBrace
  let token ← current
  advance
  let statements ← untilKind .rightBrace item depth
  let last ← current
  if last.kind = .eof then record (.unexpected .rightBrace .eof last.line)
  return ⟨token, statements⟩

def alternative (branch : Parser Block) : Parser (Option Block) := do
  if ← accept .elseWord then return some (← branch)
  else return none

/-- The value of a return statement, which `;`, a closing brace or the end of input leaves out. -/
def returnValue (value : Parser Expr) : Parser (Option Expr) := do
  if ← accept .semicolon then return none
  let next ← next
  if next.kind = .rightBrace ∨ next.kind = .eof then return none
  let value ← advanced value
  skip .semicolon
  return some value

mutual

/-- The longest expression whose operators bind more tightly than `p`. -/
def expression : Nat → Precedence → Parser Expr
  | 0, _ => Run.exhausted
  | n + 1, p => do
    let left ← operand n
    extend n p left

/-- Adds operators, calls and indexings to `left` as long as they bind more tightly than `p`. -/
def extend : Nat → Precedence → Expr → Parser Expr
  | 0, _, _ => Run.exhausted
  | n + 1, p, left => do
    let next ← next
    if next.kind ≠ .semicolon ∧ p < .ofKind next.kind then
      advance
      let whole ← suffix n left
      extend n p whole
    else return left

/-- One operator with its right operand, one call or one indexing. -/
def suffix : Nat → Expr → Parser Expr
  | 0, _ => Run.exhausted
  | n + 1, left => do
    let token ← current
    match token.kind with
    | .leftParen =>
      return .call token left (← items .rightParen (advanced (expression n .lowest)) n)
    | .leftBracket =>
      let position ← advanced (expression n .lowest)
      expect .rightBracket
      return .index token left position
    | kind =>
      match InfixOp.ofKind? kind with
      | some op => return .binary token op left (← advanced (expression n (.ofKind kind)))
      | none => fail

/-- An expression with nothing to its left. -/
def operand : Nat → Parser Expr
  | 0 => Run.exhausted
  | n + 1 => do
    let token ← current
    match token.kind with
    | .ident => return .identifier token
    | .int => integer
    | .string => return .string token
    | .trueWord => return .boolean token true
    | .falseWord => return .boolean token false
    | .bang => return .prefixed token .not (← advanced (expression n .prefixed))
    | .minus => return .prefixed token .negate (← advanced (expression n .prefixed))
    | .leftParen =>
      let inner ← advanced (expression n .lowest)
      expect .rightParen
      return inner
    | .ifWord =>
      expect .leftParen
      let condition ← advanced (expression n .lowest)
      expect .rightParen
      let consequence ← block (statement n) n
      let alternative ← alternative (block (statement n) n)
      return .conditional token condition consequence alternative
    | .function =>
      expect .leftParen
      let parameters ← items .rightParen parameter n
      let body ← block (statement n) n
      return .function token parameters body
    | .leftBracket =>
      return .array token (← items .rightBracket (advanced (expression n .lowest)) n)
    | .leftBrace =>
      let pairs ← pairs (expression n .lowest) n
      expect .rightBrace
      return .hash token pairs
    | kind =>
      record (.noExpression kind token.line)
      fail

def statement : Nat → Parser Statement
  | 0 => Run.exhausted
  | n + 1 => do
    let token ← current
    match token.kind with
    | .letWord =>
      require .ident
      let name ← current
      require .assign
      let value ← advanced (expression n .lowest)
      skip .semicolon
      return .binding token name value
    | .returnWord => return .returning token (← returnValue (expression n .lowest))
    | _ =>
      let value ← expression n .lowest
      skip .semicolon
      return .expression token value

end

end Treewalk.Parser
