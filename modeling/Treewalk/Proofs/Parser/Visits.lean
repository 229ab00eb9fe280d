import Treewalk.Proofs.Parser.Depth
import Treewalk.Proofs.Records

/-!
# Parsing with a record of its visits

The same parser, which also keeps at how many tokens before the end of the window each routine was
entered. Without the record it is the parser itself.
-/

namespace Treewalk

/-- What the parser enters again and again: the routines that call themselves, the rounds of its
lists and pairs, and the moves over what is skipped. -/
inductive Routine
  | statement | expression | suffix | block | item | pair | skipping
deriving DecidableEq

/-- A routine was entered when the window held `left` tokens. -/
structure Visit where
  routine : Routine
  left : Nat
deriving DecidableEq

/-- Parser steps that keep the visits so far, in order. -/
abbrev Visiting := Run (Window × List Visit) Unit

namespace Visiting

open Run (beside)

variable {α : Type}

def visit (r : Routine) : Visiting Unit := Run.modify fun (w, vs) => (w, vs ++ [⟨r, w.size⟩])

/-- One visit for each token that is dropped up to the end of the statement. -/
def skips : List Token → List Visit
  | [] => []
  | t :: ts =>
    if t.kind = .semicolon ∨ t.kind = .eof ∨ ts.head?.map (·.kind) = some .rightBrace then []
    else ⟨.skipping, ts.length + 1⟩ :: skips ts

def synchronize : Visiting Unit :=
  Run.modify fun (w, vs) => (w.synchronize, vs ++ skips w.tokens)

def require (kind : TokenKind) : Visiting Unit := do
  let next ← beside Parser.next
  if next.kind = kind then beside Parser.advance
  else
    beside (Parser.record (.unexpected kind next.kind next.line))
    synchronize
    beside Parser.fail

def advanced (step : Visiting α) : Visiting α := do
  beside Parser.advance
  step

/-! ## Lists -/

def moreItems (item : Visiting α) : Nat → Visiting (List α)
  | 0 => Run.exhausted
  | n + 1 => do
    if ← beside (Parser.accept .comma) then
      visit .item
      let x ← item
      return x :: (← moreItems item n)
    else return []

def items (closing : TokenKind) (item : Visiting α) (depth : Nat) : Visiting (List α) := do
  if ← beside (Parser.accept closing) then return []
  let x ← item
  let xs ← moreItems item depth
  beside (Parser.expect closing)
  return x :: xs

def pairs (item : Visiting α) : Nat → Visiting (List (α × α))
  | 0 => Run.exhausted
  | n + 1 => do
    if (← beside Parser.next).kind = .rightBrace then return []
    visit .pair
    beside Parser.advance
    let key ← item
    beside (Parser.expect .colon)
    beside Parser.advance
    let value ← item
    if (← beside Parser.next).kind ≠ .rightBrace then beside (Parser.expect .comma)
    return (key, value) :: (← pairs item n)

def untilKind (closing : TokenKind) (item : Visiting α) : Nat → Visiting (List α)
  | 0 => Run.exhausted
  | n + 1 => do
    let token ← beside Parser.current
    if token.kind = closing ∨ token.kind = .eof then return []
    let found ← Run.attempt item
    beside Parser.advance
    let rest ← untilKind closing item n
    match found with
    | .ok x => return x :: rest
    | .error _ => return rest

/-! ## The grammar -/

def block (item : Visiting Statement) (depth : Nat) : Visiting Block := do
  beside (Parser.expect .leftBrace)
  visit .block
  let token ← beside Parser.current
  beside Parser.advance
  let statements ← untilKind .rightBrace item depth
  let last ← beside Parser.current
  if last.kind = .eof then beside (Parser.record (.unexpected .rightBrace .eof last.line))
  return ⟨token, statements⟩

def alternative (branch : Visiting Block) : Visiting (Option Block) := do
  if ← beside (Parser.accept .elseWord) then return some (← branch)
  else return none

def returnValue (value : Visiting Expr) : Visiting (Option Expr) := do
  if ← beside (Parser.accept .semicolon) then return none
  let next ← beside Parser.next
  if next.kind = .rightBrace ∨ next.kind = .eof then return none
  let value ← advanced value
  beside (Parser.skip .semicolon)
  return some value

mutual

def expression : Nat → Precedence → Visiting Expr
  | 0, _ => Run.exhausted
  | n + 1, p => do
    visit .expression
    let left ← operand n
    extend n p left

def extend : Nat → Precedence → Expr → Visiting Expr
  | 0, _, _ => Run.exhausted
  | n + 1, p, left => do
    let next ← beside Parser.next
    if next.kind ≠ .semicolon ∧ p < .ofKind next.kind then
      beside Parser.advance
      let whole ← suffix n left
      extend n p whole
    else return left

def suffix : Nat → Expr → Visiting Expr
  | 0, _ => Run.exhausted
  | n + 1, left => do
    visit .suffix
    let token ← beside Parser.current
    match token.kind with
    | .leftParen =>
      return .call token left (← items .rightParen (advanced (expression n .lowest)) n)
    | .leftBracket =>
      let position ← advanced (expression n .lowest)
      beside (Parser.expect .rightBracket)
      return .index token left position
    | kind =>
      match InfixOp.ofKind? kind with
      | some op => return .binary token op left (← advanced (expression n (.ofKind kind)))
      | none => beside Parser.fail

def operand : Nat → Visiting Expr
  | 0 => Run.exhausted
  | n + 1 => do
    let token ← beside Parser.current
    match token.kind with
    | .ident => return .identifier token
    | .int => beside Parser.integer
    | .string => return .string token
    | .trueWord => return .boolean token true
    | .falseWord => return .boolean token false
    | .bang => return .prefixed token .not (← advanced (expression n .prefixed))
    | .minus => return .prefixed token .negate (← advanced (expression n .prefixed))
    | .leftParen =>
      let inner ← advanced (expression n .lowest)
      beside (Parser.expect .rightParen)
      return inner
    | .ifWord =>
      beside (Parser.expect .leftParen)
      let condition ← advanced (expression n .lowest)
      beside (Parser.expect .rightParen)
      let consequence ← block (statement n) n
      let alternative ← alternative (block (statement n) n)
      return .conditional token condition consequence alternative
    | .function =>
      beside (Parser.expect .leftParen)
      let parameters ← items .rightParen (beside Parser.parameter) n
      let body ← block (statement n) n
      return .function token parameters body
    | .leftBracket =>
      return .array token (← items .rightBracket (advanced (expression n .lowest)) n)
    | .leftBrace =>
      let pairs ← pairs (expression n .lowest) n
      beside (Parser.expect .rightBrace)
      return .hash token pairs
    | kind =>
      beside (Parser.record (.noExpression kind token.line))
      beside Parser.fail

def statement : Nat → Visiting Statement
  | 0 => Run.exhausted
  | n + 1 => do
    visit .statement
    let token ← beside Parser.current
    match token.kind with
    | .letWord =>
      require .ident
      let name ← beside Parser.current
      require .assign
      let value ← advanced (expression n .lowest)
      beside (Parser.skip .semicolon)
      return .binding token name value
    | .returnWord => return .returning token (← returnValue (expression n .lowest))
    | _ =>
      let value ← expression n .lowest
      beside (Parser.skip .semicolon)
      return .expression token value

end

/-- What the parser visits on its way through a whole text. -/
def program (depth : Nat) (w : Window) : Option (Except Unit Program × Window × List Visit) :=
  untilKind .eof (statement depth) depth (w, [])

/-! ## The record changes nothing -/

open Run (Erases)

theorem erases_visit_bind {β : Type} {r : Routine} {f : Unit → Visiting β} {y : Parser β}
    (h : Erases (f ()) y) : Erases (visit r >>= f) y :=
  fun w vs => h w (vs ++ [Visit.mk r w.size])

theorem erases_synchronize : Erases synchronize Parser.synchronize := fun _ _ => rfl

theorem erases_require (k : TokenKind) : Erases (require k) (Parser.require k) := by
  refine .bind (.beside _) fun next => ?_
  split
  · exact .beside _
  · exact .bind (.beside _) fun _ => .bind erases_synchronize fun _ => .beside _

theorem erases_advanced {x : Visiting α} {y : Parser α} (h : Erases x y) :
    Erases (advanced x) (Parser.advanced y) := .bind (.beside _) fun _ => h

theorem erases_moreItems {x : Visiting α} {y : Parser α} (h : Erases x y) (n : Nat) :
    Erases (moreItems x n) (Parser.moreItems y n) := by
  induction n with
  | zero => exact .exhausted
  | succ n ih =>
    refine .bind (.beside _) fun more => ?_
    split
    · exact erases_visit_bind (.bind h fun a => .bind ih fun as => .pure _)
    · exact .pure _

theorem erases_items {x : Visiting α} {y : Parser α} (h : Erases x y) (closing : TokenKind)
    (n : Nat) : Erases (items closing x n) (Parser.items closing y n) := by
  refine .bind (.beside _) fun none => ?_
  split
  · exact .pure _
  · refine .bind h fun a => .bind (erases_moreItems h n) fun as => ?_
    exact .bind (.beside _) fun _ => .pure _

theorem erases_pairs {x : Visiting α} {y : Parser α} (h : Erases x y) (n : Nat) :
    Erases (pairs x n) (Parser.pairs y n) := by
  induction n with
  | zero => exact .exhausted
  | succ n ih =>
    refine .bind (.beside _) fun next => ?_
    split
    · exact .pure _
    refine erases_visit_bind (.bind (.beside _) fun _ => .bind h fun key => ?_)
    refine .bind (.beside _) fun _ => .bind (.beside _) fun _ => .bind h fun value => ?_
    refine .bind (.beside _) fun next => ?_
    dsimp only
    split
    · exact .bind (.beside _) fun _ => .bind ih fun ps => .pure _
    · exact .bind ih fun ps => .pure _

theorem erases_untilKind {x : Visiting α} {y : Parser α} (h : Erases x y) (closing : TokenKind)
    (n : Nat) : Erases (untilKind closing x n) (Parser.untilKind closing y n) := by
  induction n with
  | zero => exact .exhausted
  | succ n ih =>
    refine .bind (.beside _) fun token => ?_
    split
    · exact .pure _
    refine .bind h.attempt fun found => .bind (.beside _) fun _ => .bind ih fun rest => ?_
    cases found <;> exact .pure _

theorem erases_block {x : Visiting Statement} {y : Parser Statement} (h : Erases x y) (n : Nat) :
    Erases (block x n) (Parser.block y n) := by
  refine .bind (.beside _) fun _ => erases_visit_bind (.bind (.beside _) fun token => ?_)
  refine .bind (.beside _) fun _ => .bind (erases_untilKind h .rightBrace n) fun ss => ?_
  refine .bind (.beside _) fun last => ?_
  dsimp only
  split
  · exact .bind (.beside _) fun _ => .pure _
  · exact .pure _

theorem erases_alternative {x : Visiting Block} {y : Parser Block} (h : Erases x y) :
    Erases (alternative x) (Parser.alternative y) := by
  refine .bind (.beside _) fun more => ?_
  split
  · exact .bind h fun b => .pure _
  · exact .pure _

theorem erases_returnValue {x : Visiting Expr} {y : Parser Expr} (h : Erases x y) :
    Erases (returnValue x) (Parser.returnValue y) := by
  refine .bind (.beside _) fun bare => ?_
  split
  · exact .pure _
  refine .bind (.beside _) fun next => ?_
  split
  · exact .pure _
  · exact .bind (erases_advanced h) fun e => .bind (.beside _) fun _ => .pure _

structure Faithful (n : Nat) : Prop where
  expression : ∀ p, Erases (expression n p) (Parser.expression n p)
  extend : ∀ p left, Erases (extend n p left) (Parser.extend n p left)
  suffix : ∀ left, Erases (suffix n left) (Parser.suffix n left)
  operand : Erases (operand n) (Parser.operand n)
  statement : Erases (statement n) (Parser.statement n)

section

variable {n : Nat} (ih : Faithful n)

include ih

theorem faithful_expression (p : Precedence) :
    Erases (expression (n + 1) p) (Parser.expression (n + 1) p) := by
  rw [expression, Parser.expression]
  exact erases_visit_bind (.bind ih.operand fun left => ih.extend p left)

theorem faithful_extend (p : Precedence) (left : Expr) :
    Erases (extend (n + 1) p left) (Parser.extend (n + 1) p left) := by
  rw [extend, Parser.extend]
  refine .bind (.beside _) fun next => ?_
  split
  · exact .bind (.beside _) fun _ => .bind (ih.suffix left) fun whole => ih.extend p whole
  · exact .pure _

theorem faithful_suffix (left : Expr) :
    Erases (suffix (n + 1) left) (Parser.suffix (n + 1) left) := by
  have item (p : Precedence) := erases_advanced (ih.expression p)
  rw [suffix, Parser.suffix]
  refine erases_visit_bind (.bind (.beside _) fun token => ?_)
  cases token.kind with
  | leftParen => exact .bind (erases_items (item .lowest) .rightParen n) fun as => .pure _
  | leftBracket => exact .bind (item .lowest) fun e => .bind (.beside _) fun _ => .pure _
  | _ =>
    first
      | exact .bind (item _) fun e => .pure _
      | exact .beside _

theorem faithful_operand : Erases (operand (n + 1)) (Parser.operand (n + 1)) := by
  have item (p : Precedence) := erases_advanced (ih.expression p)
  have body := erases_block ih.statement n
  rw [operand, Parser.operand]
  refine .bind (.beside _) fun token => ?_
  cases token.kind with
  | ident | string | trueWord | falseWord => exact .pure _
  | int => exact .beside _
  | bang | minus => exact .bind (item .prefixed) fun e => .pure _
  | leftParen => exact .bind (item .lowest) fun e => .bind (.beside _) fun _ => .pure _
  | ifWord =>
    refine .bind (.beside _) fun _ => .bind (item .lowest) fun e => .bind (.beside _) fun _ => ?_
    exact .bind body fun b => .bind (erases_alternative body) fun a => .pure _
  | function =>
    refine .bind (.beside _) fun _ => .bind (erases_items (.beside _) .rightParen n) fun ps => ?_
    exact .bind body fun b => .pure _
  | leftBracket => exact .bind (erases_items (item .lowest) .rightBracket n) fun as => .pure _
  | leftBrace =>
    refine .bind (erases_pairs (ih.expression .lowest) n) fun ps => ?_
    exact .bind (.beside _) fun _ => .pure _
  | _ => exact .bind (.beside _) fun _ => .beside _

theorem faithful_statement : Erases (statement (n + 1)) (Parser.statement (n + 1)) := by
  have value := ih.expression .lowest
  rw [statement, Parser.statement]
  refine erases_visit_bind (.bind (.beside _) fun token => ?_)
  cases token.kind with
  | letWord =>
    refine .bind (erases_require .ident) fun _ => .bind (.beside _) fun name => ?_
    refine .bind (erases_require .assign) fun _ => .bind (erases_advanced value) fun e => ?_
    exact .bind (.beside _) fun _ => .pure _
  | returnWord => exact .bind (erases_returnValue value) fun e => .pure _
  | _ => exact .bind value fun e => .bind (.beside _) fun _ => .pure _

end

theorem faithful (n : Nat) : Faithful n := by
  induction n with
  | zero =>
    exact ⟨fun _ => .exhausted, fun _ _ => .exhausted, fun _ => .exhausted, .exhausted,
      .exhausted⟩
  | succ n ih =>
    exact ⟨faithful_expression ih, faithful_extend ih, faithful_suffix ih, faithful_operand ih,
      faithful_statement ih⟩

/-- A text is parsed with its record just as it is without it. -/
theorem program_erases (n : Nat) (w : Window) :
    (program n w).map (fun (r, u, _) => (r, u)) = Parser.untilKind .eof (Parser.statement n) n w :=
  erases_untilKind (faithful n).statement .eof n w []

end Visiting

end Treewalk
