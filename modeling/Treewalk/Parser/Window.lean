import Treewalk.Parser.Error
import Treewalk.Run

/-!
# The window of the parser

The parser sees the current token and the next one. Where tokens run out it sees the end of input,
as often as it looks.
-/

namespace Treewalk

/-- The tokens from the current one on, what stands behind the last of them, and the errors so
far. -/
structure Window where
  tokens : List Token
  eof : Token
  errors : List SyntaxError

namespace Window

/-- The end of input is on the line of the last token. -/
def ofTokens (tokens : List Token) : Window :=
  ⟨tokens, .eof ((tokens.getLast?.map (·.line)).getD 1), []⟩

def current (w : Window) : Token := w.tokens.head?.getD w.eof

def next (w : Window) : Token := w.tokens.tail.head?.getD w.eof

def advance (w : Window) : Window := { w with tokens := w.tokens.tail }

def record (e : SyntaxError) (w : Window) : Window := { w with errors := w.errors ++ [e] }

/-- Where the statement that starts `tokens` ends: on a semicolon, before a closing brace, or at
the end of input. -/
def restOfStatement : List Token → List Token
  | [] => []
  | t :: ts =>
    if t.kind = .semicolon ∨ t.kind = .eof ∨ ts.head?.map (·.kind) = some .rightBrace then t :: ts
    else restOfStatement ts

def synchronize (w : Window) : Window := { w with tokens := restOfStatement w.tokens }

@[simp] theorem current_nil (e : Token) (es : List SyntaxError) : (Window.mk [] e es).current = e :=
  rfl

@[simp] theorem current_cons (t : Token) (ts : List Token) (e : Token) (es : List SyntaxError) :
    (Window.mk (t :: ts) e es).current = t := rfl

@[simp] theorem next_nil (e : Token) (es : List SyntaxError) : (Window.mk [] e es).next = e := rfl

@[simp] theorem next_singleton (t e : Token) (es : List SyntaxError) :
    (Window.mk [t] e es).next = e := rfl

@[simp] theorem next_cons (t u : Token) (ts : List Token) (e : Token) (es : List SyntaxError) :
    (Window.mk (t :: u :: ts) e es).next = u := rfl

@[simp] theorem advance_cons (t : Token) (ts : List Token) (e : Token) (es : List SyntaxError) :
    (Window.mk (t :: ts) e es).advance = ⟨ts, e, es⟩ := rfl

theorem current_advance (w : Window) : w.advance.current = w.next := rfl

theorem restOfStatement_suffix (ts : List Token) : restOfStatement ts <:+ ts := by
  induction ts with
  | nil => exact List.suffix_refl _
  | cons t ts ih =>
    rw [restOfStatement]
    split
    · exact List.suffix_refl _
    · exact ih.trans (List.suffix_cons t ts)

end Window

/-- A parser step moves the window. It fails only after recording an error. -/
abbrev Parser := Run Window Unit

namespace Parser

def current : Parser Token := return (← Run.get).current

def next : Parser Token := return (← Run.get).next

def advance : Parser Unit := Run.modify Window.advance

def record (e : SyntaxError) : Parser Unit := Run.modify (Window.record e)

def synchronize : Parser Unit := Run.modify Window.synchronize

def fail {α : Type} : Parser α := Run.exit ()

/-- Moves to the next token if it has the kind. -/
def expect (kind : TokenKind) : Parser Unit := do
  let next ← next
  if next.kind = kind then advance
  else
    record (.unexpected kind next.kind next.line)
    fail

/-- Like `expect`, but gives up the whole statement if another token comes. -/
def require (kind : TokenKind) : Parser Unit := do
  let next ← next
  if next.kind = kind then advance
  else
    record (.unexpected kind next.kind next.line)
    synchronize
    fail

/-- Moves to the next token if it has the kind, and says whether it did. -/
def accept (kind : TokenKind) : Parser Bool := do
  if (← next).kind = kind then
    advance
    return true
  else return false

def skip (kind : TokenKind) : Parser Unit := do
  let _ ← accept kind

/-- Reads from the next token on. -/
def advanced {α : Type} (step : Parser α) : Parser α := do
  advance
  step

end Parser

end Treewalk
