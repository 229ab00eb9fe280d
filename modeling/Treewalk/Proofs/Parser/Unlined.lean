import Treewalk.Parser.Parse
import Treewalk.Proofs.Program.Tokens
import Treewalk.Proofs.Runs

/-!
# Parsing does not see lines

Without the lines of its tokens, a text takes every step of the parser the same way. The trees are
the same up to lines, and so are the errors, with or without recovery.
-/

namespace Treewalk

theorem Token.kind_unlined (t : Token) : t.unlined.kind = t.kind := rfl

theorem Token.literal_unlined (t : Token) : t.unlined.literal = t.literal := rfl

/-- An error on no line. -/
def SyntaxError.unlined : SyntaxError → SyntaxError
  | unexpected expected found _ => .unexpected expected found 0
  | noExpression found _ => .noExpression found 0
  | invalidInteger literal _ => .invalidInteger literal 0

/-! ## The window -/

namespace Window

def unlined (w : Window) : Window :=
  ⟨w.tokens.map Token.unlined, w.eof.unlined, w.errors.map SyntaxError.unlined⟩

theorem current_unlined (w : Window) : w.unlined.current = w.current.unlined := by
  obtain ⟨_ | ⟨t, ts⟩, e, es⟩ := w <;> rfl

theorem next_unlined (w : Window) : w.unlined.next = w.next.unlined := by
  obtain ⟨_ | ⟨t, _ | ⟨u, ts⟩⟩, e, es⟩ := w <;> rfl

theorem advance_unlined (w : Window) : w.unlined.advance = w.advance.unlined := by
  obtain ⟨_ | ⟨t, ts⟩, e, es⟩ := w <;> rfl

theorem record_unlined (e : SyntaxError) (w : Window) :
    w.unlined.record e.unlined = (w.record e).unlined := by
  simp [record, unlined]

theorem restOfStatement_unlined (ts : List Token) :
    restOfStatement (ts.map Token.unlined) = (restOfStatement ts).map Token.unlined := by
  induction ts with
  | nil => rfl
  | cons t ts ih =>
    have hnext : (ts.map Token.unlined).head?.map (·.kind) = ts.head?.map (·.kind) := by
      cases ts <;> rfl
    rw [List.map_cons, restOfStatement, restOfStatement, hnext, ih, apply_ite (List.map _),
      List.map_cons]
    rfl

theorem synchronize_unlined (w : Window) : w.unlined.synchronize = w.synchronize.unlined := by
  unfold synchronize unlined
  rw [restOfStatement_unlined]

theorem depth_unlined (w : Window) : w.unlined.depth = w.depth := by
  simp [depth, unlined]

end Window

namespace Parser

/-! ## Steps -/

variable {α β : Type}

/-- The step `x'` takes a window without lines to where `x` takes the window, without lines. For
each result `a` of `x` it has `f a`. -/
def Unlines (f : α → α) (x x' : Parser α) : Prop :=
  Run.Alike (fun w w' => w' = w.unlined) (· = ·) (fun a a' => a' = f a) x x'

namespace Unlines

variable {f : α → α} {g : β → β} {x x' : Parser α} {k : TokenKind}

theorem pure {a a' : α} (h : a' = f a) : Unlines f (Pure.pure a) (Pure.pure a') := Run.Alike.pure h

theorem fail : Unlines f fail fail := Run.Alike.exit rfl

theorem exhausted : Unlines f Run.exhausted Run.exhausted := Run.Alike.exhausted

theorem bind {y y' : α → Parser β} (hx : Unlines f x x') (hy : ∀ a, Unlines g (y a) (y' (f a))) :
    Unlines g (x >>= y) (x' >>= y') := by
  refine Run.Alike.bind hx ?_
  rintro a _ rfl
  exact hy a

theorem move {h h' : Window → Window} (hmove : ∀ w, h' w.unlined = (h w).unlined) :
    Unlines id (Run.modify h) (Run.modify h') := by
  rintro w _ rfl
  exact .some ⟨rfl, hmove w⟩

theorem look {h : Window → α} (hlook : ∀ w, h w.unlined = f (h w)) :
    Unlines f (return h (← Run.get)) (return h (← Run.get)) := by
  rintro w _ rfl
  exact .some ⟨hlook w, rfl⟩

theorem current : Unlines Token.unlined current current := look Window.current_unlined

theorem next : Unlines Token.unlined next next := look Window.next_unlined

theorem advance : Unlines id advance advance := move Window.advance_unlined

theorem record (e : SyntaxError) : Unlines id (record e) (record e.unlined) :=
  move (Window.record_unlined e)

theorem synchronize : Unlines id synchronize synchronize := move Window.synchronize_unlined

theorem advanced (h : Unlines f x x') : Unlines f (advanced x) (advanced x') :=
  advance.bind fun _ => h

theorem attempt (h : Unlines f x x') : Unlines (Except.map f) x.attempt x'.attempt := by
  rintro w _ rfl
  rw [Run.attempt_apply, Run.attempt_apply]
  have hends := h w _ rfl
  generalize x w = u, x' w.unlined = u' at hends
  cases hends with
  | none => exact .none
  | @some u u' h =>
    obtain ⟨r, v⟩ := u
    obtain ⟨r', v'⟩ := u'
    obtain ⟨hr, hv⟩ := h
    refine .some ⟨?_, hv⟩
    cases r <;> cases r'
    · rfl
    · exact hr.elim
    · exact hr.elim
    · exact congrArg Except.ok hr

theorem expect (k : TokenKind) : Unlines id (expect k) (expect k) := by
  refine next.bind fun t => ?_
  rw [Token.kind_unlined]
  split
  · exact advance
  · exact (record _).bind fun _ => fail

theorem require (k : TokenKind) : Unlines id (require k) (require k) := by
  refine next.bind fun t => ?_
  rw [Token.kind_unlined]
  split
  · exact advance
  · exact (record _).bind fun _ => synchronize.bind fun _ => fail

theorem accept (k : TokenKind) : Unlines id (accept k) (accept k) := by
  refine next.bind fun t => ?_
  rw [Token.kind_unlined]
  split
  · exact advance.bind fun _ => pure rfl
  · exact pure rfl

theorem skip (k : TokenKind) : Unlines id (skip k) (skip k) := (accept k).bind fun _ => pure rfl

/-! ## Lists -/

theorem moreItems (h : Unlines f x x') (n : Nat) :
    Unlines (List.map f) (moreItems x n) (moreItems x' n) := by
  induction n with
  | zero => exact exhausted
  | succ n ih =>
    refine (accept .comma).bind fun found => ?_
    cases found
    · exact pure rfl
    · exact h.bind fun a => ih.bind fun as => pure rfl

theorem items (closing : TokenKind) (h : Unlines f x x') (n : Nat) :
    Unlines (List.map f) (items closing x n) (items closing x' n) := by
  refine (accept closing).bind fun found => ?_
  cases found
  · exact h.bind fun a => (h.moreItems n).bind fun as => (expect closing).bind fun _ => pure rfl
  · exact pure rfl

theorem pairs (h : Unlines f x x') (n : Nat) :
    Unlines (List.map fun p => (f p.1, f p.2)) (pairs x n) (pairs x' n) := by
  induction n with
  | zero => exact exhausted
  | succ n ih =>
    refine next.bind fun t => ?_
    rw [Token.kind_unlined]
    split
    · exact pure rfl
    refine advance.bind fun _ => h.bind fun key => (expect .colon).bind fun _ =>
      advance.bind fun _ => h.bind fun value => next.bind fun u => ?_
    rw [Token.kind_unlined]
    have hrest : Unlines (List.map fun p => (f p.1, f p.2))
        (do return (key, value) :: (← Parser.pairs x n))
        (do return (f key, f value) :: (← Parser.pairs x' n)) := ih.bind fun _ => pure rfl
    dsimp only
    split
    · exact (expect .comma).bind fun _ => hrest
    · exact hrest

theorem untilKind (closing : TokenKind) (h : Unlines f x x') (n : Nat) :
    Unlines (List.map f) (untilKind closing x n) (untilKind closing x' n) := by
  induction n with
  | zero => exact exhausted
  | succ n ih =>
    refine current.bind fun t => ?_
    rw [Token.kind_unlined]
    split
    · exact pure rfl
    refine h.attempt.bind fun r => advance.bind fun _ => ih.bind fun as => ?_
    cases r with
    | error => exact pure rfl
    | ok => exact pure rfl

/-! ## The grammar -/

theorem integer : Unlines Expr.unlined integer integer := by
  refine current.bind fun t => ?_
  rw [Token.literal_unlined]
  cases readInt64 t.literal with
  | some value => exact pure rfl
  | none => exact (record _).bind fun _ => fail

theorem parameter : Unlines Token.unlined parameter parameter :=
  (expect .ident).bind fun _ => current

theorem block {x : Parser Statement} (h : Unlines Statement.unlined x x) (n : Nat) :
    Unlines Block.unlined (block x n) (block x n) := by
  refine (expect .leftBrace).bind fun _ => current.bind fun t => advance.bind fun _ =>
    (h.untilKind .rightBrace n).bind fun ss => current.bind fun last => ?_
  have hblock : Unlines Block.unlined (return ⟨t, ss⟩)
      (return ⟨t.unlined, ss.map Statement.unlined⟩) := pure (by
    simp [Block.mapTokens, mapTokensStatements_eq_map])
  rw [Token.kind_unlined]
  dsimp only
  split
  · exact (record _).bind fun _ => hblock
  · exact hblock

theorem alternative {x : Parser Block} (h : Unlines Block.unlined x x) :
    Unlines (mapTokensElse Token.unlined Token.unlined) (alternative x) (alternative x) := by
  refine (accept .elseWord).bind fun found => ?_
  cases found
  · exact pure rfl
  · exact h.bind fun b => pure rfl

theorem returnValue {x : Parser Expr} (h : Unlines Expr.unlined x x) :
    Unlines (mapTokensValue Token.unlined Token.unlined) (returnValue x) (returnValue x) := by
  refine (accept .semicolon).bind fun found => ?_
  cases found
  · refine next.bind fun t => ?_
    rw [Token.kind_unlined]
    split
    · exact pure rfl
    · exact h.advanced.bind fun e => (skip .semicolon).bind fun _ => pure rfl
  · exact pure rfl

/-- Every phrase is read the same way without lines. -/
structure Blind (n : Nat) : Prop where
  expression : ∀ p, Unlines Expr.unlined (expression n p) (expression n p)
  extend : ∀ p left, Unlines Expr.unlined (extend n p left) (extend n p left.unlined)
  suffix : ∀ left, Unlines Expr.unlined (suffix n left) (suffix n left.unlined)
  operand : Unlines Expr.unlined (operand n) (operand n)
  statement : Unlines Statement.unlined (statement n) (statement n)

variable {n : Nat}

theorem blind_extend (ih : Blind n) (p : Precedence) (left : Expr) :
    Unlines Expr.unlined (extend (n + 1) p left) (extend (n + 1) p left.unlined) := by
  rw [extend, extend]
  refine next.bind fun t => ?_
  rw [Token.kind_unlined]
  split
  · exact advance.bind fun _ => (ih.suffix left).bind (ih.extend p)
  · exact pure rfl

theorem blind_suffix (ih : Blind n) (left : Expr) :
    Unlines Expr.unlined (suffix (n + 1) left) (suffix (n + 1) left.unlined) := by
  have item (p : Precedence) := (ih.expression p).advanced
  rw [suffix, suffix]
  refine current.bind fun t => ?_
  rw [Token.kind_unlined]
  split
  · refine ((item .lowest).items .rightParen n).bind fun as => pure ?_
    simp [Expr.mapTokens, mapTokensAll_eq_map]
  · exact (item .lowest).bind fun e => (expect .rightBracket).bind fun _ => pure rfl
  · split
    · exact (item _).bind fun e => pure rfl
    · exact fail

theorem blind_operand (ih : Blind n) :
    Unlines Expr.unlined (operand (n + 1)) (operand (n + 1)) := by
  have item (p : Precedence) := (ih.expression p).advanced
  rw [operand]
  refine current.bind fun t => ?_
  rw [Token.kind_unlined]
  split
  · exact pure rfl
  · exact integer
  · exact pure rfl
  · exact pure rfl
  · exact pure rfl
  · exact (item .prefixed).bind fun e => pure rfl
  · exact (item .prefixed).bind fun e => pure rfl
  · exact (item .lowest).bind fun e => (expect .rightParen).bind fun _ => pure rfl
  · refine (expect .leftParen).bind fun _ => (item .lowest).bind fun e =>
      (expect .rightParen).bind fun _ => (ih.statement.block n).bind fun b => ?_
    exact (ih.statement.block n).alternative.bind fun a => pure rfl
  · refine (expect .leftParen).bind fun _ => (parameter.items .rightParen n).bind fun ps => ?_
    exact (ih.statement.block n).bind fun b => pure rfl
  · refine ((item .lowest).items .rightBracket n).bind fun as => pure ?_
    simp [Expr.mapTokens, mapTokensAll_eq_map]
  · refine ((ih.expression .lowest).pairs n).bind fun ps => (expect .rightBrace).bind fun _ =>
      pure ?_
    simp [Expr.mapTokens, mapTokensPairs_eq_map]
  · exact (record _).bind fun _ => fail

theorem blind_statement (ih : Blind n) :
    Unlines Statement.unlined (statement (n + 1)) (statement (n + 1)) := by
  have value := ih.expression .lowest
  rw [statement]
  refine current.bind fun t => ?_
  rw [Token.kind_unlined]
  split
  · refine (require .ident).bind fun _ => current.bind fun name => ?_
    refine (require .assign).bind fun _ => value.advanced.bind fun e => ?_
    exact (skip .semicolon).bind fun _ => pure rfl
  · exact value.returnValue.bind fun e => pure rfl
  · exact value.bind fun e => (skip .semicolon).bind fun _ => pure rfl

theorem blind (n : Nat) : Blind n := by
  induction n with
  | zero =>
    exact ⟨fun _ => exhausted, fun _ _ => exhausted, fun _ => exhausted, exhausted, exhausted⟩
  | succ n ih =>
    have expression (p : Precedence) :
        Unlines Expr.unlined (expression (n + 1) p) (expression (n + 1) p) := by
      rw [Parser.expression]
      exact ih.operand.bind (ih.extend p)
    exact ⟨expression, blind_extend ih, blind_suffix ih, blind_operand ih, blind_statement ih⟩

end Unlines

end Parser

/-! ## Programs -/

/-- What was read, up to lines. -/
def Parsed.unlined (p : Parsed) : Parsed :=
  ⟨p.program.map Statement.unlined, p.errors.map SyntaxError.unlined⟩

theorem Window.program_unlined (w : Window) : w.unlined.program = w.program.unlined := by
  have hends := ((Parser.Unlines.blind w.depth).statement.untilKind .eof w.depth) w _ rfl
  rw [program, program, depth_unlined]
  generalize Parser.untilKind .eof _ w.depth w = u, Parser.untilKind .eof _ w.depth w.unlined = u'
    at hends
  cases hends with
  | none => rfl
  | @some u u' h =>
    obtain ⟨r, v⟩ := u
    obtain ⟨r', v'⟩ := u'
    obtain ⟨hr, hv⟩ := h
    obtain rfl : v' = v.unlined := hv
    cases r <;> cases r'
    · rfl
    · exact hr.elim
    · exact hr.elim
    · rw [show _ = _ from hr]
      rfl

theorem Relined.parseTokens {us ts : List Token} (h : Relined us ts) :
    (parseTokens us).unlined = (parseTokens ts).unlined := by
  have hwindow : (Window.ofTokens us).unlined = (Window.ofTokens ts).unlined := by
    simp only [Window.ofTokens, Window.unlined]
    rw [h]
    rfl
  rw [Treewalk.parseTokens, Treewalk.parseTokens, ← Window.program_unlined, hwindow,
    Window.program_unlined]

end Treewalk
