import Treewalk.Parser.Parse
import Treewalk.Proofs.Runs

/-!
# Windows that the parser cannot tell apart

The parser sees no more of a window than two tokens at a time. Windows that show the same two, and
go on to show the same however the parser moves, are read to the same results.
-/

namespace Treewalk

/-- Related windows show the same tokens, and stay related whatever the parser does to them. -/
structure Window.Indistinct (M : Window → Window → Prop) : Prop where
  current : ∀ {w w'}, M w w' → w'.current = w.current
  next : ∀ {w w'}, M w w' → w'.next = w.next
  advance : ∀ {w w'}, M w w' → M w.advance w'.advance
  record : ∀ {w w'} e, M w w' → M (w.record e) (w'.record e)
  synchronize : ∀ {w w'}, M w w' → M w.synchronize w'.synchronize

namespace Parser

variable {M : Window → Window → Prop} {α β : Type}

/-! ## Steps -/

/-- From related windows the step comes to the same result, and to related windows. -/
def ReadsAlike (M : Window → Window → Prop) (x : Parser α) : Prop :=
  Run.Alike M (· = ·) (· = ·) x x

namespace ReadsAlike

variable {x : Parser α}

theorem pure {a : α} : ReadsAlike M (Pure.pure a) := Run.Alike.pure rfl

theorem fail : ReadsAlike M (fail : Parser α) := Run.Alike.exit rfl

theorem exhausted : ReadsAlike M (Run.exhausted : Parser α) := Run.Alike.exhausted

theorem bind {f : α → Parser β} (hx : ReadsAlike M x) (hf : ∀ a, ReadsAlike M (f a)) :
    ReadsAlike M (x >>= f) := by
  refine Run.Alike.bind hx ?_
  rintro a _ rfl
  exact hf a

theorem attempt (hx : ReadsAlike M x) : ReadsAlike M x.attempt := by
  intro w w' hw
  rw [Run.attempt_apply, Run.attempt_apply]
  have hends := hx w w' hw
  generalize x w = u, x w' = u' at hends
  cases hends with
  | none => exact .none
  | @some u u' h =>
    obtain ⟨r, v⟩ := u
    obtain ⟨r', v'⟩ := u'
    obtain ⟨hr, hv⟩ := h
    refine .some ⟨?_, hv⟩
    cases r <;> cases r'
    · exact congrArg Except.error hr
    · exact hr.elim
    · exact hr.elim
    · exact congrArg Except.ok hr

end ReadsAlike

section Steps

variable (hM : Window.Indistinct M)

include hM

theorem alike_current : ReadsAlike M current := by
  intro w w' hw
  exact .some ⟨(hM.current hw).symm, hw⟩

theorem alike_next : ReadsAlike M next := by
  intro w w' hw
  exact .some ⟨(hM.next hw).symm, hw⟩

theorem alike_advance : ReadsAlike M advance := by
  intro w w' hw
  exact .some ⟨rfl, hM.advance hw⟩

theorem alike_record (e : SyntaxError) : ReadsAlike M (record e) := by
  intro w w' hw
  exact .some ⟨rfl, hM.record e hw⟩

theorem alike_synchronize : ReadsAlike M synchronize := by
  intro w w' hw
  exact .some ⟨rfl, hM.synchronize hw⟩

theorem alike_advanced {x : Parser α} (hx : ReadsAlike M x) : ReadsAlike M (advanced x) :=
  (alike_advance hM).bind fun _ => hx

theorem alike_expect (k : TokenKind) : ReadsAlike M (expect k) := by
  refine (alike_next hM).bind fun t => ?_
  split
  · exact alike_advance hM
  · exact (alike_record hM _).bind fun _ => .fail

theorem alike_require (k : TokenKind) : ReadsAlike M (require k) := by
  refine (alike_next hM).bind fun t => ?_
  split
  · exact alike_advance hM
  · exact (alike_record hM _).bind fun _ => (alike_synchronize hM).bind fun _ => .fail

theorem alike_accept (k : TokenKind) : ReadsAlike M (accept k) := by
  refine (alike_next hM).bind fun t => ?_
  split
  · exact (alike_advance hM).bind fun _ => .pure
  · exact .pure

theorem alike_skip (k : TokenKind) : ReadsAlike M (skip k) :=
  (alike_accept hM k).bind fun _ => .pure

/-! ## Lists -/

theorem alike_moreItems {x : Parser α} (hx : ReadsAlike M x) (n : Nat) :
    ReadsAlike M (moreItems x n) := by
  induction n with
  | zero => exact .exhausted
  | succ n ih =>
    refine (alike_accept hM .comma).bind fun found => ?_
    split
    · exact hx.bind fun a => ih.bind fun as => .pure
    · exact .pure

theorem alike_items (closing : TokenKind) {x : Parser α} (hx : ReadsAlike M x) (n : Nat) :
    ReadsAlike M (items closing x n) := by
  refine (alike_accept hM closing).bind fun found => ?_
  split
  · exact .pure
  · refine hx.bind fun a => (alike_moreItems hM hx n).bind fun as => ?_
    exact (alike_expect hM closing).bind fun _ => .pure

theorem alike_pairs {x : Parser α} (hx : ReadsAlike M x) (n : Nat) :
    ReadsAlike M (pairs x n) := by
  induction n with
  | zero => exact .exhausted
  | succ n ih =>
    have hrest (key value : α) : ReadsAlike M (do return (key, value) :: (← pairs x n)) :=
      ih.bind fun _ => .pure
    refine (alike_next hM).bind fun t => ?_
    split
    · exact .pure
    refine (alike_advance hM).bind fun _ => hx.bind fun key => ?_
    refine (alike_expect hM .colon).bind fun _ => (alike_advance hM).bind fun _ => ?_
    refine hx.bind fun value => (alike_next hM).bind fun u => ?_
    dsimp only
    split
    · exact (alike_expect hM .comma).bind fun _ => hrest key value
    · exact hrest key value

theorem alike_untilKind (closing : TokenKind) {x : Parser α} (hx : ReadsAlike M x) (n : Nat) :
    ReadsAlike M (untilKind closing x n) := by
  induction n with
  | zero => exact .exhausted
  | succ n ih =>
    refine (alike_current hM).bind fun t => ?_
    split
    · exact .pure
    refine hx.attempt.bind fun found => (alike_advance hM).bind fun _ => ih.bind fun rest => ?_
    cases found <;> exact .pure

/-! ## The grammar -/

theorem alike_integer : ReadsAlike M integer := by
  refine (alike_current hM).bind fun t => ?_
  split
  · exact .pure
  · exact (alike_record hM _).bind fun _ => .fail

theorem alike_parameter : ReadsAlike M parameter :=
  (alike_expect hM .ident).bind fun _ => alike_current hM

theorem alike_block {x : Parser Statement} (hx : ReadsAlike M x) (n : Nat) :
    ReadsAlike M (block x n) := by
  refine (alike_expect hM .leftBrace).bind fun _ => (alike_current hM).bind fun t => ?_
  refine (alike_advance hM).bind fun _ => (alike_untilKind hM .rightBrace hx n).bind fun ss => ?_
  refine (alike_current hM).bind fun last => ?_
  dsimp only
  split
  · exact (alike_record hM _).bind fun _ => .pure
  · exact .pure

theorem alike_alternative {x : Parser Block} (hx : ReadsAlike M x) :
    ReadsAlike M (alternative x) := by
  refine (alike_accept hM .elseWord).bind fun found => ?_
  split
  · exact hx.bind fun b => .pure
  · exact .pure

theorem alike_returnValue {x : Parser Expr} (hx : ReadsAlike M x) :
    ReadsAlike M (returnValue x) := by
  refine (alike_accept hM .semicolon).bind fun found => ?_
  split
  · exact .pure
  refine (alike_next hM).bind fun t => ?_
  split
  · exact .pure
  · exact (alike_advanced hM hx).bind fun e => (alike_skip hM .semicolon).bind fun _ => .pure

end Steps

/-- Every phrase is read alike at this depth. -/
structure Impartial (M : Window → Window → Prop) (n : Nat) : Prop where
  expression : ∀ p, ReadsAlike M (expression n p)
  extend : ∀ p left, ReadsAlike M (extend n p left)
  suffix : ∀ left, ReadsAlike M (suffix n left)
  operand : ReadsAlike M (operand n)
  statement : ReadsAlike M (statement n)

section Grammar

variable (hM : Window.Indistinct M) {n : Nat} (ih : Impartial M n)

include hM ih

theorem impartial_extend (p : Precedence) (left : Expr) :
    ReadsAlike M (extend (n + 1) p left) := by
  rw [extend]
  refine (alike_next hM).bind fun t => ?_
  split
  · exact (alike_advance hM).bind fun _ => (ih.suffix left).bind fun whole => ih.extend p whole
  · exact .pure

theorem impartial_suffix (left : Expr) : ReadsAlike M (suffix (n + 1) left) := by
  have item (p : Precedence) := alike_advanced hM (ih.expression p)
  rw [suffix]
  refine (alike_current hM).bind fun t => ?_
  split
  · exact (alike_items hM .rightParen (item .lowest) n).bind fun as => .pure
  · exact (item .lowest).bind fun e => (alike_expect hM .rightBracket).bind fun _ => .pure
  · split
    · exact (item _).bind fun e => .pure
    · exact .fail

theorem impartial_operand : ReadsAlike M (operand (n + 1)) := by
  have item (p : Precedence) := alike_advanced hM (ih.expression p)
  have body := alike_block hM ih.statement n
  rw [operand]
  refine (alike_current hM).bind fun t => ?_
  split
  case h_1 | h_3 | h_4 | h_5 => exact .pure
  case h_2 => exact alike_integer hM
  case h_6 | h_7 => exact (item .prefixed).bind fun e => .pure
  case h_8 => exact (item .lowest).bind fun e => (alike_expect hM .rightParen).bind fun _ => .pure
  case h_9 =>
    refine (alike_expect hM .leftParen).bind fun _ => (item .lowest).bind fun e => ?_
    refine (alike_expect hM .rightParen).bind fun _ => body.bind fun b => ?_
    exact (alike_alternative hM body).bind fun a => .pure
  case h_10 =>
    refine (alike_expect hM .leftParen).bind fun _ => ?_
    refine (alike_items hM .rightParen (alike_parameter hM) n).bind fun ps => ?_
    exact body.bind fun b => .pure
  case h_11 => exact (alike_items hM .rightBracket (item .lowest) n).bind fun as => .pure
  case h_12 =>
    refine (alike_pairs hM (ih.expression .lowest) n).bind fun ps => ?_
    exact (alike_expect hM .rightBrace).bind fun _ => .pure
  case h_13 => exact (alike_record hM _).bind fun _ => .fail

theorem impartial_statement : ReadsAlike M (statement (n + 1)) := by
  have value := ih.expression .lowest
  rw [statement]
  refine (alike_current hM).bind fun t => ?_
  split
  · refine (alike_require hM .ident).bind fun _ => (alike_current hM).bind fun name => ?_
    refine (alike_require hM .assign).bind fun _ => (alike_advanced hM value).bind fun e => ?_
    exact (alike_skip hM .semicolon).bind fun _ => .pure
  · exact (alike_returnValue hM value).bind fun e => .pure
  · exact value.bind fun e => (alike_skip hM .semicolon).bind fun _ => .pure

end Grammar

theorem impartial (hM : Window.Indistinct M) (n : Nat) : Impartial M n := by
  induction n with
  | zero =>
    exact ⟨fun _ => .exhausted, fun _ _ => .exhausted, fun _ => .exhausted, .exhausted,
      .exhausted⟩
  | succ n ih =>
    have expression (p : Precedence) : ReadsAlike M (expression (n + 1) p) := by
      rw [Parser.expression]
      exact ih.operand.bind fun left => ih.extend p left
    exact ⟨expression, impartial_extend hM ih, impartial_suffix hM ih, impartial_operand hM ih,
      impartial_statement hM ih⟩

/-! ## Earlier errors -/

/-- The second window is the first one with these errors before its own. -/
def Preceded (es : List SyntaxError) (w w' : Window) : Prop :=
  w' = { w with errors := es ++ w.errors }

theorem indistinct_preceded (es : List SyntaxError) : Window.Indistinct (Preceded es) where
  current := by
    rintro w _ rfl
    rfl
  next := by
    rintro w _ rfl
    rfl
  advance := by
    rintro w _ rfl
    rfl
  record := by
    rintro w _ e rfl
    simp [Preceded, Window.record]
  synchronize := by
    rintro w _ rfl
    rfl

end Parser

end Treewalk
