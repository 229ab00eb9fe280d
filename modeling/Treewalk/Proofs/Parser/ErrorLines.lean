import Treewalk.Proofs.Parser.Faithful
import Treewalk.Proofs.Token.Seam

/-!
# Errors come in the order of the text

Wherever the parser stands, the lines of its errors so far and then those of the tokens in front of
it never decrease. An error is on the line of the current token or of the next one, and after one on
the next token nothing is said about the current one any more.
-/

namespace Treewalk

/-- The lines of the errors so far, then those of `rest` and of the end of input, from the first
line on. -/
def Window.lines (w : Window) (rest : List Token) : List Nat :=
  1 :: (w.errors.map SyntaxError.line ++ (rest ++ [w.eof]).map Token.line)

namespace Parser

variable {α β : Type}

/-! ## Lines in order -/

def InOrder (w : Window) (rest : List Token) : Prop := (w.lines rest).Pairwise (· ≤ ·)

theorem pairwise_repeated {as bs : List Nat} {b : Nat} (h : (as ++ b :: bs).Pairwise (· ≤ ·)) :
    (as ++ b :: b :: bs).Pairwise (· ≤ ·) := by
  obtain ⟨has, hbs, hbefore⟩ := List.pairwise_append.1 h
  obtain ⟨hleast, -⟩ := List.pairwise_cons.1 hbs
  refine List.pairwise_append.2 ⟨has, List.pairwise_cons.2 ⟨?_, hbs⟩, fun a ha => ?_⟩
  · exact List.forall_mem_cons.2 ⟨Nat.le_refl b, hleast⟩
  · exact List.forall_mem_cons.2 ⟨hbefore a ha b List.mem_cons_self, hbefore a ha⟩

namespace InOrder

variable {w : Window} {rest rest' : List Token}

theorem drop (h : InOrder w rest) (hrest : rest'.Sublist rest) : InOrder w rest' := by
  have htokens : (rest' ++ [w.eof]).Sublist (rest ++ [w.eof]) := hrest.append_right _
  exact List.Pairwise.sublist (((htokens.map Token.line).append_left _).cons_cons 1) h

theorem behind (h : InOrder w w.tokens) : InOrder w w.ahead := h.drop (List.tail_sublist _)

theorem advance (h : InOrder w w.ahead) : InOrder w.advance w.advance.ahead :=
  behind (w := w.advance) h

theorem record (h : InOrder w rest) {e : SyntaxError}
    (he : e.line = (rest.head?.getD w.eof).line) : InOrder (w.record e) rest := by
  obtain ⟨t, ts, ht, hfirst⟩ : ∃ t ts, rest ++ [w.eof] = t :: ts ∧ e.line = t.line := by
    cases rest with
    | nil => exact ⟨w.eof, [], rfl, he⟩
    | cons t ts => exact ⟨t, ts ++ [w.eof], rfl, he⟩
  have hlines : w.lines rest =
      (1 :: w.errors.map SyntaxError.line) ++ t.line :: ts.map Token.line := by
    rw [Window.lines, ht]
    rfl
  have hrecord : (w.record e).lines rest =
      (1 :: w.errors.map SyntaxError.line) ++ t.line :: t.line :: ts.map Token.line := by
    simp [Window.lines, ht, Window.record, hfirst]
  rw [InOrder, hlines] at h
  rw [InOrder, hrecord]
  exact pairwise_repeated h

theorem record_next (h : InOrder w w.ahead) {e : SyntaxError} (he : e.line = w.next.line) :
    InOrder (w.record e) (w.record e).ahead := h.record he

theorem record_current (h : InOrder w w.tokens) {e : SyntaxError} (he : e.line = w.current.line) :
    InOrder (w.record e) (w.record e).tokens := h.record he

theorem synchronize (h : InOrder w w.ahead) : InOrder w.synchronize w.synchronize.ahead :=
  h.drop (Window.restOfStatement_suffix w.tokens).sublist.tail

theorem errors_le (h : InOrder w rest) : (w.errors.map SyntaxError.line).Pairwise (· ≤ ·) ∧
    ∀ e ∈ w.errors, 1 ≤ e.line ∧ e.line ≤ w.eof.line := by
  obtain ⟨hfirst, hlines⟩ := List.pairwise_cons.1 h
  obtain ⟨herrors, -, hbefore⟩ := List.pairwise_append.1 hlines
  refine ⟨herrors, fun e he => ?_⟩
  have hmem : e.line ∈ w.errors.map SyntaxError.line := List.mem_map_of_mem he
  exact ⟨hfirst _ (List.mem_append_left _ hmem), hbefore _ hmem _ (by simp)⟩

end InOrder

/-! ## Steps -/

/-- However the step ends, errors come in order before the next token. -/
def Orders (x : Parser α) (w : Window) : Prop := x.Meets w fun _ u => InOrder u u.ahead

namespace Orders

variable {x : Parser α} {f : α → Parser β} {w : Window} {k : TokenKind}

theorem exhausted : Orders (Run.exhausted : Parser α) w := by
  intro r u hr
  cases hr

theorem pure {a : α} (h : InOrder w w.ahead) : Orders (Pure.pure a) w := by
  intro r u hr
  cases hr
  exact h

theorem fail (h : InOrder w w.ahead) : Orders (Parser.fail : Parser α) w := by
  intro r u hr
  cases hr
  exact h

theorem bind (hx : Orders x w) (hf : ∀ a u, InOrder u u.ahead → Orders (f a) u) :
    Orders (x >>= f) w := by
  intro r v hr
  rcases Run.bind_ends hr with ⟨e, he, -⟩ | ⟨a, u, ha, hu⟩
  · exact hx _ _ he
  · exact hf a u (hx _ _ ha) r v hu

theorem bind_pure {g : α → β} (hx : Orders x w) : Orders (do return g (← x)) w :=
  hx.bind fun _ _ hu => .pure hu

theorem current_bind {f : Token → Parser β} (h : Orders (f w.current) w) :
    Orders (current >>= f) w := h

theorem next_bind {f : Token → Parser β} (h : Orders (f w.next) w) : Orders (next >>= f) w := h

theorem advance_bind {f : Unit → Parser β} (h : Orders (f ()) w.advance) :
    Orders (advance >>= f) w := h

theorem advanced (h : Orders x w.advance) : Orders (Parser.advanced x) w := h

theorem record_fail {e : SyntaxError} (h : InOrder w w.tokens) (he : e.line = w.current.line) :
    Orders (Parser.record e >>= fun _ => (Parser.fail : Parser α)) w := by
  intro r u hr
  cases hr
  exact (h.record_current he).behind

theorem expect_bind {f : Unit → Parser β} (h : InOrder w w.ahead)
    (hf : Orders (f ()) w.advance) : Orders (expect k >>= f) w := by
  intro r u hr
  by_cases hk : w.next.kind = k
  · rw [Run.bind_ok (expect_eq hk)] at hr
    exact hf r u hr
  · rw [Run.bind_error (expect_ne hk)] at hr
    cases hr
    exact h.record_next rfl

theorem require_bind {f : Unit → Parser β} (h : InOrder w w.ahead)
    (hf : Orders (f ()) w.advance) : Orders (require k >>= f) w := by
  intro r u hr
  by_cases hk : w.next.kind = k
  · rw [Run.bind_ok (require_eq hk)] at hr
    exact hf r u hr
  · rw [Run.bind_error (require_ne hk)] at hr
    cases hr
    exact (h.record_next rfl).synchronize

theorem accept_bind {f : Bool → Parser β} (yes : Orders (f true) w.advance)
    (no : Orders (f false) w) : Orders (accept k >>= f) w := by
  intro r u hr
  by_cases hk : w.next.kind = k
  · rw [Run.bind_ok (accept_eq hk)] at hr
    exact yes r u hr
  · rw [Run.bind_ok (accept_ne hk)] at hr
    exact no r u hr

theorem skip_pure {a : α} (h : InOrder w w.ahead) :
    Orders (skip k >>= fun _ => Pure.pure a) w := by
  intro r u hr
  by_cases hk : w.next.kind = k
  · rw [Run.bind_ok (skip_eq hk)] at hr
    cases hr
    exact h.advance
  · rw [Run.bind_ok (skip_ne hk)] at hr
    cases hr
    exact h

end Orders

/-! ## Lists -/

section Lists

variable {item : Parser α} {closing : TokenKind} {w : Window} {n : Nat}

theorem moreItems_orders (hitem : ∀ v, InOrder v v.ahead → Orders item v)
    (h : InOrder w w.ahead) : Orders (moreItems item n) w := by
  induction n generalizing w with
  | zero => exact .exhausted
  | succ n ih =>
    rw [moreItems]
    exact .accept_bind ((hitem _ h.advance).bind fun _ _ hu => (ih hu).bind_pure) (.pure h)

theorem items_orders (hitem : ∀ v, InOrder v v.ahead → Orders item v) (h : InOrder w w.ahead) :
    Orders (items closing item n) w := by
  rw [items]
  refine .accept_bind (.pure h.advance) ((hitem w h).bind fun x u hu => ?_)
  refine (moreItems_orders hitem hu).bind fun xs v hv => ?_
  exact .expect_bind hv (.pure hv.advance)

theorem pairs_orders (hitem : ∀ v, InOrder v v.tokens → Orders item v) (h : InOrder w w.ahead) :
    Orders (pairs item n) w := by
  induction n generalizing w with
  | zero => exact .exhausted
  | succ n ih =>
    rw [pairs]
    refine .next_bind ?_
    split
    · exact .pure h
    refine .advance_bind ((hitem w.advance h).bind fun key u hu => ?_)
    refine .expect_bind hu (.advance_bind ((hitem _ hu.advance).bind fun value v hv => ?_))
    refine .next_bind ?_
    dsimp only
    split
    · exact .expect_bind hv (ih hv.advance).bind_pure
    · exact (ih hv).bind_pure

theorem untilKind_inOrder (hitem : ∀ v, InOrder v v.tokens → Orders item v)
    (h : InOrder w w.tokens) :
    (untilKind closing item n).Meets w fun _ u => InOrder u u.tokens := by
  induction n generalizing w with
  | zero =>
    intro r u hr
    cases hr
  | succ n ih =>
    intro r u hr
    rw [untilKind, Run.bind_ok (current_apply w)] at hr
    split at hr
    · cases hr
      exact h
    rcases Run.bind_ends hr with ⟨e, he, -⟩ | ⟨found, v, hv, hrest⟩
    · obtain ⟨_, hfound, -⟩ := Run.attempt_ends he
      cases hfound
    obtain ⟨_, -, hv⟩ := Run.attempt_ends hv
    -- whether or not the item was read, the next one starts behind the token on which it ended
    have hpast : InOrder v.advance v.advance.tokens := hitem w h _ _ hv
    rcases Run.bind_ends hrest with ⟨e, he, -⟩ | ⟨_, x, hx, hrest⟩
    · cases he
    cases hx
    rcases Run.bind_ends hrest with ⟨e, he, -⟩ | ⟨xs, y, hxs, hy⟩
    · exact ih hpast _ _ he
    · cases found <;> cases hy <;> exact ih hpast _ _ hxs

end Lists

/-! ## The grammar -/

section Parts

variable {w : Window} {n : Nat}

theorem parameter_orders (h : InOrder w w.ahead) : Orders parameter w := by
  rw [parameter]
  exact .expect_bind h (.current_bind (.pure h.advance))

theorem block_orders {item : Parser Statement}
    (hitem : ∀ v, InOrder v v.tokens → Orders item v) (h : InOrder w w.ahead) :
    Orders (block item n) w := by
  rw [block]
  refine .expect_bind h (.current_bind (.advance_bind ?_))
  intro r u hr
  rcases Run.bind_ends hr with ⟨e, he, -⟩ | ⟨ss, v, hss, hv⟩
  · exact (untilKind_inOrder hitem h.advance _ _ he).behind
  · have hend : InOrder v v.tokens := untilKind_inOrder hitem h.advance _ _ hss
    rw [Run.bind_ok (current_apply v)] at hv
    split at hv
    -- a missing brace is reported on the token where the statements ended
    · cases hv
      exact (hend.record_current rfl).behind
    · cases hv
      exact hend.behind

theorem alternative_orders {branch : Parser Block}
    (hbranch : ∀ v, InOrder v v.ahead → Orders branch v) (h : InOrder w w.ahead) :
    Orders (alternative branch) w := by
  rw [alternative]
  exact .accept_bind (hbranch _ h.advance).bind_pure (.pure h)

theorem returnValue_orders {value : Parser Expr}
    (hvalue : ∀ v, InOrder v v.tokens → Orders value v) (h : InOrder w w.ahead) :
    Orders (returnValue value) w := by
  rw [returnValue]
  refine .accept_bind (.pure h.advance) (.next_bind ?_)
  split
  · exact .pure h
  · exact (Orders.advanced (hvalue w.advance h)).bind fun e u hu => .skip_pure hu

theorem integer_orders (h : InOrder w w.tokens) : Orders integer w := by
  rw [integer]
  refine .current_bind ?_
  split
  · exact .pure h.behind
  · exact .record_fail h rfl

end Parts

/-- What each step of the grammar keeps at this depth: it starts on the current token, or goes on
behind it. -/
structure Ordering (n : Nat) : Prop where
  expression : ∀ p w, InOrder w w.tokens → Orders (expression n p) w
  extend : ∀ p left w, InOrder w w.ahead → Orders (extend n p left) w
  suffix : ∀ left w, InOrder w w.ahead → Orders (suffix n left) w
  operand : ∀ w, InOrder w w.tokens → Orders (operand n) w
  statement : ∀ w, InOrder w w.tokens → Orders (statement n) w

section Grammar

variable {n : Nat} {w : Window}

theorem Ordering.item (h : Ordering n) (p : Precedence) (v : Window) (hv : InOrder v v.ahead) :
    Orders (advanced (Parser.expression n p)) v := .advanced (h.expression p v.advance hv)

theorem Ordering.body (h : Ordering n) (v : Window) (hv : InOrder v v.ahead) :
    Orders (block (Parser.statement n) n) v := block_orders h.statement hv

theorem ordering_extend (h : Ordering n) (p : Precedence) (left : Expr) (hw : InOrder w w.ahead) :
    Orders (extend (n + 1) p left) w := by
  rw [extend]
  refine .next_bind ?_
  split
  · exact .advance_bind ((h.suffix left _ hw.advance).bind fun e u hu => h.extend p e u hu)
  · exact .pure hw

theorem ordering_suffix (h : Ordering n) (left : Expr) (hw : InOrder w w.ahead) :
    Orders (suffix (n + 1) left) w := by
  rw [suffix]
  refine .current_bind ?_
  split
  · exact (items_orders (h.item .lowest) hw).bind_pure
  · refine (h.item .lowest w hw).bind fun e u hu => ?_
    exact .expect_bind hu (.pure hu.advance)
  · split
    · exact (h.item _ w hw).bind_pure
    · exact .fail hw

theorem parenthesised_orders (h : Ordering n) {f : Expr → Parser α} (hw : InOrder w w.ahead)
    (hf : ∀ e u, InOrder u u.ahead → Orders (f e) u) :
    Orders (advanced (expression n .lowest) >>= fun e => expect .rightParen >>= fun _ => f e)
      w := by
  refine (h.item .lowest w hw).bind fun e u hu => ?_
  exact .expect_bind hu (hf e _ hu.advance)

theorem ordering_operand (h : Ordering n) (hw : InOrder w w.tokens) :
    Orders (operand (n + 1)) w := by
  have hword := hw.behind
  rw [operand]
  refine .current_bind ?_
  cases w.current.kind with
  | ident | string | trueWord | falseWord => exact .pure hword
  | int => exact integer_orders hw
  | bang | minus => exact (h.item .prefixed w hword).bind_pure
  | leftParen => exact parenthesised_orders h hword fun e u hu => .pure hu
  | ifWord =>
    refine .expect_bind hword (parenthesised_orders h hword.advance fun e u hu => ?_)
    exact (h.body u hu).bind fun b v hv => (alternative_orders h.body hv).bind_pure
  | function =>
    refine .expect_bind hword ?_
    refine (items_orders (fun v hv => parameter_orders hv) hword.advance).bind fun ps u hu => ?_
    exact (h.body u hu).bind_pure
  | leftBracket => exact (items_orders (h.item .lowest) hword).bind_pure
  | leftBrace =>
    refine (pairs_orders (h.expression .lowest) hword).bind fun ps u hu => ?_
    exact .expect_bind hu (.pure hu.advance)
  | _ => exact .record_fail hw rfl

theorem ordering_statement (h : Ordering n) (hw : InOrder w w.tokens) :
    Orders (statement (n + 1)) w := by
  have hword := hw.behind
  rw [statement]
  refine .current_bind ?_
  split
  · refine .require_bind hword (.current_bind (.require_bind hword.advance ?_))
    exact (h.item .lowest _ hword.advance.advance).bind fun e u hu => .skip_pure hu
  · exact (returnValue_orders (h.expression .lowest) hword).bind_pure
  · exact (h.expression .lowest w hw).bind fun e u hu => .skip_pure hu

end Grammar

theorem ordering (n : Nat) : Ordering n := by
  induction n with
  | zero =>
    exact ⟨fun _ _ _ => .exhausted, fun _ _ _ _ => .exhausted, fun _ _ _ => .exhausted,
      fun _ _ => .exhausted, fun _ _ => .exhausted⟩
  | succ n ih =>
    exact {
      expression := fun p w hw => (ih.operand w hw).bind fun left u hu => ih.extend p left u hu
      extend := fun p left w hw => ordering_extend ih p left hw
      suffix := fun left w hw => ordering_suffix ih left hw
      operand := fun w hw => ordering_operand ih hw
      statement := fun w hw => ordering_statement ih hw }

end Parser

open Treewalk.Parser

/-! ## Texts -/

theorem tokensFrom_inOrder (line : Nat) (ls : List Lexeme) :
    (line :: (tokensFrom line ls).map Token.line).Pairwise (· ≤ ·) := by
  induction ls generalizing line with
  | nil => simp [tokensFrom, Token.eof]
  | cons l ls ih =>
    have hrest : (line :: (tokensFrom (line + l.breaks) ls).map Token.line).Pairwise (· ≤ ·) := by
      obtain ⟨hleast, hlines⟩ := List.pairwise_cons.1 (ih (line + l.breaks))
      refine List.pairwise_cons.2 ⟨fun m hm => ?_, hlines⟩
      exact Nat.le_trans (Nat.le_add_right _ _) (hleast m hm)
    rw [tokensFrom]
    cases ht : l.token? line with
    | none => exact hrest
    | some t =>
      have hline : t.line = line := by
        unfold Lexeme.token? at ht
        split at ht <;> cases ht
        rfl
      rw [Option.toList_some, List.singleton_append, List.map_cons, hline]
      exact List.pairwise_cons.2 ⟨by simpa using (List.pairwise_cons.1 hrest).1, hrest⟩

theorem ofTokens_inOrder {ts : List Token} (h : (1 :: ts.map Token.line).Pairwise (· ≤ ·)) :
    InOrder (Window.ofTokens ts) ts := by
  rcases List.eq_nil_or_concat ts with rfl | ⟨ts, t, rfl⟩
  · simp [InOrder, Window.lines, Window.ofTokens, Token.eof]
  · rw [List.concat_eq_append] at h ⊢
    have hlines : (Window.ofTokens (ts ++ [t])).lines (ts ++ [t]) =
        (1 :: ts.map Token.line) ++ [t.line, t.line] := by
      simp [Window.lines, Window.ofTokens, Token.eof]
    rw [List.map_append, List.map_singleton, ← List.cons_append] at h
    rw [InOrder, hlines]
    exact pairwise_repeated h

/-- Errors are recorded in the order of the text: their lines never decrease, and are from the first
line of the text to the line of its end. -/
theorem errors_in_order (source : String) : ∃ body last, scan source = body ++ [.eof last] ∧
    ((parse source).errors.map SyntaxError.line).Pairwise (· ≤ ·) ∧
      ∀ e ∈ (parse source).errors, 1 ≤ e.line ∧ e.line ≤ last := by
  obtain ⟨body, last, hscan, -⟩ := scan_ends source
  have hstart : InOrder (Window.ofTokens (scan source)) (scan source) :=
    ofTokens_inOrder (tokensFrom_inOrder 1 _)
  have heof : (Window.ofTokens (scan source)).eof.line = last := by
    simp [Window.ofTokens, hscan, Token.eof]
  obtain ⟨⟨r, u⟩, hr⟩ := program_answers (w := Window.ofTokens (scan source)) rfl
  have hend := (untilKind_inOrder (ordering _).statement hstart _ _ hr).errors_le
  obtain ⟨hu, -⟩ := untilKind_obeys rfl (sound _).statement _ _ hr
  rw [hu.eof, heof] at hend
  rw [parse, parseTokens_of_ends hr]
  exact ⟨body, last, hscan, hend⟩

end Treewalk
