import Treewalk.Proofs.Parser.Faithful

/-!
# Recorded tokens are tokens of the input

Whatever the input, the tokens that a program keeps stand in the input in the order in which the
program is read. What the parser gives up leaves nothing behind, and it is never read again.
-/

namespace Treewalk

namespace Parser

variable {α β : Type}

/-! ## Tokens in order -/

/-- In `whole` the tokens `got` stand in this order, and `rest` behind them. None of them is an end
of input. -/
structure Gathered (got rest whole : List Token) : Prop where
  order : (got ++ rest).Sublist whole
  real : ∀ t ∈ got, t.kind ≠ .eof

namespace Gathered

variable {t : Token} {got more rest rest' whole : List Token}

theorem nothing (h : rest.Sublist whole) : Gathered [] rest whole := ⟨h, by simp⟩

theorem forget (h : Gathered got rest whole) : Gathered [] rest whole :=
  nothing ((List.sublist_append_right got rest).trans h.order)

theorem append (h : Gathered got rest whole) (h' : Gathered more rest' rest) :
    Gathered (got ++ more) rest' whole := by
  refine ⟨?_, List.forall_mem_append.2 ⟨h.real, h'.real⟩⟩
  rw [List.append_assoc]
  exact (h'.order.append_left got).trans h.order

theorem drop (h : Gathered got rest whole) (hrest : rest'.Sublist rest) :
    Gathered got rest' whole :=
  ⟨(hrest.append_left got).trans h.order, h.real⟩

theorem take (h : Gathered got (t :: rest) whole) (ht : t.kind ≠ .eof) :
    Gathered (got ++ [t]) rest whole :=
  h.append ⟨List.Sublist.refl _, by simpa using ht⟩

end Gathered

/-- The parser is at `w` with `got` gathered from `whole`, and goes on with what is ahead. -/
structure At (got : List Token) (w : Window) (whole : List Token) : Prop where
  eof : w.eof.kind = .eof
  gathered : Gathered got w.ahead whole

namespace At

variable {w : Window} {got whole : List Token}

theorem start (he : w.eof.kind = .eof) : At [] w w.tokens :=
  ⟨he, .nothing (List.tail_sublist _)⟩

theorem token (he : w.eof.kind = .eof) (hk : w.current.kind ≠ .eof) :
    At [w.current] w w.tokens := by
  refine ⟨he, ?_, by simpa using hk⟩
  rw [Window.tokens_eq he hk]
  exact List.Sublist.refl _

theorem forget (h : At got w whole) : At [] w whole := ⟨h.eof, h.gathered.forget⟩

theorem record (h : At got w whole) (e : SyntaxError) : At got (w.record e) whole :=
  ⟨h.eof, h.gathered⟩

theorem advance (h : At got w whole) : At got w.advance whole :=
  ⟨h.eof, h.gathered.drop (List.tail_sublist _)⟩

theorem take (h : At got w whole) (hk : w.next.kind ≠ .eof) :
    At (got ++ [w.next]) w.advance whole := by
  have hnext := h.gathered
  rw [Window.ahead_eq h.eof hk] at hnext
  exact ⟨h.eof, hnext.take hk⟩

end At

/-! ## Steps -/

/-- What the end of a step keeps: the tokens of its result, and none of a failure. -/
def kept (toks : α → List Token) : Except Unit α → List Token
  | .ok a => toks a
  | .error _ => []

/-- However the step ends, what it keeps is gathered from `whole`. -/
def Gathers (toks : α → List Token) (x : Parser α) (w : Window) (whole : List Token) : Prop :=
  x.Meets w fun r u => At (kept toks r) u whole

namespace Gathers

variable {toks : α → List Token} {toksB : β → List Token} {x : Parser α}
  {f : α → Parser β} {w : Window} {got rest whole : List Token} {k : TokenKind}

theorem exhausted : Gathers toks Run.exhausted w whole := by
  intro r u hr
  cases hr

theorem pure {a : α} (h : At (toks a) w whole) : Gathers toks (Pure.pure a) w whole := by
  intro r u hr
  cases hr
  exact h

theorem fail (h : At got w whole) : Gathers toks fail w whole := by
  intro r u hr
  cases hr
  exact h.forget

theorem bind (hx : Gathers toks x w whole)
    (hf : ∀ a u, At (toks a) u whole → Gathers toksB (f a) u whole) :
    Gathers toksB (x >>= f) w whole := by
  intro r v hr
  rcases Run.bind_ends hr with ⟨e, he, rfl⟩ | ⟨a, u, ha, hu⟩
  · exact hx _ _ he
  · exact hf a u (hx _ _ ha) r v hu

theorem attempt_bind {f : Except Unit α → Parser β} (hx : Gathers toks x w whole)
    (hf : ∀ r u, At (kept toks r) u whole → Gathers toksB (f r) u whole) :
    Gathers toksB (x.attempt >>= f) w whole := by
  intro r v hr
  rw [Run.bind_apply, Run.attempt_apply] at hr
  cases hx' : x w with
  | none =>
    rw [hx'] at hr
    cases hr
  | some s =>
    obtain ⟨r', u⟩ := s
    rw [hx'] at hr
    exact hf r' u (hx _ _ hx') r v hr

theorem behind (h : Gathered got rest whole) (hx : Gathers toks x w rest) :
    Gathers (fun a => got ++ toks a) x w whole := by
  intro r u hr
  obtain ⟨he, hu⟩ := hx r u hr
  have hall := h.append hu
  cases r with
  | ok a => exact ⟨he, hall⟩
  | error e => exact ⟨he, hall.forget⟩

theorem current_bind {f : Token → Parser β} (h : Gathers toksB (f w.current) w whole) :
    Gathers toksB (current >>= f) w whole := h

theorem next_bind {f : Token → Parser β} (h : Gathers toksB (f w.next) w whole) :
    Gathers toksB (next >>= f) w whole := h

theorem advance_bind {f : Unit → Parser β} (h : Gathers toksB (f ()) w.advance whole) :
    Gathers toksB (advance >>= f) w whole := h

theorem advanced (h : Gathers toks x w.advance w.ahead) :
    Gathers toks (Parser.advanced x) w w.ahead := h

theorem record_bind {e : SyntaxError} {f : Unit → Parser β}
    (h : Gathers toksB (f ()) (w.record e) whole) : Gathers toksB (record e >>= f) w whole := h

theorem record_fail {e : SyntaxError} (h : At got w whole) :
    Gathers toks (record e >>= fun _ => Parser.fail) w whole := record_bind (fail (h.record e))

theorem expect_bind {f : Unit → Parser β} (h : At got w whole)
    (hf : w.next.kind = k → Gathers toksB (f ()) w.advance whole) :
    Gathers toksB (expect k >>= f) w whole := by
  intro r u hr
  by_cases hk : w.next.kind = k
  · rw [Run.bind_ok (expect_eq hk)] at hr
    exact hf hk r u hr
  · rw [Run.bind_error (expect_ne hk)] at hr
    cases hr
    exact (h.record _).forget

theorem require_bind {f : Unit → Parser β} (h : At got w whole)
    (hf : w.next.kind = k → Gathers toksB (f ()) w.advance whole) :
    Gathers toksB (require k >>= f) w whole := by
  intro r u hr
  by_cases hk : w.next.kind = k
  · rw [Run.bind_ok (require_eq hk)] at hr
    exact hf hk r u hr
  · rw [Run.bind_error (require_ne hk)] at hr
    cases hr
    -- what is skipped comes from the front, so no more is ahead than before
    have hskip : (Window.restOfStatement w.tokens).tail.Sublist w.ahead :=
      (Window.restOfStatement_suffix w.tokens).sublist.tail
    exact ⟨h.eof, h.gathered.forget.drop hskip⟩

theorem accept_bind {f : Bool → Parser β}
    (yes : Gathers toksB (f true) w.advance whole) (no : Gathers toksB (f false) w whole) :
    Gathers toksB (accept k >>= f) w whole := by
  intro r u hr
  by_cases hk : w.next.kind = k
  · rw [Run.bind_ok (accept_eq hk)] at hr
    exact yes r u hr
  · rw [Run.bind_ok (accept_ne hk)] at hr
    exact no r u hr

theorem skip_pure {a : α} (h : At (toks a) w whole) :
    Gathers toks (skip k >>= fun _ => Pure.pure a) w whole := by
  intro r u hr
  by_cases hk : w.next.kind = k
  · rw [Run.bind_ok (skip_eq hk)] at hr
    cases hr
    exact h.advance
  · rw [Run.bind_ok (skip_ne hk)] at hr
    cases hr
    exact h

end Gathers

/-! ## Lists -/

section Lists

variable {toks : α → List Token} {item : Parser α} {closing : TokenKind} {w : Window} {n : Nat}

theorem moreItems_gathers (he : w.eof.kind = .eof)
    (hitem : ∀ v, v.eof.kind = .eof → Gathers toks item v v.ahead) :
    Gathers (·.flatMap toks) (moreItems item n) w w.ahead := by
  have hhere : At [] w w.ahead := ⟨he, .nothing (List.Sublist.refl _)⟩
  induction n generalizing w with
  | zero => exact .exhausted
  | succ n ih =>
    rw [moreItems]
    refine .accept_bind ?_ (.pure hhere)
    have hpast := hhere.advance
    refine (Gathers.behind hpast.gathered (hitem _ he)).bind fun x u hx => ?_
    have hrest := ih hx.eof ⟨hx.eof, .nothing (List.Sublist.refl _)⟩
    exact (hrest.behind hx.gathered).bind fun xs v hxs => .pure hxs

theorem items_gathers (he : w.eof.kind = .eof)
    (hitem : ∀ v, v.eof.kind = .eof → Gathers toks item v v.ahead) :
    Gathers (·.flatMap toks) (items closing item n) w w.ahead := by
  have hhere : At [] w w.ahead := ⟨he, .nothing (List.Sublist.refl _)⟩
  rw [items]
  refine .accept_bind (.pure hhere.advance) ?_
  refine (hitem w he).bind fun x u hx => ?_
  refine ((moreItems_gathers hx.eof hitem).behind hx.gathered).bind fun xs v hxs => ?_
  exact .expect_bind hxs fun _ => .pure hxs.advance

theorem pairs_gathers (he : w.eof.kind = .eof)
    (hitem : ∀ v, v.eof.kind = .eof → Gathers toks item v v.tokens) :
    Gathers (·.flatMap fun p => toks p.1 ++ toks p.2) (pairs item n) w w.ahead := by
  induction n generalizing w with
  | zero => exact .exhausted
  | succ n ih =>
    rw [pairs]
    refine .next_bind ?_
    split
    · exact .pure ⟨he, .nothing (List.Sublist.refl _)⟩
    refine .advance_bind ((hitem w.advance he).bind fun key u hkey => ?_)
    refine .expect_bind hkey fun _ => .advance_bind ?_
    have hcolon := hkey.advance
    refine ((hitem u.advance.advance hkey.eof).behind hcolon.gathered).bind fun value v hvalue => ?_
    have hrest (x : Window) (hx : At (toks key ++ toks value) x w.ahead) :
        Gathers (·.flatMap fun p => toks p.1 ++ toks p.2)
          (pairs item n >>= fun ps => Pure.pure ((key, value) :: ps)) x w.ahead :=
      ((ih hx.eof).behind hx.gathered).bind fun ps y hps => .pure hps
    refine .next_bind ?_
    dsimp only
    split
    · exact .expect_bind hvalue fun _ => hrest _ hvalue.advance
    · exact hrest v hvalue

theorem untilKind_gathers (he : w.eof.kind = .eof)
    (hitem : ∀ v, v.eof.kind = .eof → Gathers toks item v v.tokens) :
    Gathers (·.flatMap toks) (untilKind closing item n) w w.tokens := by
  induction n generalizing w with
  | zero => exact .exhausted
  | succ n ih =>
    rw [untilKind]
    refine .current_bind ?_
    split
    · exact .pure (.start he)
    refine .attempt_bind (hitem w he) fun r u hr => .advance_bind ?_
    have hrest := (ih (w := u.advance) hr.eof).behind hr.gathered
    cases r with
    | error e => exact hrest.bind fun xs v hxs => .pure hxs
    | ok x => exact hrest.bind fun xs v hxs => .pure hxs

end Lists

theorem tokensAll_eq_flatMap (es : List Expr) : tokensAll es = es.flatMap Expr.tokens := by
  induction es with
  | nil => rfl
  | cons e es ih => rw [tokensAll, List.flatMap_cons, ih]

theorem tokensPairs_eq_flatMap (ps : List (Expr × Expr)) :
    tokensPairs ps = ps.flatMap fun p => p.1.tokens ++ p.2.tokens := by
  induction ps with
  | nil => rfl
  | cons p ps ih => rw [tokensPairs, List.flatMap_cons, ih]

theorem tokensStatements_eq_flatMap (ss : List Statement) :
    tokensStatements ss = ss.flatMap Statement.tokens := by
  induction ss with
  | nil => rfl
  | cons s ss ih => rw [tokensStatements, List.flatMap_cons, ih]

/-! ## The grammar -/

section Parts

variable {w : Window} {n : Nat}

theorem parameter_gathers (he : w.eof.kind = .eof) :
    Gathers (fun t => [t]) parameter w w.ahead := by
  have hhere : At [] w w.ahead := ⟨he, .nothing (List.Sublist.refl _)⟩
  rw [parameter]
  refine .expect_bind hhere fun hk => ?_
  exact .current_bind (.pure (hhere.take (by simp [hk])))

theorem block_gathers {item : Parser Statement} (he : w.eof.kind = .eof)
    (hitem : ∀ v, v.eof.kind = .eof → Gathers Statement.tokens item v v.tokens) :
    Gathers Block.tokens (block item n) w w.ahead := by
  have hhere : At [] w w.ahead := ⟨he, .nothing (List.Sublist.refl _)⟩
  rw [block]
  refine .expect_bind hhere fun ho => .current_bind (.advance_bind ?_)
  have hbrace := hhere.take (by simp [ho])
  let inside := w.advance.advance
  have hbody : Gathers _ (untilKind .rightBrace item n) inside inside.tokens :=
    untilKind_gathers he hitem
  refine (hbody.behind hbrace.gathered).bind fun ss u hss => .current_bind ?_
  have hblock : At (Block.tokens ⟨w.next, ss⟩) u w.ahead := by
    rw [Block.tokens, tokensStatements_eq_flatMap]
    exact hss
  dsimp only
  split
  · exact .record_bind (.pure (hblock.record _))
  · exact .pure hblock

theorem alternative_gathers {branch : Parser Block} (he : w.eof.kind = .eof)
    (hbranch : ∀ v, v.eof.kind = .eof → Gathers Block.tokens branch v v.ahead) :
    Gathers tokensElse (alternative branch) w w.ahead := by
  have hhere : At [] w w.ahead := ⟨he, .nothing (List.Sublist.refl _)⟩
  rw [alternative]
  refine .accept_bind ?_ (.pure hhere)
  have hpast := hhere.advance
  exact ((hbranch w.advance he).behind hpast.gathered).bind fun b u hb => .pure hb

theorem returnValue_gathers {value : Parser Expr} (he : w.eof.kind = .eof)
    (hvalue : ∀ v, v.eof.kind = .eof → Gathers Expr.tokens value v v.tokens) :
    Gathers tokensValue (returnValue value) w w.ahead := by
  have hhere : At [] w w.ahead := ⟨he, .nothing (List.Sublist.refl _)⟩
  rw [returnValue]
  refine .accept_bind (.pure hhere.advance) (.next_bind ?_)
  split
  · exact .pure hhere
  · refine (Gathers.advanced (hvalue w.advance he)).bind fun e u hx => ?_
    exact .skip_pure hx

end Parts

/-- What each step of the grammar gathers at this depth: from the current token on, or behind an
expression that it goes on with. -/
structure Gathering (n : Nat) : Prop where
  expression : ∀ p w, w.eof.kind = .eof → Gathers Expr.tokens (expression n p) w w.tokens
  extend : ∀ p left w whole, At left.tokens w whole →
    Gathers Expr.tokens (extend n p left) w whole
  suffix : ∀ left w whole, At (left.tokens ++ [w.current]) w whole →
    Gathers Expr.tokens (suffix n left) w whole
  operand : ∀ w, w.eof.kind = .eof → Gathers Expr.tokens (operand n) w w.tokens
  statement : ∀ w, w.eof.kind = .eof → Gathers Statement.tokens (statement n) w w.tokens

section Grammar

variable {n : Nat} {w : Window} {whole : List Token}

theorem Gathering.item (h : Gathering n) (v : Window) (he : v.eof.kind = .eof) :
    Gathers Expr.tokens (advanced (Parser.expression n .lowest)) v v.ahead :=
  .advanced (h.expression .lowest v.advance he)

theorem Gathering.body (h : Gathering n) (v : Window) (he : v.eof.kind = .eof) :
    Gathers Block.tokens (block (Parser.statement n) n) v v.ahead := block_gathers he h.statement

theorem gathering_extend (h : Gathering n) (p : Precedence) (left : Expr)
    (hleft : At left.tokens w whole) : Gathers Expr.tokens (extend (n + 1) p left) w whole := by
  rw [extend]
  refine .next_bind ?_
  split
  · rename_i hp
    have hnext : w.next.kind ≠ .eof := by
      intro hk
      have hlt := hp.2
      rw [hk] at hlt
      exact Nat.not_lt_zero _ hlt
    have hop := hleft.take hnext
    refine .advance_bind ((h.suffix left w.advance whole hop).bind fun e u he => ?_)
    exact h.extend p e u whole he
  · exact .pure hleft

theorem gathering_suffix (h : Gathering n) (left : Expr)
    (hleft : At (left.tokens ++ [w.current]) w whole) :
    Gathers Expr.tokens (suffix (n + 1) left) w whole := by
  rw [suffix]
  refine .current_bind ?_
  split
  · refine ((items_gathers hleft.eof h.item).behind hleft.gathered).bind fun as u has => .pure ?_
    rw [Expr.tokens, tokensAll_eq_flatMap]
    simpa using has
  · refine ((h.item w hleft.eof).behind hleft.gathered).bind fun e u he => ?_
    refine .expect_bind he fun _ => .pure ?_
    rw [Expr.tokens]
    simpa using he.advance
  · split
    · have hright := Gathers.advanced (h.expression (.ofKind w.current.kind) w.advance hleft.eof)
      refine (hright.behind hleft.gathered).bind fun e u he => .pure ?_
      rw [Expr.tokens]
      simpa using he
    · exact .fail hleft

theorem gathering_prefixed (h : Gathering n) {op : PrefixOp} (he : w.eof.kind = .eof)
    (hk : w.current.kind ≠ .eof) :
    Gathers Expr.tokens (do return Expr.prefixed w.current op (← advanced (expression n .prefixed)))
      w w.tokens := by
  have hoperand := Gathers.advanced (h.expression .prefixed w.advance he)
  exact (hoperand.behind (At.token he hk).gathered).bind fun e u hx => .pure hx

theorem gathering_conditional (h : Gathering n) (he : w.eof.kind = .eof)
    (hk : w.current.kind = .ifWord) : Gathers Expr.tokens (operand (n + 1)) w w.tokens := by
  have hword : At [w.current] w w.tokens := .token he (by simp [hk])
  rw [operand]
  refine .current_bind ?_
  simp only [hk]
  refine .expect_bind hword fun _ => ?_
  refine ((h.item w.advance he).behind hword.advance.gathered).bind fun e u hx => ?_
  refine .expect_bind hx fun _ => ?_
  refine ((h.body u.advance hx.eof).behind hx.advance.gathered).bind fun b v hb => ?_
  refine ((alternative_gathers hb.eof h.body).behind hb.gathered).bind fun a x ha => .pure ?_
  rw [Expr.tokens]
  simpa using ha

theorem gathering_function (h : Gathering n) (he : w.eof.kind = .eof)
    (hk : w.current.kind = .function) : Gathers Expr.tokens (operand (n + 1)) w w.tokens := by
  have hword : At [w.current] w w.tokens := .token he (by simp [hk])
  rw [operand]
  refine .current_bind ?_
  simp only [hk]
  refine .expect_bind hword fun _ => ?_
  have hparameters : Gathers (·.flatMap fun t => [t]) (items .rightParen parameter n) w.advance
      w.advance.ahead := items_gathers he fun v hv => parameter_gathers hv
  refine (hparameters.behind hword.advance.gathered).bind fun ps u hps => ?_
  refine ((h.body u hps.eof).behind hps.gathered).bind fun b v hb => .pure ?_
  rw [Expr.tokens]
  simpa using hb

theorem gathering_operand (h : Gathering n) (he : w.eof.kind = .eof) :
    Gathers Expr.tokens (operand (n + 1)) w w.tokens := by
  cases hk : w.current.kind with
  | ifWord => exact gathering_conditional h he hk
  | function => exact gathering_function h he hk
  | leftParen =>
    rw [operand]
    refine .current_bind ?_
    simp only [hk]
    have hopen : At [] w w.tokens := .start he
    refine ((h.item w he).behind hopen.gathered).bind fun e u hx => ?_
    exact .expect_bind hx fun _ => .pure hx.advance
  | leftBracket =>
    rw [operand]
    refine .current_bind ?_
    simp only [hk]
    have hopen : At [w.current] w w.tokens := .token he (by simp [hk])
    refine ((items_gathers he h.item).behind hopen.gathered).bind fun es u hes => .pure ?_
    rw [Expr.tokens, tokensAll_eq_flatMap]
    exact hes
  | leftBrace =>
    rw [operand]
    refine .current_bind ?_
    simp only [hk]
    have hopen : At [w.current] w w.tokens := .token he (by simp [hk])
    refine ((pairs_gathers he (h.expression .lowest)).behind hopen.gathered).bind fun ps u hps => ?_
    refine .expect_bind hps fun _ => .pure ?_
    rw [Expr.tokens, tokensPairs_eq_flatMap]
    exact hps.advance
  | int =>
    rw [operand]
    refine .current_bind ?_
    simp only [hk]
    rw [integer]
    refine .current_bind ?_
    have hnumeral : At [w.current] w w.tokens := .token he (by simp [hk])
    split
    · exact .pure hnumeral
    · exact .record_fail hnumeral
  | _ =>
    rw [operand]
    refine .current_bind ?_
    simp only [hk]
    first
      | exact .record_fail (.start he)
      | exact gathering_prefixed h he (by simp [hk])
      | exact .pure (.token he (by simp [hk]))

theorem gathering_statement (h : Gathering n) (he : w.eof.kind = .eof) :
    Gathers Statement.tokens (statement (n + 1)) w w.tokens := by
  rw [statement]
  refine .current_bind ?_
  split
  · rename_i hk
    have hword : At [w.current] w w.tokens := .token he (by simp [hk])
    refine .require_bind hword fun hn => .current_bind ?_
    have hname := hword.take (by simp [hn])
    refine .require_bind hname fun _ => ?_
    have hvalue := (h.item w.advance.advance he).behind hname.advance.gathered
    exact hvalue.bind fun e u hx => .skip_pure hx
  · rename_i hk
    have hword : At [w.current] w w.tokens := .token he (by simp [hk])
    have hvalue := returnValue_gathers he (h.expression .lowest)
    exact (hvalue.behind hword.gathered).bind fun r u hr => .pure hr
  · exact (h.expression .lowest w he).bind fun e u hx => .skip_pure hx

end Grammar

theorem gathering (n : Nat) : Gathering n := by
  induction n with
  | zero =>
    exact ⟨fun _ _ _ => .exhausted, fun _ _ _ _ _ => .exhausted, fun _ _ _ _ => .exhausted,
      fun _ _ => .exhausted, fun _ _ => .exhausted⟩
  | succ n ih =>
    have expression (p : Precedence) (w : Window) (he : w.eof.kind = .eof) :
        Gathers Expr.tokens (expression (n + 1) p) w w.tokens := by
      rw [Parser.expression]
      exact (ih.operand w he).bind fun left u hleft => ih.extend p left u _ hleft
    exact {
      expression
      extend := fun p left w whole hleft => gathering_extend ih p left hleft
      suffix := fun left w whole hleft => gathering_suffix ih left hleft
      operand := fun w he => gathering_operand ih he
      statement := fun w he => gathering_statement ih he }

end Parser

open Treewalk.Parser

/-- However malformed the input, the tokens that the program keeps, in the order in which it is
read, are tokens of the input from front to back, and none of them is an end of input. -/
theorem recorded_in_order (ts : List Token) :
    (parseTokens ts).program.tokens.Sublist ts ∧
      ∀ t ∈ (parseTokens ts).program.tokens, t.kind ≠ .eof := by
  have he : (Window.ofTokens ts).eof.kind = .eof := rfl
  obtain ⟨⟨r, u⟩, hr⟩ := program_answers (w := Window.ofTokens ts) he
  have hkept : At _ u ts := untilKind_gathers he (gathering _).statement r u hr
  have htokens : (parseTokens ts).program.tokens =
      kept (fun p : Program => p.flatMap Statement.tokens) r := by
    rw [parseTokens_of_ends hr, Program.tokens, tokensStatements_eq_flatMap]
    cases r <;> rfl
  rw [htokens]
  exact ⟨(List.sublist_append_left _ _).trans hkept.gathered.order, hkept.gathered.real⟩

end Treewalk
