import Treewalk.Parser.Parse
import Treewalk.Proofs.Parser.Sound

/-!
# Depth

A greater depth changes no answer, and a depth linear in the number of tokens always gives one.
-/

namespace Treewalk

namespace Window

def size (w : Window) : Nat := w.tokens.length

theorem Leads.size_le {w u : Window} (h : w.Leads u) : u.size ≤ w.size := h.tokens.length_le

theorem size_advance (w : Window) : w.advance.size = w.size - 1 := List.length_tail

theorem size_of_current {w : Window} (he : w.eof.kind = .eof) (h : w.current.kind ≠ .eof) :
    1 ≤ w.size := by
  rw [size, tokens_eq he h]
  simp

theorem size_of_next {w : Window} (he : w.eof.kind = .eof) (h : w.next.kind ≠ .eof) :
    2 ≤ w.size := by
  have h' := size_of_current (w := w.advance) he (by rwa [current_advance])
  rw [size_advance] at h'
  omega

end Window

namespace Parser

open Run (Refines)

variable {α : Type} {n : Nat}

/-! ## More depth -/

theorem refines_moreItems {item item' : Parser α} (h : Refines item item') (n : Nat) :
    Refines (moreItems item n) (moreItems item' (n + 1)) := by
  induction n with
  | zero => exact .exhausted
  | succ n ih =>
    rw [moreItems, moreItems]
    refine .bind (.refl _) fun more => ?_
    split
    · exact .bind h fun x => .bind ih fun xs => .refl _
    · exact .refl _

theorem refines_items {item item' : Parser α} (h : Refines item item') (closing : TokenKind)
    (n : Nat) : Refines (items closing item n) (items closing item' (n + 1)) := by
  refine .bind (.refl _) fun none => ?_
  split
  · exact .refl _
  · exact .bind h fun x => .bind (refines_moreItems h n) fun xs => .refl _

theorem refines_pairs {item item' : Parser α} (h : Refines item item') (n : Nat) :
    Refines (pairs item n) (pairs item' (n + 1)) := by
  induction n with
  | zero => exact .exhausted
  | succ n ih =>
    rw [pairs, pairs]
    refine .bind (.refl _) fun next => ?_
    split
    · exact .refl _
    · refine .bind (.refl _) fun _ => .bind h fun key => .bind (.refl _) fun _ => ?_
      refine .bind (.refl _) fun _ => .bind h fun value => .bind (.refl _) fun next => ?_
      dsimp only
      split
      · exact .bind (.refl _) fun _ => .bind ih fun ps => .refl _
      · exact .bind ih fun ps => .refl _

theorem refines_untilKind {item item' : Parser α} (h : Refines item item') (closing : TokenKind)
    (n : Nat) : Refines (untilKind closing item n) (untilKind closing item' (n + 1)) := by
  induction n with
  | zero => exact .exhausted
  | succ n ih =>
    rw [untilKind, untilKind]
    refine .bind (.refl _) fun token => ?_
    split
    · exact .refl _
    · exact .bind h.attempt fun found => .bind (.refl _) fun _ => .bind ih fun rest => .refl _

theorem refines_block {item item' : Parser Statement} (h : Refines item item') (n : Nat) :
    Refines (block item n) (block item' (n + 1)) :=
  .bind (.refl _) fun _ => .bind (.refl _) fun _ => .bind (.refl _) fun _ =>
    .bind (refines_untilKind h _ n) fun _ => .refl _

theorem refines_alternative {branch branch' : Parser Block} (h : Refines branch branch') :
    Refines (alternative branch) (alternative branch') := by
  refine .bind (.refl _) fun more => ?_
  split
  · exact .bind h fun b => .refl _
  · exact .refl _

theorem refines_advanced {x y : Parser α} (h : Refines x y) : Refines (advanced x) (advanced y) :=
  .bind (.refl _) fun _ => h

theorem refines_returnValue {value value' : Parser Expr} (h : Refines value value') :
    Refines (returnValue value) (returnValue value') := by
  refine .bind (.refl _) fun bare => ?_
  split
  · exact .refl _
  · refine .bind (.refl _) fun next => ?_
    split
    · exact .refl _
    · exact .bind (refines_advanced h) fun _ => .refl _

structure Deepens (n : Nat) : Prop where
  expression : ∀ p, Refines (expression n p) (expression (n + 1) p)
  extend : ∀ p left, Refines (extend n p left) (extend (n + 1) p left)
  suffix : ∀ left, Refines (suffix n left) (suffix (n + 1) left)
  operand : Refines (operand n) (operand (n + 1))
  statement : Refines (statement n) (statement (n + 1))

theorem Deepens.item (h : Deepens n) : Refines (advanced (Parser.expression n .lowest))
    (advanced (Parser.expression (n + 1) .lowest)) := refines_advanced (h.expression _)

theorem Deepens.block (h : Deepens n) : Refines (Parser.block (Parser.statement n) n)
    (Parser.block (Parser.statement (n + 1)) (n + 1)) := refines_block h.statement n

theorem deepens_expression (h : Deepens n) (p : Precedence) :
    Refines (expression (n + 1) p) (expression (n + 2) p) := by
  rw [expression, expression]
  exact .bind h.operand fun left => h.extend p left

theorem deepens_extend (h : Deepens n) (p : Precedence) (left : Expr) :
    Refines (extend (n + 1) p left) (extend (n + 2) p left) := by
  rw [extend, extend]
  refine .bind (.refl _) fun next => ?_
  split
  · exact .bind (.refl _) fun _ => .bind (h.suffix left) fun whole => h.extend p whole
  · exact .refl _

theorem deepens_suffix (h : Deepens n) (left : Expr) :
    Refines (suffix (n + 1) left) (suffix (n + 2) left) := by
  rw [suffix, suffix]
  refine .bind (.refl _) fun token => ?_
  split
  · exact .bind (refines_items h.item _ n) fun arguments => .refl _
  · exact .bind h.item fun position => .refl _
  · split
    · exact .bind (refines_advanced (h.expression _)) fun right => .refl _
    · exact .refl _

theorem deepens_operand (h : Deepens n) : Refines (operand (n + 1)) (operand (n + 2)) := by
  rw [operand, operand]
  refine .bind (.refl _) fun token => ?_
  split
  case h_1 | h_2 | h_3 | h_4 | h_5 => exact .refl _
  case h_6 | h_7 => exact .bind (refines_advanced (h.expression _)) fun inner => .refl _
  case h_8 => exact .bind h.item fun inner => .refl _
  case h_9 =>
    refine .bind (.refl _) fun _ => .bind h.item fun condition => .bind (.refl _) fun _ => ?_
    refine .bind h.block fun consequence => ?_
    exact .bind (refines_alternative h.block) fun alternative => .refl _
  case h_10 =>
    refine .bind (.refl _) fun _ => .bind (refines_items (.refl _) _ n) fun parameters => ?_
    exact .bind h.block fun body => .refl _
  case h_11 => exact .bind (refines_items h.item _ n) fun elements => .refl _
  case h_12 => exact .bind (refines_pairs (h.expression _) n) fun pairs => .refl _
  case h_13 => exact .refl _

theorem deepens_statement (h : Deepens n) : Refines (statement (n + 1)) (statement (n + 2)) := by
  rw [statement, statement]
  refine .bind (.refl _) fun token => ?_
  split
  · refine .bind (.refl _) fun _ => .bind (.refl _) fun name => .bind (.refl _) fun _ => ?_
    exact .bind h.item fun value => .refl _
  · exact .bind (refines_returnValue (h.expression _)) fun value => .refl _
  · exact .bind (h.expression _) fun value => .refl _

theorem deepens (n : Nat) : Deepens n := by
  induction n with
  | zero =>
    exact ⟨fun _ => .exhausted, fun _ _ => .exhausted, fun _ => .exhausted, .exhausted,
      .exhausted⟩
  | succ n ih =>
    exact ⟨deepens_expression ih, deepens_extend ih, deepens_suffix ih, deepens_operand ih,
      deepens_statement ih⟩

/-! ## Enough depth -/

/-- The depth suffices for an answer. -/
def Answers (x : Parser α) (w : Window) : Prop := ∃ r, x w = some r

namespace Answers

variable {β : Type} {w : Window} {x : Parser α} {f : α → Parser β} {P : α → Window → Prop}

theorem pure {a : α} : Answers (Pure.pure a) w := ⟨_, rfl⟩

theorem bind (hx : Answers x w) (ho : Obeys x w P) (hf : ∀ a u, w.Leads u → Answers (f a) u) :
    Answers (x >>= f) w := by
  obtain ⟨⟨_ | a, u⟩, hr⟩ := hx
  · exact ⟨_, Run.bind_error hr⟩
  · obtain ⟨r, hu⟩ := hf a u (ho _ _ hr).1
    exact ⟨r, by rw [Run.bind_ok hr, hu]⟩

theorem bind_pure {g : α → β} (hx : Answers x w) :
    Answers (x >>= fun a => (Pure.pure (g a) : Parser β)) w := by
  obtain ⟨⟨_ | a, u⟩, hr⟩ := hx
  · exact ⟨_, Run.bind_error hr⟩
  · exact ⟨_, Run.bind_ok hr⟩

theorem after {u : Window} {y : Parser α} (hy : Answers y u) (h : x w = y u) : Answers x w := by
  obtain ⟨r, hr⟩ := hy
  exact ⟨r, h.trans hr⟩

theorem current_bind {f : Token → Parser β} (h : Answers (f w.current) w) :
    Answers (current >>= f) w := h

theorem next_bind {f : Token → Parser β} (h : Answers (f w.next) w) : Answers (next >>= f) w := h

theorem advance_bind {f : Unit → Parser β} (h : Answers (f ()) w.advance) :
    Answers (advance >>= f) w := h

theorem advanced (h : Answers x w.advance) : Answers (Parser.advanced x) w := h

theorem record_bind {e : SyntaxError} {f : Unit → Parser β} (h : Answers (f ()) (w.record e)) :
    Answers (record e >>= f) w := h

theorem record_fail {e : SyntaxError} : Answers (record e >>= fun _ => (fail : Parser α)) w :=
  ⟨_, rfl⟩

theorem expect_bind {k : TokenKind} {f : Unit → Parser β}
    (h : w.next.kind = k → Answers (f ()) w.advance) : Answers (expect k >>= f) w := by
  by_cases hk : w.next.kind = k
  · exact after (h hk) (Run.bind_ok (expect_eq hk))
  · exact ⟨_, Run.bind_error (expect_ne hk)⟩

theorem require_bind {k : TokenKind} {f : Unit → Parser β}
    (h : w.next.kind = k → Answers (f ()) w.advance) : Answers (require k >>= f) w := by
  by_cases hk : w.next.kind = k
  · exact after (h hk) (Run.bind_ok (require_eq hk))
  · exact ⟨_, Run.bind_error (require_ne hk)⟩

theorem accept_bind {k : TokenKind} {f : Bool → Parser β}
    (yes : w.next.kind = k → Answers (f true) w.advance) (no : Answers (f false) w) :
    Answers (accept k >>= f) w := by
  by_cases hk : w.next.kind = k
  · exact after (yes hk) (Run.bind_ok (accept_eq hk))
  · exact after no (Run.bind_ok (accept_ne hk))

theorem skip_pure {k : TokenKind} {a : β} :
    Answers (skip k >>= fun _ => (Pure.pure a : Parser β)) w := by
  by_cases hk : w.next.kind = k
  · exact after pure (Run.bind_ok (skip_eq hk))
  · exact after pure (Run.bind_ok (skip_ne hk))

theorem attempt_bind {f : Except Unit α → Parser β} (hx : Answers x w) (ho : Obeys x w P)
    (hf : ∀ r u, w.Leads u → Answers (f r) u) : Answers (x.attempt >>= f) w := by
  obtain ⟨⟨r, u⟩, hr⟩ := hx
  obtain ⟨r', hr'⟩ := hf r u (ho _ _ hr).1
  refine ⟨r', ?_⟩
  rw [Run.bind_ok (by rw [Run.attempt_apply, hr]; rfl), hr']

end Answers

section

variable {w : Window} {P : α → List Token → Prop} {item : Parser α} {size : Nat}

theorem moreItems_answers (he : w.eof.kind = .eof) (hw : w.size ≤ n) (hn : 1 ≤ n)
    (ho : ∀ v, v.eof.kind = .eof → Obeys item v (Passes P v))
    (hitem : ∀ v, v.eof.kind = .eof → v.size ≤ w.size → Answers item v) :
    Answers (moreItems item n) w := by
  induction n generalizing w with
  | zero => omega
  | succ n ih =>
    rw [moreItems]
    refine .accept_bind (fun hc => ?_) .pure
    have h2 := Window.size_of_next he (by simp [hc])
    have h1 := w.size_advance
    refine .bind (hitem _ he (by omega)) (ho _ he) fun a u hu => .bind_pure ?_
    have hs := hu.size_le
    exact ih (hu.eof ▸ he) (by omega) (by omega) fun v hv hle => hitem v hv (by omega)

theorem items_answers {closing : TokenKind} (he : w.eof.kind = .eof) (hw : w.size ≤ n)
    (hn : 1 ≤ n) (ho : ∀ v, v.eof.kind = .eof → Obeys item v (Passes P v))
    (hitem : ∀ v, v.eof.kind = .eof → v.size ≤ w.size → Answers item v) :
    Answers (items closing item n) w := by
  rw [items]
  refine .accept_bind (fun _ => .pure) ?_
  refine .bind (hitem w he (Nat.le_refl _)) (ho w he) fun a u hu => ?_
  have hs := hu.size_le
  have hue : u.eof.kind = .eof := hu.eof ▸ he
  refine .bind (moreItems_answers hue (by omega) hn ho fun v hv hle => hitem v hv (by omega))
    (moreItems_obeys hue ho) fun as v _ => ?_
  exact .expect_bind fun _ => .pure

theorem pairs_answers {item : Parser Expr} (he : w.eof.kind = .eof) (hw : w.size ≤ n)
    (hn : 1 ≤ n) (ho : ∀ v, v.eof.kind = .eof → Obeys item v (Spells 0 v))
    (hitem : ∀ v, v.eof.kind = .eof → v.size < w.size ∨ v.size = 0 → Answers item v) :
    Answers (pairs item n) w := by
  induction n generalizing w with
  | zero => omega
  | succ n ih =>
    rw [pairs]
    refine .next_bind ?_
    split
    · exact .pure
    have h1 := w.size_advance
    refine .advance_bind (.bind (hitem _ he (by omega)) (ho _ he) fun key u hu => ?_)
    have hs := hu.size_le
    have hue : u.eof.kind = .eof := hu.eof ▸ he
    refine .expect_bind fun hc => .advance_bind ?_
    have h2 := Window.size_of_next hue (by simp [hc])
    have h3 := u.size_advance
    have h4 := u.advance.size_advance
    refine .bind (hitem _ hue (by omega)) (ho _ hue) fun value v hv => .next_bind ?_
    have ht := hv.size_le
    have hve : v.eof.kind = .eof := hv.eof ▸ hue
    have hrest : ∀ x, x.eof.kind = .eof → x.size ≤ v.size → Answers (pairs item n) x :=
      fun x hx hle => ih hx (by omega) (by omega) fun y hy hlt => hitem y hy (by omega)
    dsimp only
    split
    · refine .expect_bind fun _ => .bind_pure (hrest _ hve ?_)
      have h5 := v.size_advance
      omega
    · exact .bind_pure (hrest v hve (Nat.le_refl _))

theorem untilKind_answers {closing : TokenKind} {item : Parser Statement} (he : w.eof.kind = .eof)
    (hw : w.size < n) (ho : ∀ v, v.eof.kind = .eof → Obeys item v (Completes v))
    (hitem : ∀ v, v.eof.kind = .eof → v.size ≤ w.size → Answers item v) :
    Answers (untilKind closing item n) w := by
  induction n generalizing w with
  | zero => omega
  | succ n ih =>
    rw [untilKind]
    refine .current_bind ?_
    split
    · exact .pure
    · rename_i hc
      have h1 := Window.size_of_current he fun h => hc (.inr h)
      refine .attempt_bind (hitem w he (Nat.le_refl _)) (ho w he) fun r u hu => .advance_bind ?_
      have hs := hu.size_le
      have h2 := u.size_advance
      -- whatever a statement did, the token that it ended on is passed
      have hrest : Answers (untilKind closing item n) u.advance :=
        ih (hu.eof ▸ he) (by omega) fun v hv hle => hitem v hv (by omega)
      cases r with
      | error => exact .bind_pure hrest
      | ok => exact .bind_pure hrest

theorem block_answers {item : Parser Statement} (he : w.eof.kind = .eof) (hw : w.size ≤ n + 1)
    (ho : ∀ v, v.eof.kind = .eof → Obeys item v (Completes v))
    (hitem : ∀ v, v.eof.kind = .eof → v.size + 2 ≤ w.size → Answers item v) :
    Answers (block item n) w := by
  rw [block]
  refine .expect_bind fun hc => .current_bind (.advance_bind ?_)
  have h1 := Window.size_of_next he (by simp [hc])
  have h2 := w.size_advance
  have h3 := w.advance.size_advance
  refine .bind (untilKind_answers he (by omega) ho fun v hv hle => hitem v hv (by omega))
    (untilKind_obeys he ho) fun ss u _ => .current_bind ?_
  dsimp only
  split
  · exact .record_bind .pure
  · exact .pure

theorem alternative_answers {branch : Parser Block}
    (h : w.next.kind = .elseWord → Answers branch w.advance) : Answers (alternative branch) w := by
  rw [alternative]
  exact .accept_bind (fun hc => .bind_pure (h hc)) .pure

theorem returnValue_answers {value : Parser Expr}
    (ho : Obeys value w.advance fun _ _ => True) (h : Answers value w.advance) :
    Answers (returnValue value) w := by
  rw [returnValue]
  refine .accept_bind (fun _ => .pure) (.next_bind ?_)
  split
  · exact .pure
  · exact .bind (.advanced h) ho.advanced fun e u _ => .skip_pure

end

/-- How much depth the tokens of the window take. -/
structure Enough (n : Nat) : Prop where
  expression : ∀ p w, w.eof.kind = .eof → 2 * w.size + 2 ≤ n → Answers (expression n p) w
  extend : ∀ p left w, w.eof.kind = .eof → 2 * w.size + 1 ≤ n → Answers (extend n p left) w
  suffix : ∀ left w, w.eof.kind = .eof → Precedence.ofKind w.current.kind ≠ .lowest →
    2 * w.size + 1 ≤ n → Answers (suffix n left) w
  operand : ∀ w, w.eof.kind = .eof → 2 * w.size + 1 ≤ n → Answers (operand n) w
  statement : ∀ w, w.eof.kind = .eof → 2 * w.size + 3 ≤ n → Answers (statement n) w

section

variable {w : Window}

theorem enough_extend (h : Enough n) (p : Precedence) (left : Expr) (he : w.eof.kind = .eof)
    (hn : 2 * w.size + 1 ≤ n + 1) : Answers (extend (n + 1) p left) w := by
  rw [extend]
  refine .next_bind ?_
  split
  · rename_i hp
    have hlow : Precedence.ofKind w.next.kind ≠ .lowest := by
      intro hlow
      rw [hlow] at hp
      exact Nat.not_lt_zero _ hp.2
    have h1 := Window.size_of_next he fun hk => hlow (by rw [hk]; rfl)
    have h2 := w.size_advance
    refine .advance_bind ?_
    refine .bind (h.suffix left w.advance he hlow (by omega))
      ((sound n).suffix left w.advance he hlow) fun whole u hu => ?_
    have hs := hu.size_le
    exact h.extend p whole u (hu.eof ▸ he) (by omega)
  · exact .pure

theorem item_answers (h : Enough n) (hw : 1 ≤ w.size) (hn : 2 * w.size ≤ n) (v : Window)
    (he : v.eof.kind = .eof) (hv : v.size ≤ w.size) :
    Answers (advanced (expression n .lowest)) v := by
  have h1 := v.size_advance
  exact .advanced (h.expression .lowest v.advance he (by omega))

theorem enough_suffix (h : Enough n) (left : Expr) (he : w.eof.kind = .eof)
    (hlow : Precedence.ofKind w.current.kind ≠ .lowest) (hn : 2 * w.size + 1 ≤ n + 1) :
    Answers (suffix (n + 1) left) w := by
  rw [suffix]
  refine .current_bind ?_
  have h1 := Window.size_of_current he fun hk => hlow (by rw [hk]; rfl)
  have h2 := w.size_advance
  split
  · exact .bind_pure <| items_answers he (by omega) (by omega) (item_obeys (sound n))
      (item_answers h h1 (by omega))
  · refine .bind (item_answers h h1 (by omega) w he (Nat.le_refl _)) (item_obeys (sound n) w he)
      fun position u _ => ?_
    exact .expect_bind fun _ => .pure
  · rename_i hcall hindex
    split
    · exact .bind_pure (.advanced (h.expression _ w.advance he (by omega)))
    · rename_i hop
      exact absurd (ofKind_eq_lowest hcall hindex hop) hlow

theorem body_answers (h : Enough n) (hn : 2 * w.size ≤ n) (v : Window) (he : v.eof.kind = .eof)
    (hv : v.size + 1 ≤ w.size) : Answers (block (statement n) n) v :=
  block_answers he (by omega) (sound n).statement fun x hx hle => h.statement x hx (by omega)

theorem body_obeys (v : Window) (he : v.eof.kind = .eof) :
    Obeys (block (statement n) n) v (Passes (fun b => Derives (.block b)) v) :=
  block_obeys he (sound n).statement

theorem parameter_answers (w : Window) : Answers parameter w := by
  rw [parameter]
  exact .expect_bind fun _ => .current_bind .pure

theorem integer_answers : Answers integer w := by
  rw [integer]
  refine .current_bind ?_
  split
  · exact .pure
  · exact .record_fail

theorem prefixed_answers (h : Enough n) {op : PrefixOp} (he : w.eof.kind = .eof)
    (hk : w.current.kind ≠ .eof) (hn : 2 * w.size + 1 ≤ n + 1) :
    Answers (do return Expr.prefixed w.current op (← advanced (expression n .prefixed))) w := by
  have h1 := w.size_advance
  have h2 := Window.size_of_current he hk
  exact .bind_pure (.advanced (h.expression _ w.advance he (by omega)))

theorem parenthesised_answers (h : Enough n) {f : Expr → Parser α} (he : w.eof.kind = .eof)
    (hw : 1 ≤ w.size) (hn : 2 * w.size ≤ n)
    (hf : ∀ e u, u.eof.kind = .eof → u.size + 1 ≤ w.size → Answers (f e) u) :
    Answers (do
      let e ← advanced (expression n .lowest)
      expect .rightParen
      f e) w := by
  refine .bind (item_answers h hw hn w he (Nat.le_refl _)) (item_obeys (sound n) w he)
    fun e u hu => .expect_bind fun _ => hf e _ (hu.eof ▸ he) ?_
  have hs := hu.size_le
  have h1 := u.size_advance
  omega

theorem conditional_answers (h : Enough n) (he : w.eof.kind = .eof)
    (hk : w.current.kind = .ifWord) (hn : 2 * w.size ≤ n) : Answers (operand (n + 1)) w := by
  rw [operand]
  refine .current_bind ?_
  simp only [hk]
  refine .expect_bind fun ho => ?_
  have h1 := w.size_advance
  have h2 := Window.size_of_next he (by simp [ho])
  refine parenthesised_answers h (w := w.advance) he (by omega) (by omega) fun c u hue hu => ?_
  refine .bind (body_answers h hn u hue (by omega)) (body_obeys u hue) fun b v hv => ?_
  have hs := hv.size_le
  have h3 := v.size_advance
  have hve : v.eof.kind = .eof := hv.eof ▸ hue
  have hbranch : Answers (block (statement n) n) v.advance :=
    body_answers h hn v.advance hve (by omega)
  exact .bind_pure (alternative_answers fun _ => hbranch)

theorem function_answers (h : Enough n) (he : w.eof.kind = .eof)
    (hk : w.current.kind = .function) (hn : 2 * w.size ≤ n) : Answers (operand (n + 1)) w := by
  rw [operand]
  refine .current_bind ?_
  simp only [hk]
  refine .expect_bind fun ho => ?_
  have h1 := w.size_advance
  have h2 := Window.size_of_next he (by simp [ho])
  have hread : Answers (items .rightParen parameter n) w.advance :=
    items_answers he (by omega) (by omega) (fun _ hv => parameter_obeys hv)
      fun v _ _ => parameter_answers v
  have hobeys : Obeys (items .rightParen parameter n) w.advance _ :=
    items_obeys he (by simp) fun v hv => parameter_obeys hv
  refine .bind hread hobeys fun ps u hu => ?_
  have hs := hu.size_le
  exact .bind_pure (body_answers h hn u (hu.eof ▸ he) (by omega))

theorem hash_answers (h : Enough n) (he : w.eof.kind = .eof)
    (hk : w.current.kind = .leftBrace) (hn : 2 * w.size ≤ n) : Answers (operand (n + 1)) w := by
  rw [operand]
  refine .current_bind ?_
  simp only [hk]
  have h1 := Window.size_of_current he (by simp [hk])
  have hpair : ∀ v, v.eof.kind = .eof → v.size < w.size ∨ v.size = 0 →
      Answers (expression n .lowest) v := fun v hv hlt => h.expression .lowest v hv (by omega)
  refine .bind (pairs_answers he (by omega) (by omega) (pairItem_obeys (sound n)) hpair)
    (pairs_obeys he (pairItem_obeys (sound n))) fun ps u _ => ?_
  exact .expect_bind fun _ => .pure

theorem enough_operand (h : Enough n) (he : w.eof.kind = .eof) (hn : 2 * w.size + 1 ≤ n + 1) :
    Answers (operand (n + 1)) w := by
  cases hk : w.current.kind with
  | ifWord => exact conditional_answers h he hk (by omega)
  | function => exact function_answers h he hk (by omega)
  | leftBrace => exact hash_answers h he hk (by omega)
  | _ =>
    rw [operand]
    refine .current_bind ?_
    simp only [hk]
    first
      | exact .pure
      | exact .record_fail
      | exact integer_answers
      | exact prefixed_answers h he (by simp [hk]) hn
      | have h1 := Window.size_of_current he (by simp [hk])
        exact parenthesised_answers h he h1 (by omega) fun e u _ _ => .pure
      | have h1 := Window.size_of_current he (by simp [hk])
        exact .bind_pure <| items_answers he (by omega) (by omega) (item_obeys (sound n))
          (item_answers h h1 (by omega))

theorem enough_statement (h : Enough n) (he : w.eof.kind = .eof) (hn : 2 * w.size + 3 ≤ n + 1) :
    Answers (statement (n + 1)) w := by
  rw [statement]
  refine .current_bind ?_
  have h1 := w.size_advance
  have hread : ∀ v, v.eof.kind = .eof → v.size ≤ w.size → Answers (expression n .lowest) v :=
    fun v hv hle => h.expression .lowest v hv (by omega)
  have ho : ∀ v, v.eof.kind = .eof → Obeys (expression n .lowest) v fun _ _ => True :=
    fun v hv => ((sound n).expression .lowest v hv).mono fun _ _ _ _ => trivial
  split
  · refine .require_bind fun _ => .current_bind (.require_bind fun _ => ?_)
    have h2 := w.advance.size_advance
    have h3 := w.advance.advance.size_advance
    exact .bind (.advanced (hread w.advance.advance.advance he (by omega)))
      (.advanced (ho w.advance.advance.advance he)) fun e u _ => .skip_pure
  · exact .bind_pure (returnValue_answers (ho _ he) (hread _ he (by omega)))
  · exact .bind (hread w he (Nat.le_refl _)) (ho w he) fun e u _ => .skip_pure

theorem enough_expression (h : Enough n) (p : Precedence) (he : w.eof.kind = .eof)
    (hn : 2 * w.size + 2 ≤ n + 1) : Answers (expression (n + 1) p) w := by
  rw [expression]
  refine .bind (h.operand w he (by omega)) ((sound n).operand w he) fun left u hu => ?_
  have hs := hu.size_le
  exact h.extend p left u (hu.eof ▸ he) (by omega)

theorem enough (n : Nat) : Enough n := by
  induction n with
  | zero => constructor <;> intros <;> omega
  | succ n ih =>
    exact {
      expression := fun p w he hn => enough_expression ih p he hn
      extend := fun p left w he hn => enough_extend ih p left he hn
      suffix := fun left w he hlow hn => enough_suffix ih left he hlow hn
      operand := fun w he hn => enough_operand ih he hn
      statement := fun w he hn => enough_statement ih he hn }

/-- The depth that the parser sets out with is never used up. -/
theorem expression_answers (p : Precedence) (he : w.eof.kind = .eof) :
    Answers (expression w.depth p) w :=
  (enough _).expression p w he (by unfold Window.size Window.depth; omega)

theorem statements_answer (he : w.eof.kind = .eof) (hn : 2 * w.size + 3 ≤ n) :
    Answers (untilKind .eof (statement n) n) w :=
  untilKind_answers he (by omega) (sound n).statement
    fun v hv hle => (enough n).statement v hv (by omega)

theorem program_answers (he : w.eof.kind = .eof) :
    Answers (untilKind .eof (statement w.depth) w.depth) w :=
  statements_answer he (by unfold Window.size Window.depth; omega)

end

end Parser

end Treewalk
