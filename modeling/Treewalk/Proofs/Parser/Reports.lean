import Treewalk.Proofs.Parser.Complete

/-!
# What a result and the lack of one tell

A step that comes back with nothing has added an error. An expression that comes back without one
is the whole text from the current token before to the current token after.
-/

namespace Treewalk

namespace Parser

variable {n : Nat} {w u : Window} {p : Precedence} {x : Expr}

/-! ## The last token -/

theorem admits_level (hp : p.rank ≤ Precedence.prefixed.rank) : Admits p p.level := by
  rcases Nat.lt_or_ge p.rank Precedence.prefixed.rank with hlt | hge
  · have hlevel : p.level = p.rank + 1 := Nat.min_eq_left hlt
    rw [hlevel]
    exact admits_succ p
  · have hlevel : p.level = Precedence.prefixed.rank := Nat.min_eq_right (by omega)
    rw [hlevel]
    exact admits_prefixed hp

theorem expression_prefixed_of_call (hu : u.next.kind = .eof)
    (h : expression n .call w = some (.ok x, u)) : expression n .prefixed w = some (.ok x, u) := by
  cases n with
  | zero => cases h
  | succ n =>
    rw [expression] at h ⊢
    rcases Run.bind_ends h with ⟨e, -, he⟩ | ⟨left, v, hleft, hextend⟩
    · cases he
    rw [Run.bind_ok hleft]
    cases n with
    | zero => cases hextend
    | succ n =>
      have hcall (kind : TokenKind) : ¬Precedence.call < .ofKind kind :=
        Nat.not_lt.2 (rank_le_call _)
      rw [extend, Run.bind_ok (next_apply v), if_neg fun hlt => hcall _ hlt.2] at hextend
      cases hextend
      have hstop : ¬Precedence.prefixed < .ofKind u.next.kind := by
        rw [hu]
        exact Nat.not_lt_zero _
      rw [extend, Run.bind_ok (next_apply u), if_neg fun hlt => hstop hlt.2]
      rfl

theorem ends_inside (hp : p.rank ≤ Precedence.prefixed.rank) (he : w.eof.kind = .eof)
    (h : expression n p w = some (.ok x, u)) (hd : Derives (.expression p.level x) w.tokens) :
    u.tokens ≠ [] := by
  have hreadable : Readable w.eof w.errors (.expression p.level x) w.tokens := readable hd
  obtain ⟨before, last, -, hreads⟩ := hreadable.reads
  have hrank : (Window.mk [last] w.eof w.errors).nextRank = 0 := by
    rw [Window.nextRank, Window.next_singleton, he]
    rfl
  have hfits : Fits p.level ⟨[last], w.eof, w.errors⟩ := by
    refine ⟨hrank ▸ Nat.zero_le _, fun _ => ?_⟩
    rw [Window.next_singleton, he]
    decide
  have hread := hreads p [] (admits_level hp) hfits (hrank ▸ Nat.zero_le _)
  rw [List.append_nil] at hread
  have heq := hread.eq_of_refines (fun m => (deepens m).expression p) h
  obtain ⟨-, rfl⟩ := Prod.mk.inj heq
  exact List.cons_ne_nil _ _

theorem spells_to_current (he : w.eof.kind = .eof) (h : expression n p w = some (.ok x, u))
    (hq : u.errors = w.errors) : ∃ before, w.tokens = before ++ u.current :: u.ahead ∧
      Derives (.expression p.level x) (before ++ [u.current]) := by
  obtain ⟨hu, hquiet⟩ := (sound n).expression p w he _ _ h
  obtain ⟨_, hx, ⟨text, htext, hd⟩, -⟩ := hquiet hq
  cases hx
  have hne : u.tokens ≠ [] := by
    intro hnil
    have hahead : u.ahead = [] := by rw [Window.ahead, hnil, List.tail_nil]
    have hnext : u.next.kind = .eof := by
      rw [Window.next, hnil]
      exact hu.eof ▸ he
    rw [hahead, List.append_nil] at htext
    -- above a call nothing extends an operand, so it is read as above prefix operators
    rcases Nat.lt_or_ge Precedence.prefixed.rank p.rank with hlt | hle
    · obtain rfl : p = .call := by cases p <;> simp_all [Precedence.rank]
      exact ends_inside (p := .prefixed) (Nat.le_refl _) he (expression_prefixed_of_call hnext h)
        (htext ▸ hd) hnil
    · exact ends_inside hle he h (htext ▸ hd) hnil
  obtain ⟨last, rest, hlast⟩ := List.exists_cons_of_ne_nil hne
  have hcurrent : u.current = last := by rw [Window.current, hlast]; rfl
  have hahead : u.ahead = rest := by rw [Window.ahead, hlast, List.tail_cons]
  obtain ⟨before, hbefore⟩ := hu.tokens
  rw [hlast] at hbefore
  rw [hahead] at htext ⊢
  rw [hcurrent]
  refine ⟨before, hbefore.symm, ?_⟩
  have hall : (before ++ [last]) ++ rest = text ++ rest := by
    rw [← htext, ← hbefore, List.append_assoc]
    rfl
  rwa [List.append_cancel_right hall]

/-! ## Errors -/

theorem Obeys.reported {α : Type} {y : Parser α} {P : α → Window → Prop} (h : Obeys y w P)
    {e : Unit} (hy : y w = some (.error e, u)) : w.errors.length < u.errors.length := by
  obtain ⟨hu, hquiet⟩ := h _ _ hy
  refine Nat.lt_of_le_of_ne hu.errors.length_le fun hlen => ?_
  obtain ⟨a, ha, -⟩ := hquiet (hu.errors.eq_of_length hlen).symm
  cases ha

theorem continues_of_lt {kind : TokenKind} (h : p < .ofKind kind) :
    kind = .leftParen ∨ kind = .leftBracket ∨ ∃ op, InfixOp.ofKind? kind = some op := by
  by_cases hcall : kind = .leftParen
  · exact .inl hcall
  by_cases hindex : kind = .leftBracket
  · exact .inr (.inl hindex)
  cases hop : InfixOp.ofKind? kind with
  | some op => exact .inr (.inr ⟨op, rfl⟩)
  | none =>
    rw [ofKind_eq_lowest hcall hindex hop] at h
    exact absurd h (Nat.not_lt_zero _)

end Parser

open Treewalk.Parser

/-- Wherever the parser stands in a list of tokens, and however tightly the operators have to bind:
reading an expression or a statement only adds errors, and adds one if nothing is read. No token
that the expression goes on with lacks a reading of its own. An expression without a new error is
derived by the text up to and with the token on which it ends, and is followed by a semicolon or by
what does not bind more tightly. -/
theorem results_reported {ts : List Token} {w : Window} (hw : (Window.ofTokens ts).Leads w)
    (p : Precedence) :
    (∃ found u, w.expression p = (found, u) ∧ w.errors <+: u.errors ∧
      (found = none → w.errors.length < u.errors.length) ∧
      ∀ x, found = some x → u.errors = w.errors →
        ∃ before, w.tokens = before ++ u.current :: u.ahead ∧
          Derives (.expression p.level x) (before ++ [u.current]) ∧
          (u.next.kind = .semicolon ∨ ¬p < .ofKind u.next.kind)) ∧
    (∀ kind, p < .ofKind kind →
      kind = .leftParen ∨ kind = .leftBracket ∨ ∃ op, InfixOp.ofKind? kind = some op) ∧
    ∃ found u, statement w.depth w = some (found, u) ∧ w.errors <+: u.errors ∧
      (found = .error () → w.errors.length < u.errors.length) := by
  have he : w.eof.kind = .eof := by
    rw [hw.eof]
    rfl
  refine ⟨?_, fun kind hk => continues_of_lt hk, ?_⟩
  · obtain ⟨⟨r, u⟩, hr⟩ := expression_answers p he
    have hobeys := (sound w.depth).expression p w he
    obtain ⟨hu, hquiet⟩ := hobeys r u hr
    rw [Window.expression, hr]
    cases r with
    | error e =>
      refine ⟨none, u, rfl, hu.errors, fun _ => hobeys.reported hr, ?_⟩
      rintro x hx
      cases hx
    | ok x =>
      refine ⟨some x, u, rfl, hu.errors, ?_, ?_⟩
      · intro hnone
        cases hnone
      intro y hy hq
      cases hy
      obtain ⟨_, hx, _, hrank⟩ := hquiet hq
      cases hx
      obtain ⟨before, htokens, hd⟩ := spells_to_current he hr hq
      exact ⟨before, htokens, hd, .inr (Nat.not_lt.2 hrank)⟩
  · have hdepth : 2 * w.size + 3 ≤ w.depth := by
      unfold Window.size Window.depth
      omega
    obtain ⟨⟨r, u⟩, hr⟩ := (enough w.depth).statement w he hdepth
    have hobeys := (sound w.depth).statement w he
    refine ⟨r, u, hr, (hobeys r u hr).1.errors, ?_⟩
    rintro rfl
    exact hobeys.reported hr

/-- From behind the `!` of `!(a)[i] * b` on, above prefix operators: a grouped base with an index,
up to the closing bracket. -/
theorem results_reported_group :
    let token (kind : TokenKind) (text : String) : Token := ⟨kind, text, 1⟩
    let ts : List Token := [token .bang "!", token .leftParen "(", token .ident "a",
      token .rightParen ")", token .leftBracket "[", token .ident "i", token .rightBracket "]",
      token .star "*", token .ident "b"]
    let w := (Window.ofTokens ts).advance
    (Window.ofTokens ts).Leads w ∧ ∃ x u, w.expression .prefixed = (some x, u) ∧
      u.errors = w.errors ∧ u.current = token .rightBracket "]" ∧
      ∃ before, w.tokens = before ++ u.current :: u.ahead ∧
        Derives (.expression Precedence.prefixed.level x) (before ++ [u.current]) ∧
        (u.next.kind = .semicolon ∨ ¬Precedence.prefixed < .ofKind u.next.kind) := by
  intro token ts w
  have hw : (Window.ofTokens ts).Leads w := .advance _
  obtain ⟨x, u, hread, herrors, hlast⟩ : ∃ x u, w.expression .prefixed = (some x, u) ∧
      u.errors = w.errors ∧ u.current = token .rightBracket "]" :=
    ⟨_, ⟨ts.drop 6, .eof 1, []⟩, rfl, rfl, rfl⟩
  obtain ⟨⟨found, v, hfound, -, -, hquiet⟩, -⟩ := results_reported hw .prefixed
  rw [hread] at hfound
  obtain ⟨rfl, rfl⟩ := Prod.mk.inj hfound
  exact ⟨hw, x, u, hread, herrors, hlast, hquiet x rfl herrors⟩

end Treewalk
