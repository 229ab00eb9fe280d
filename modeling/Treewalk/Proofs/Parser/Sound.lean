import Treewalk.Parser.Grammar
import Treewalk.Proofs.Parser.Derivation
import Treewalk.Proofs.Parser.Steps

/-!
# What is read without an error is derived

Each step of the grammar obeys a law of its own: without a new error the tokens that it has gone
over spell its result. How far an expression may extend is settled by the rank of the next token.
-/

namespace Treewalk

def Window.nextRank (w : Window) : Nat := (Precedence.ofKind w.next.kind).rank

/-- What an expression read above `p` is at least like on the outside: as no prefix operator looks
at `p`, it may be a prefixed one. -/
def Precedence.level (p : Precedence) : Nat := min (p.rank + 1) prefixed.rank

namespace Parser

variable {α : Type} {n : Nat} {w : Window}

/-- From the current token on, the tokens up to and with the current one of `u` spell `e`. -/
def Spells (k : Nat) (w : Window) (e : Expr) (u : Window) : Prop :=
  ∃ text, w.tokens = text ++ u.ahead ∧ Derives (.expression k e) text

/-! ## Lists -/

/-- The tokens between the current one of `w` and the next one of `u` are a text of `a`. -/
def Passes (P : α → List Token → Prop) (w : Window) (a : α) (u : Window) : Prop :=
  ∃ text, w.ahead = text ++ u.ahead ∧ P a text

/-- Texts of the members, put together in the way of `joined`. -/
def Listed (joined : List (List Token) → List Token → Prop) (P : α → List Token → Prop)
    (as : List α) (us : List Token) : Prop :=
  ∃ xs : List (α × List Token), as = xs.map (·.1) ∧ (∀ x ∈ xs, P x.1 x.2) ∧
    joined (xs.map (·.2)) us

theorem moreItems_obeys {P : α → List Token → Prop} {item : Parser α} (he : w.eof.kind = .eof)
    (hitem : ∀ v, v.eof.kind = .eof → Obeys item v (Passes P v)) :
    Obeys (moreItems item n) w (Passes (Listed CommaLed P) w) := by
  induction n generalizing w with
  | zero => exact .exhausted
  | succ n ih =>
    rw [moreItems]
    refine .accept_bind (fun hc => ?_) fun _ => .pure ⟨[], rfl, [], rfl, by simp, .nil⟩
    refine .bind (hitem w.advance he) fun x u hu hx => ?_
    have hue : u.eof.kind = .eof := hu.eof ▸ he
    refine .bind (ih hue) fun as v _ has => .pure fun hv hu => ?_
    obtain ⟨text, htext, hP⟩ := hx hu
    obtain ⟨us, hus, xs, rfl, hxs, hjoined⟩ := has hv
    refine ⟨w.next :: (text ++ us), ?_, (x, text) :: xs, rfl, List.forall_mem_cons.2 ⟨hP, hxs⟩,
      .cons hc hjoined⟩
    rw [Window.ahead_eq he (by simp [hc]), htext, hus]
    simp

theorem items_obeys {P : α → List Token → Prop} {item : Parser α} {closing : TokenKind}
    (he : w.eof.kind = .eof) (hclosing : closing ≠ .eof)
    (hitem : ∀ v, v.eof.kind = .eof → Obeys item v (Passes P v)) :
    Obeys (items closing item n) w fun as u => ∃ us c, w.ahead = us ++ c :: u.ahead ∧
      Listed CommaSeparated P as us ∧ c.kind = closing := by
  rw [items]
  refine .accept_bind (fun hc => .pure ?_) fun _ => ?_
  · exact ⟨[], w.next, Window.ahead_eq he (by rwa [hc]), ⟨[], rfl, by simp, .nil⟩, hc⟩
  · refine .bind (hitem w he) fun x u hu hx => ?_
    have hue : u.eof.kind = .eof := hu.eof ▸ he
    refine .bind (moreItems_obeys hue hitem) fun as v hv has => .expect_bind fun hc => ?_
    have hve : v.eof.kind = .eof := hv.eof ▸ hue
    refine .pure fun hv hu => ?_
    obtain ⟨text, htext, hP⟩ := hx hu
    obtain ⟨us, hus, xs, rfl, hxs, hjoined⟩ := has hv
    refine ⟨text ++ us, v.next, ?_, ⟨(x, text) :: xs, rfl, List.forall_mem_cons.2 ⟨hP, hxs⟩,
      .cons hjoined⟩, hc⟩
    rw [htext, hus, Window.ahead_eq hve (by rwa [hc])]
    simp

/-- Pairs of expressions, each spelled with its colon. -/
def PairsListed (ps : List (Expr × Expr)) (us : List Token) : Prop :=
  ∃ xs : List SpelledPair, ps = xs.map (·.pair) ∧
    (∀ x ∈ xs, Derives (.expression 0 x.key) x.keyText) ∧ (∀ x ∈ xs, x.colon.kind = .colon) ∧
    (∀ x ∈ xs, Derives (.expression 0 x.value) x.valueText) ∧ CommaEnded (xs.map (·.text)) us

theorem PairsListed.nil : PairsListed [] [] := ⟨[], rfl, by simp, by simp, by simp, .nil⟩

theorem PairsListed.cons {key value : Expr} {ps : List (Expr × Expr)} {c : Token}
    {ts us vs comma : List Token} (hkey : Derives (.expression 0 key) ts) (hc : c.kind = .colon)
    (hvalue : Derives (.expression 0 value) us) (hps : PairsListed ps vs)
    (hcomma : (∃ d, d.kind = .comma ∧ comma = [d]) ∨ (comma = [] ∧ ps = [] ∧ vs = [])) :
    PairsListed ((key, value) :: ps) (ts ++ c :: us ++ comma ++ vs) := by
  obtain ⟨xs, rfl, hkeys, hcolons, hvalues, hjoined⟩ := hps
  refine ⟨⟨key, ts, c, value, us⟩ :: xs, rfl, List.forall_mem_cons.2 ⟨hkey, hkeys⟩,
    List.forall_mem_cons.2 ⟨hc, hcolons⟩, List.forall_mem_cons.2 ⟨hvalue, hvalues⟩, ?_⟩
  rcases hcomma with ⟨d, hd, rfl⟩ | ⟨rfl, hxs, rfl⟩
  · rw [List.append_assoc]
    exact .cons hd hjoined
  · obtain rfl : xs = [] := by simpa using hxs
    rw [List.append_nil, List.append_nil]
    exact .last

theorem pairs_obeys {item : Parser Expr} (he : w.eof.kind = .eof)
    (hitem : ∀ v, v.eof.kind = .eof → Obeys item v (Spells 0 v)) :
    Obeys (pairs item n) w fun ps u => ∃ us, w.ahead = us ++ u.ahead ∧ PairsListed ps us ∧
      u.next.kind = .rightBrace ∧ (w.next.kind = .rightBrace → ps = [] ∧ us = []) := by
  induction n generalizing w with
  | zero => exact .exhausted
  | succ n ih =>
    rw [pairs]
    refine .next_bind ?_
    by_cases hb : w.next.kind = .rightBrace
    · rw [if_pos hb]
      exact .pure ⟨[], rfl, .nil, hb, fun _ => ⟨rfl, rfl⟩⟩
    rw [if_neg hb]
    refine .advance_bind (.bind (hitem w.advance he) fun key u hu hkey => ?_)
    have hue : u.eof.kind = .eof := hu.eof ▸ he
    refine .expect_bind fun hc => .advance_bind ?_
    refine .bind (hitem _ hue) fun value v hv hvalue => .next_bind ?_
    have hve : v.eof.kind = .eof := hv.eof ▸ hue
    dsimp only
    -- behind a pair the closing brace or a comma comes, and a comma may be the last thing
    by_cases hv' : v.next.kind = .rightBrace
    · rw [if_neg fun h => h hv']
      refine .bind (ih hve) fun ps x _ hps => .pure fun hx hv hu => ?_
      obtain ⟨ts, hts, hkey⟩ := hkey hu
      obtain ⟨us, hus, hvalue⟩ := hvalue hv
      obtain ⟨vs, hvs, hlisted, hend, hnone⟩ := hps hx
      refine ⟨_, ?_, .cons hkey hc hvalue hlisted (.inr ⟨rfl, hnone hv'⟩), hend,
        fun h => absurd h hb⟩
      rw [← Window.tokens_advance, hts, Window.ahead_eq hue (by simp [hc]),
        ← Window.tokens_advance, hus, hvs]
      simp
    · rw [if_pos hv']
      refine .expect_bind fun hcomma => .bind (ih hve) fun ps x _ hps => .pure fun hx hv hu => ?_
      obtain ⟨ts, hts, hkey⟩ := hkey hu
      obtain ⟨us, hus, hvalue⟩ := hvalue hv
      obtain ⟨vs, hvs, hlisted, hend, -⟩ := hps hx
      refine ⟨_, ?_, .cons hkey hc hvalue hlisted (.inl ⟨v.next, hcomma, rfl⟩), hend,
        fun h => absurd h hb⟩
      rw [← Window.tokens_advance, hts, Window.ahead_eq hue (by simp [hc]),
        ← Window.tokens_advance, hus, Window.ahead_eq hve (by simp [hcomma]), hvs]
      simp

/-! ## Statements -/

def OpenAt : Statement → TokenKind → Prop
  | .returning _ none, kind => kind = .rightBrace ∨ kind = .eof
  | _, kind => (Precedence.ofKind kind).rank = 0

/-- Over a statement and its semicolon, or over a statement that may end where it does. -/
def Completes (w : Window) (s : Statement) (u : Window) : Prop :=
  ∃ text, Derives (.statement s) text ∧
    ((∃ c, c.kind = .semicolon ∧ w.tokens = text ++ c :: u.ahead) ∨
      (w.tokens = text ++ u.ahead ∧ OpenAt s u.next.kind))

theorem openTo_of_openAt {s : Statement} {ss : List Statement} {us vs : List Token}
    (h : OpenAt s w.next.kind) (hus : Derives (.statements ss) us) (hw : w.ahead = us ++ vs) :
    s.OpenTo us := by
  rcases hus.starts with rfl | ⟨t, us, rfl, ht⟩
  · cases s with
    | returning _ value => cases value <;> rfl
    | _ => rfl
  · have hnext : w.next = t := by
      obtain ⟨_ | ⟨_, ts⟩, _, _⟩ := w
      · cases hw
      · obtain rfl : ts = _ := hw
        rfl
    rw [hnext] at h
    cases s with
    | returning _ value =>
      cases value with
      | none => rcases h with h | h <;> simp [h, TokenKind.StartsStatement,
          TokenKind.StartsExpression] at ht
      | some => exact h
    | _ => exact h

def Closed (closing : TokenKind) (u : Window) : Prop :=
  u.current.kind = closing ∨ u.current.kind = .eof

theorem untilKind_obeys {closing : TokenKind} {item : Parser Statement} (he : w.eof.kind = .eof)
    (hitem : ∀ v, v.eof.kind = .eof → Obeys item v (Completes v)) :
    Obeys (untilKind closing item n) w fun ss u => ∃ text, w.tokens = text ++ u.tokens ∧
      Derives (.statements ss) text ∧ Closed closing u := by
  induction n generalizing w with
  | zero => exact .exhausted
  | succ n ih =>
    rw [untilKind]
    refine .current_bind ?_
    by_cases hc : w.current.kind = closing ∨ w.current.kind = .eof
    · rw [if_pos hc]
      exact .pure ⟨[], rfl, .nil, hc⟩
    rw [if_neg hc]
    refine .attempt_bind (hitem w he) fun r u hu hr => .advance_bind ?_
    refine .bind (ih (hu.eof ▸ he)) fun ss v hv hss => ?_
    cases r with
    | error e =>
      -- a statement that failed has left an error behind
      refine .pure fun hv hu => ?_
      obtain ⟨_, hs, -⟩ := hr hu
      cases hs
    | ok s =>
      refine .pure fun hv hu => ?_
      obtain ⟨_, hs, text, htext, hends⟩ := hr hu
      cases hs
      obtain ⟨us, hus, hss, hclosed⟩ := hss hv
      rcases hends with ⟨c, hc, hw⟩ | ⟨hw, hopen⟩
      · refine ⟨text ++ c :: us, ?_, .ended htext hc hss, hclosed⟩
        rw [hw, ← Window.tokens_advance, hus]
        simp
      · refine ⟨text ++ us, ?_, .unended htext (openTo_of_openAt hopen hss hus) hss, hclosed⟩
        rw [hw, ← Window.tokens_advance, hus]
        simp

theorem block_obeys {item : Parser Statement} (he : w.eof.kind = .eof)
    (hitem : ∀ v, v.eof.kind = .eof → Obeys item v (Completes v)) :
    Obeys (block item n) w (Passes (fun b => Derives (.block b)) w) := by
  rw [block]
  refine .expect_bind fun ho => .current_bind (.advance_bind ?_)
  refine .bind (untilKind_obeys he hitem) fun ss u hu hss => .current_bind ?_
  have hue : u.eof.kind = .eof := hu.eof ▸ he
  dsimp only
  by_cases hc : u.current.kind = .eof
  · rw [if_pos hc]
    exact .record_bind (.pure trivial)
  · rw [if_neg hc]
    refine .pure fun hu => ?_
    obtain ⟨text, htext, hd, hclosed⟩ := hss hu
    have hc' : u.current.kind = .rightBrace := hclosed.resolve_right hc
    refine ⟨w.next :: (text ++ [u.current]), ?_, .block ho hd hc'⟩
    rw [Window.ahead_eq he (by simp [ho]), ← Window.tokens_advance, htext,
      Window.tokens_eq hue hc]
    simp

theorem alternative_obeys {branch : Parser Block} (he : w.eof.kind = .eof)
    (hbranch : ∀ v, v.eof.kind = .eof → Obeys branch v (Passes (fun b => Derives (.block b)) v)) :
    Obeys (alternative branch) w fun a u =>
      (a = none ∧ w.ahead = u.ahead) ∨
        ∃ b c text, a = some b ∧ c.kind = .elseWord ∧ Derives (.block b) text ∧
          w.ahead = c :: (text ++ u.ahead) := by
  rw [alternative]
  refine .accept_bind (fun hc => ?_) fun _ => .pure (.inl ⟨rfl, rfl⟩)
  refine .bind (hbranch w.advance he) fun b u hu hb => .pure fun hu => ?_
  obtain ⟨text, htext, hd⟩ := hb hu
  refine .inr ⟨b, w.next, text, rfl, hc, hd, ?_⟩
  rw [Window.ahead_eq he (by simp [hc]), htext]

def Skips (u v : Window) : Prop :=
  (∃ c, c.kind = .semicolon ∧ u.ahead = c :: v.ahead) ∨ v = u

theorem skip_obeys {a : α} (he : w.eof.kind = .eof) :
    Obeys (skip .semicolon >>= fun _ => pure a) w fun b u => b = a ∧ Skips w u := by
  refine .skip_bind (fun hc => .pure ⟨rfl, .inl ⟨w.next, hc, ?_⟩⟩) fun _ => .pure ⟨rfl, .inr rfl⟩
  exact Window.ahead_eq he (by simp [hc])

theorem Skips.completes {s : Statement} {text : List Token} {u v : Window} (h : Skips u v)
    (hs : Derives (.statement s) text) (hw : w.tokens = text ++ u.ahead)
    (hopen : OpenAt s u.next.kind) : Completes w s v := by
  rcases h with ⟨c, hc, hv⟩ | rfl
  · exact ⟨text, hs, .inl ⟨c, hc, by rw [hw, hv]⟩⟩
  · exact ⟨text, hs, .inr ⟨hw, hopen⟩⟩

theorem returnValue_obeys {value : Parser Expr} {t : Token} (he : w.eof.kind = .eof)
    (ht : t.kind = .returnWord) (hw : w.tokens = t :: w.ahead)
    (hvalue : ∀ v, v.eof.kind = .eof → Obeys value v fun e u => Spells 0 v e u ∧ u.nextRank = 0) :
    Obeys (returnValue value) w fun r u => Completes w (.returning t r) u := by
  rw [returnValue]
  refine .accept_bind (fun hc => .pure ?_) fun _ => .next_bind ?_
  · refine ⟨[t], .bareReturn ht, .inl ⟨w.next, hc, ?_⟩⟩
    rw [hw, Window.ahead_eq he (by simp [hc])]
    rfl
  by_cases hend : w.next.kind = .rightBrace ∨ w.next.kind = .eof
  · rw [if_pos hend]
    exact .pure ⟨[t], .bareReturn ht, .inr ⟨hw, hend⟩⟩
  · rw [if_neg hend]
    refine .bind (.advanced (hvalue w.advance he)) fun e u hu hread => ?_
    refine (skip_obeys (hu.eof ▸ he)).mono fun r v _ ⟨hr, hskip⟩ hu => ?_
    obtain ⟨⟨text, htext, hd⟩, hrank⟩ := hread hu
    subst hr
    refine hskip.completes (.returning ht hd) ?_ hrank
    rw [hw, ← Window.tokens_advance, htext]
    rfl

/-! ## Expressions -/

/-- Over an expression that has nothing to its left. The next token does not go into it. -/
def SpellsOperand (w : Window) (e : Expr) (u : Window) : Prop :=
  ∃ k, Spells k w e u ∧ Precedence.prefixed.rank ≤ k ∧ u.nextRank ≤ k

/-- The laws at one depth. An expression that is extended so far has a level that the next token
does not exceed, and what extends it reads at least at the level of its own first token. -/
structure Sound (n : Nat) : Prop where
  expression : ∀ p w, w.eof.kind = .eof →
    Obeys (expression n p) w fun e u => Spells p.level w e u ∧ u.nextRank ≤ p.rank
  extend : ∀ p left w, w.eof.kind = .eof → Obeys (extend n p left) w fun e u =>
    ∀ k ts, Derives (.expression k left) ts → p.level ≤ k → w.nextRank ≤ k →
      Passes (fun e us => Derives (.expression p.level e) (ts ++ us)) w e u ∧ u.nextRank ≤ p.rank
  suffix : ∀ left w, w.eof.kind = .eof → Precedence.ofKind w.current.kind ≠ .lowest →
    Obeys (suffix n left) w fun e u =>
      ∀ ts, Derives (.expression (Precedence.ofKind w.current.kind).rank left) ts →
        ∃ k us, w.tokens = us ++ u.ahead ∧ Derives (.expression k e) (ts ++ us) ∧
          (Precedence.ofKind w.current.kind).rank ≤ k ∧ u.nextRank ≤ k
  operand : ∀ w, w.eof.kind = .eof → Obeys (operand n) w (SpellsOperand w)
  statement : ∀ w, w.eof.kind = .eof → Obeys (statement n) w (Completes w)

theorem sound_expression (h : Sound n) (p : Precedence) (he : w.eof.kind = .eof) :
    Obeys (expression (n + 1) p) w fun e u => Spells p.level w e u ∧ u.nextRank ≤ p.rank := by
  rw [expression]
  refine .bind (h.operand w he) fun left u hu hleft => ?_
  refine (h.extend p left u (hu.eof ▸ he)).mono fun e v _ hext hu => ?_
  obtain ⟨k, ⟨ts, hts, hd⟩, hk, hrank⟩ := hleft hu
  obtain ⟨⟨us, hus, hd'⟩, hv⟩ := hext k ts hd (by unfold Precedence.level; omega) hrank
  exact ⟨⟨ts ++ us, by rw [hts, hus, List.append_assoc], hd'⟩, hv⟩

theorem sound_extend (h : Sound n) (p : Precedence) (left : Expr) (he : w.eof.kind = .eof) :
    Obeys (extend (n + 1) p left) w fun e u =>
      ∀ k ts, Derives (.expression k left) ts → p.level ≤ k → w.nextRank ≤ k →
        Passes (fun e us => Derives (.expression p.level e) (ts ++ us)) w e u ∧
          u.nextRank ≤ p.rank := by
  rw [extend]
  refine .next_bind ?_
  by_cases hp : w.next.kind ≠ .semicolon ∧ p < .ofKind w.next.kind
  · rw [if_pos hp]
    have hlt : p.rank < w.nextRank := hp.2
    refine .advance_bind ?_
    refine .bind (h.suffix left w.advance he ?_) fun e u hu he' => ?_
    · intro hlow
      rw [Window.current_advance] at hlow
      rw [Window.nextRank, hlow] at hlt
      exact Nat.not_lt_zero _ hlt
    refine (h.extend p e u (hu.eof ▸ he)).mono fun e' v _ hext hu k ts hd hpk hk => ?_
    obtain ⟨j, us, hus, hd', hj, hrank⟩ := he' hu ts (hd.weaken hk)
    -- the operator binds above `p`, so what it makes can be extended above `p` again
    have hpj : p.level ≤ j := by
      have hj' : w.nextRank ≤ j := hj
      unfold Precedence.level
      omega
    obtain ⟨⟨vs, hvs, hd''⟩, hv⟩ := hext j (ts ++ us) hd' hpj hrank
    refine ⟨⟨us ++ vs, ?_, by simpa only [List.append_assoc] using hd''⟩, hv⟩
    rw [← Window.tokens_advance, hus, hvs, List.append_assoc]
  · rw [if_neg hp]
    refine .pure fun k ts hd hpk _ => ⟨⟨[], rfl, by simpa using hd.weaken hpk⟩, ?_⟩
    by_cases hs : w.next.kind = .semicolon
    · simp [Window.nextRank, hs, Precedence.ofKind, Precedence.rank]
    · exact Nat.le_of_not_lt fun hlt => hp ⟨hs, hlt⟩

theorem pairItem_obeys (h : Sound n) (v : Window) (he : v.eof.kind = .eof) :
    Obeys (expression n .lowest) v (Spells 0 v) :=
  (h.expression .lowest v he).mono fun _ _ _ ⟨⟨ts, hts, hd⟩, _⟩ =>
    ⟨ts, hts, hd.weaken (Nat.zero_le _)⟩

theorem item_obeys (h : Sound n) (v : Window) (he : v.eof.kind = .eof) :
    Obeys (advanced (expression n .lowest)) v (Passes (fun e => Derives (.expression 0 e)) v) :=
  .advanced (pairItem_obeys h v.advance he)

theorem level_of_infixOp {kind : TokenKind} {op : InfixOp} (h : InfixOp.ofKind? kind = some op) :
    (Precedence.ofKind kind).level = (Precedence.ofKind kind).rank + 1 := by
  cases kind <;> simp_all [InfixOp.ofKind?, Precedence.ofKind, Precedence.level, Precedence.rank]

theorem ofKind_eq_lowest {kind : TokenKind} (hcall : kind ≠ .leftParen)
    (hindex : kind ≠ .leftBracket) (hop : InfixOp.ofKind? kind = none) :
    Precedence.ofKind kind = .lowest := by
  cases kind <;> simp_all [InfixOp.ofKind?, Precedence.ofKind]

theorem rank_le_call (p : Precedence) : p.rank ≤ Precedence.call.rank := by
  cases p <;> simp [Precedence.rank]

theorem sound_suffix (h : Sound n) (left : Expr) (he : w.eof.kind = .eof)
    (hlow : Precedence.ofKind w.current.kind ≠ .lowest) :
    Obeys (suffix (n + 1) left) w fun e u =>
      ∀ ts, Derives (.expression (Precedence.ofKind w.current.kind).rank left) ts →
        ∃ k us, w.tokens = us ++ u.ahead ∧ Derives (.expression k e) (ts ++ us) ∧
          (Precedence.ofKind w.current.kind).rank ≤ k ∧ u.nextRank ≤ k := by
  rw [suffix]
  refine .current_bind ?_
  have hw : w.tokens = w.current :: w.ahead := Window.tokens_eq he fun h => hlow (by rw [h]; rfl)
  split
  · rename_i ho
    refine .bind (items_obeys he (by simp) (item_obeys h)) fun as u _ has => .pure ?_
    intro hu ts hd
    obtain ⟨us, c, hus, ⟨xs, rfl, hxs, hjoined⟩, hc⟩ := has hu
    refine ⟨Precedence.call.rank, w.current :: (us ++ [c]), ?_, ?_, rank_le_call _, rank_le_call _⟩
    · rw [hw, hus]
      simp
    · rw [ho] at hd
      exact .call (Nat.le_refl _) ho hd hxs hjoined hc
  · rename_i ho
    refine .bind (item_obeys h w he) fun e u hu hread => .expect_bind fun hc => .pure ?_
    intro hu' ts hd
    have hue : u.eof.kind = .eof := hu.eof ▸ he
    obtain ⟨us, hus, hd'⟩ := hread hu'
    refine ⟨Precedence.call.rank, w.current :: (us ++ [u.next]), ?_, ?_, rank_le_call _,
      rank_le_call _⟩
    · rw [hw, hus, Window.ahead_eq hue (by simp [hc])]
      simp
    · rw [ho] at hd
      exact .index (Nat.le_refl _) ho hd hd' hc
  · rename_i hcall hindex
    split
    · rename_i op hop
      refine .bind (.advanced (h.expression _ w.advance he)) fun right u _ hright => .pure ?_
      intro hu ts hd
      obtain ⟨⟨us, hus, hd'⟩, hrank⟩ := hright hu
      rw [level_of_infixOp hop] at hd'
      refine ⟨_, w.current :: us, ?_, .binary (Nat.le_refl _) hop hd hd', Nat.le_refl _, hrank⟩
      rw [hw, ← Window.tokens_advance, hus]
      rfl
    · rename_i hop
      exact absurd (ofKind_eq_lowest hcall hindex hop) hlow

theorem parameter_obeys (he : w.eof.kind = .eof) :
    Obeys parameter w (Passes (fun t ts => t.kind = .ident ∧ ts = [t]) w) := by
  rw [parameter]
  refine .expect_bind fun hk => ?_
  exact .current_bind (.pure ⟨[w.next], Window.ahead_eq he (by simp [hk]), hk, rfl⟩)

theorem Listed.tokens {joined : List (List Token) → List Token → Prop} {as us : List Token}
    {P : Token → Prop} (h : Listed joined (fun t ts => P t ∧ ts = [t]) as us) :
    (∀ t ∈ as, P t) ∧ joined (as.map ([·])) us := by
  obtain ⟨xs, rfl, hxs, hjoined⟩ := h
  have hmap : xs.map (·.2) = (xs.map (·.1)).map ([·]) := by
    rw [List.map_map]
    exact List.map_congr_left fun x hx => (hxs x hx).2
  refine ⟨?_, hmap ▸ hjoined⟩
  intro t ht
  obtain ⟨x, hx, rfl⟩ := List.mem_map.1 ht
  exact (hxs x hx).1

theorem spellsOperand_of_call {e : Expr} {u : Window} (h : Spells Precedence.call.rank w e u) :
    SpellsOperand w e u :=
  ⟨Precedence.call.rank, h, by decide, rank_le_call _⟩

theorem integer_obeys (he : w.eof.kind = .eof) (hk : w.current.kind = .int) :
    Obeys integer w (SpellsOperand w) := by
  rw [integer]
  refine .current_bind ?_
  split
  · rename_i v hv
    exact .pure <| spellsOperand_of_call
      ⟨[w.current], Window.tokens_eq he (by simp [hk]), .integer hk hv⟩
  · exact .record_fail _

theorem prefixed_obeys (h : Sound n) {op : PrefixOp} (he : w.eof.kind = .eof)
    (hop : PrefixOp.ofKind? w.current.kind = some op) :
    Obeys (advanced (expression n .prefixed) >>= fun e => pure (.prefixed w.current op e)) w
      (SpellsOperand w) := by
  have hw : w.tokens = w.current :: w.ahead :=
    Window.tokens_eq he fun hk => by simp [hk, PrefixOp.ofKind?] at hop
  refine .bind (.advanced (h.expression .prefixed w.advance he)) fun e u _ hread => .pure ?_
  intro hu
  obtain ⟨⟨ts, hts, hd⟩, hrank⟩ := hread hu
  refine ⟨_, ⟨w.current :: ts, ?_, .prefixed (Nat.le_refl _) hop hd⟩, Nat.le_refl _, hrank⟩
  rw [hw, ← Window.tokens_advance, hts]
  rfl

theorem parenthesised_obeys (h : Sound n) {f : Expr → Parser α} {Q : α → Window → Prop}
    (he : w.eof.kind = .eof) (ho : w.current.kind = .leftParen)
    (hf : ∀ e u, u.eof.kind = .eof → Obeys (f e) u fun a v => ∀ ts c,
      w.tokens = w.current :: (ts ++ c :: u.ahead) → Derives (.expression 0 e) ts →
      c.kind = .rightParen → Q a v) :
    Obeys (advanced (expression n .lowest) >>= fun e => expect .rightParen >>= fun _ => f e) w
      Q := by
  refine .bind (item_obeys h w he) fun e u hu hread => .expect_bind fun hc => ?_
  have hue : u.eof.kind = .eof := hu.eof ▸ he
  refine (hf e u.advance hue).mono fun a v _ hQ hu => ?_
  obtain ⟨ts, hts, hd⟩ := hread hu
  refine hQ ts u.next ?_ hd hc
  rw [Window.tokens_eq he (by simp [ho]), hts, Window.ahead_eq hue (by simp [hc])]

theorem group_obeys (h : Sound n) (he : w.eof.kind = .eof) (hk : w.current.kind = .leftParen) :
    Obeys (operand (n + 1)) w (SpellsOperand w) := by
  rw [operand]
  refine .current_bind ?_
  simp only [hk]
  refine parenthesised_obeys h he hk fun e u _ => .pure fun ts c hw hd hc => ?_
  refine spellsOperand_of_call ⟨w.current :: (ts ++ [c]), ?_, .group hk hd hc⟩
  rw [hw]
  simp

theorem conditional_obeys (h : Sound n) (he : w.eof.kind = .eof)
    (hk : w.current.kind = .ifWord) : Obeys (operand (n + 1)) w (SpellsOperand w) := by
  rw [operand]
  refine .current_bind ?_
  simp only [hk]
  have hblock : ∀ v, v.eof.kind = .eof →
      Obeys (block (statement n) n) v (Passes (fun b => Derives (.block b)) v) :=
    fun v hv => block_obeys hv h.statement
  refine .expect_bind fun ho => ?_
  refine parenthesised_obeys h (w := w.advance) he ho fun e u hue => ?_
  refine .bind (hblock u hue) fun b v hv hb => ?_
  refine .bind (alternative_obeys (hv.eof ▸ hue) hblock) fun a x hx ha => .pure ?_
  intro hx hv ts c hts hd hc
  obtain ⟨us, hus, hb⟩ := hb hv
  have htokens : w.tokens = w.current :: w.next :: (ts ++ c :: (us ++ v.ahead)) := by
    rw [Window.tokens_eq he (by simp [hk]), ← Window.tokens_advance, hts, hus]
    rfl
  rcases ha hx with ⟨rfl, hrest⟩ | ⟨d, l, vs, rfl, hl, hd', hrest⟩
  · refine spellsOperand_of_call ⟨_, ?_, .conditional hk ho hd hc hb⟩
    rw [htokens, hrest]
    simp
  · refine spellsOperand_of_call ⟨_, ?_, .alternative hk ho hd hc hb hl hd'⟩
    rw [htokens, hrest]
    simp

theorem function_obeys (h : Sound n) (he : w.eof.kind = .eof) (hk : w.current.kind = .function) :
    Obeys (operand (n + 1)) w (SpellsOperand w) := by
  rw [operand]
  refine .current_bind ?_
  simp only [hk]
  refine .expect_bind fun ho => ?_
  have hparameters : Obeys (items .rightParen parameter n) w.advance _ :=
    items_obeys he (by simp) fun v hv => parameter_obeys hv
  refine .bind hparameters fun ps u hu hps => ?_
  refine .bind (block_obeys (hu.eof ▸ he) h.statement) fun b v _ hb => .pure fun hv hu => ?_
  obtain ⟨us, c, hus, hlisted, hc⟩ := hps hu
  obtain ⟨hidents, hjoined⟩ := hlisted.tokens
  obtain ⟨vs, hvs, hb⟩ := hb hv
  refine spellsOperand_of_call ⟨_, ?_, .function hk ho hidents hjoined hc hb⟩
  rw [Window.tokens_eq he (by simp [hk]), Window.ahead_eq he (by simp [ho]), hus, hvs]
  simp

theorem array_obeys (h : Sound n) (he : w.eof.kind = .eof) (hk : w.current.kind = .leftBracket) :
    Obeys (operand (n + 1)) w (SpellsOperand w) := by
  rw [operand]
  refine .current_bind ?_
  simp only [hk]
  refine .bind (items_obeys he (by simp) (item_obeys h)) fun es u hu hes => .pure fun hu => ?_
  obtain ⟨us, c, hus, ⟨xs, rfl, hxs, hjoined⟩, hc⟩ := hes hu
  refine spellsOperand_of_call ⟨w.current :: (us ++ [c]), ?_, .array hk hxs hjoined hc⟩
  rw [Window.tokens_eq he (by simp [hk]), hus]
  simp

theorem hash_obeys (h : Sound n) (he : w.eof.kind = .eof) (hk : w.current.kind = .leftBrace) :
    Obeys (operand (n + 1)) w (SpellsOperand w) := by
  rw [operand]
  refine .current_bind ?_
  simp only [hk]
  refine .bind (pairs_obeys he (pairItem_obeys h)) fun ps u hu hps => ?_
  refine .expect_bind fun hc => .pure fun hu' => ?_
  have hue : u.eof.kind = .eof := hu.eof ▸ he
  obtain ⟨us, hus, ⟨xs, rfl, hkeys, hcolons, hvalues, hjoined⟩, -, -⟩ := hps hu'
  refine spellsOperand_of_call ⟨w.current :: (us ++ [u.next]), ?_,
    .hash hk hkeys hcolons hvalues hjoined hc⟩
  rw [Window.tokens_eq he (by simp [hk]), hus, Window.ahead_eq hue (by simp [hc])]
  simp

theorem sound_operand (h : Sound n) (he : w.eof.kind = .eof) :
    Obeys (operand (n + 1)) w (SpellsOperand w) := by
  have word : ∀ e, w.current.kind ≠ .eof →
      Derives (.expression Precedence.call.rank e) [w.current] → SpellsOperand w e w :=
    fun e hk hd => spellsOperand_of_call ⟨[w.current], Window.tokens_eq he hk, hd⟩
  cases hk : w.current.kind with
  | leftParen => exact group_obeys h he hk
  | ifWord => exact conditional_obeys h he hk
  | function => exact function_obeys h he hk
  | leftBracket => exact array_obeys h he hk
  | leftBrace => exact hash_obeys h he hk
  | _ =>
    rw [operand]
    refine .current_bind ?_
    simp only [hk]
    first
      | exact .record_fail _
      | exact integer_obeys he hk
      | exact prefixed_obeys h he (by rw [hk]; rfl)
      | exact .pure (word _ (by simp [hk]) (.identifier hk))
      | exact .pure (word _ (by simp [hk]) (.string hk))
      | exact .pure (word _ (by simp [hk]) (.trueWord hk))
      | exact .pure (word _ (by simp [hk]) (.falseWord hk))

theorem sound_statement (h : Sound n) (he : w.eof.kind = .eof) :
    Obeys (statement (n + 1)) w (Completes w) := by
  rw [statement]
  refine .current_bind ?_
  have hw : w.current.kind ≠ .eof → w.tokens = w.current :: w.ahead := Window.tokens_eq he
  have hread : ∀ v, v.eof.kind = .eof →
      Obeys (expression n .lowest) v fun e u => Spells 0 v e u ∧ u.nextRank = 0 := fun v hv =>
    (h.expression .lowest v hv).mono fun _ _ _ ⟨⟨ts, hts, hd⟩, hrank⟩ =>
      ⟨⟨ts, hts, hd.weaken (Nat.zero_le _)⟩, Nat.le_zero.1 hrank⟩
  split
  · rename_i hk
    refine .require_bind fun hn => .current_bind (.require_bind fun ha => ?_)
    refine .bind (.advanced (hread _ he)) fun e u hu hvalue => ?_
    refine (skip_obeys (hu.eof ▸ he)).mono fun s v _ ⟨hs, hskip⟩ hu => ?_
    obtain ⟨⟨ts, hts, hd⟩, hrank⟩ := hvalue hu
    subst hs
    refine hskip.completes (.binding hk hn ha hd) ?_ hrank
    rw [hw (by simp [hk]), Window.ahead_eq he (by simp [hn]),
      Window.ahead_eq (w := w.advance) he (by simp [ha]), ← Window.tokens_advance, hts]
    rfl
  · rename_i hk
    refine .bind (returnValue_obeys he hk (hw (by simp [hk])) hread) fun r u _ hr => .pure ?_
    exact hr
  · refine .bind (hread w he) fun e u hu hvalue => ?_
    refine (skip_obeys (hu.eof ▸ he)).mono fun s v _ ⟨hs, hskip⟩ hu => ?_
    obtain ⟨⟨ts, hts, hd⟩, hrank⟩ := hvalue hu
    subst hs
    obtain ⟨t, us, rfl, -⟩ := hd.starts
    have ht : w.current = t := by
      rw [Window.current, hts]
      rfl
    rw [ht]
    exact hskip.completes (.expression hd) hts hrank

theorem sound (n : Nat) : Sound n := by
  induction n with
  | zero =>
    exact ⟨fun _ _ _ => .exhausted, fun _ _ _ _ => .exhausted, fun _ _ _ _ => .exhausted,
      fun _ _ => .exhausted, fun _ _ => .exhausted⟩
  | succ n ih =>
    exact {
      expression := fun p w he => sound_expression ih p he
      extend := fun p left w he => sound_extend ih p left he
      suffix := fun left w he hlow => sound_suffix ih left he hlow
      operand := fun w he => sound_operand ih he
      statement := fun w he => sound_statement ih he }

end Parser

end Treewalk
