import Treewalk.Proofs.Parser.Depth

/-!
# Reading without an error

Rules for what the parser reads from a window once its depth is large enough, and for the lists
that it reads.
-/

namespace Treewalk

namespace Parser

variable {α β : Type}

/-! ## Reading at any depth that is large enough -/

/-- From some depth on, the step reads `a` and comes to `u`. -/
def Reads (x : Nat → Parser α) (w : Window) (a : α) (u : Window) : Prop :=
  ∃ m, ∀ n, m ≤ n → x n w = some (.ok a, u)

namespace Reads

variable {x : Nat → Parser α} {f : Nat → α → Parser β} {w u v : Window} {a : α} {b : β}

theorem pure : Reads (fun _ => Pure.pure a) w a w := ⟨0, fun _ _ => rfl⟩

theorem succ (h : Reads (fun n => x (n + 1)) w a u) : Reads x w a u := by
  obtain ⟨m, hm⟩ := h
  refine ⟨m + 1, fun n hn => ?_⟩
  obtain ⟨n, rfl⟩ : ∃ k, n = k + 1 := ⟨n - 1, by omega⟩
  exact hm n (by omega)

theorem comp {g : Nat → Nat} (h : Reads x w a u) (hg : ∀ n, n ≤ g n) :
    Reads (fun n => x (g n)) w a u := by
  obtain ⟨m, hm⟩ := h
  exact ⟨m, fun n hn => hm (g n) (Nat.le_trans hn (hg n))⟩

theorem shift (h : Reads x w a u) : Reads (fun n => x (n + 1)) w a u :=
  h.comp fun n => Nat.le_succ n

theorem bind (hx : Reads x w a u) (hf : Reads (fun n => f n a) u b v) :
    Reads (fun n => x n >>= f n) w b v := by
  obtain ⟨m, hm⟩ := hx
  obtain ⟨k, hk⟩ := hf
  refine ⟨max m k, fun n hn => ?_⟩
  exact (Run.bind_ok (hm n (by omega))).trans (hk n (by omega))

theorem eq_of_refines (h : Reads x w a u) (hx : ∀ n, Run.Refines (x n) (x (n + 1))) {n : Nat}
    {r : Except Unit α × Window} (hr : x n w = some r) : r = (.ok a, u) := by
  obtain ⟨m, hm⟩ := h
  have h1 := Run.Refines.of_le hx (Nat.le_max_left n m) w r hr
  have h2 := hm (max n m) (Nat.le_max_right n m)
  rw [h2] at h1
  exact (Option.some.inj h1).symm

theorem after {y : Nat → Parser α} (h : Reads y u a v) (hx : ∀ n, x n w = y n u) :
    Reads x w a v := by
  obtain ⟨m, hm⟩ := h
  exact ⟨m, fun n hn => (hx n).trans (hm n hn)⟩

theorem current_bind {f : Nat → Token → Parser β} (h : Reads (fun n => f n w.current) w b v) :
    Reads (fun n => current >>= f n) w b v := h

theorem next_bind {f : Nat → Token → Parser β} (h : Reads (fun n => f n w.next) w b v) :
    Reads (fun n => next >>= f n) w b v := h

theorem advance_bind {f : Nat → Unit → Parser β} (h : Reads (fun n => f n ()) w.advance b v) :
    Reads (fun n => advance >>= f n) w b v := h

theorem advanced (h : Reads x w.advance a v) : Reads (fun n => Parser.advanced (x n)) w a v := h

theorem advanced_bind (h : Reads (fun n => x n >>= f n) w.advance b v) :
    Reads (fun n => Parser.advanced (x n) >>= f n) w b v := h

theorem expect_bind {k : TokenKind} {f : Nat → Unit → Parser β} (hk : w.next.kind = k)
    (h : Reads (fun n => f n ()) w.advance b v) : Reads (fun n => expect k >>= f n) w b v :=
  after h fun _ => Run.bind_ok (expect_eq hk)

theorem require_bind {k : TokenKind} {f : Nat → Unit → Parser β} (hk : w.next.kind = k)
    (h : Reads (fun n => f n ()) w.advance b v) : Reads (fun n => require k >>= f n) w b v :=
  after h fun _ => Run.bind_ok (require_eq hk)

theorem accept_yes {k : TokenKind} {f : Nat → Bool → Parser β} (hk : w.next.kind = k)
    (h : Reads (fun n => f n true) w.advance b v) : Reads (fun n => accept k >>= f n) w b v :=
  after h fun _ => Run.bind_ok (accept_eq hk)

theorem accept_no {k : TokenKind} {f : Nat → Bool → Parser β} (hk : w.next.kind ≠ k)
    (h : Reads (fun n => f n false) w b v) : Reads (fun n => accept k >>= f n) w b v :=
  after h fun _ => Run.bind_ok (accept_ne hk)

theorem skip_yes {k : TokenKind} {f : Nat → Unit → Parser β} (hk : w.next.kind = k)
    (h : Reads (fun n => f n ()) w.advance b v) : Reads (fun n => skip k >>= f n) w b v :=
  after h fun _ => Run.bind_ok (skip_eq hk)

theorem skip_no {k : TokenKind} {f : Nat → Unit → Parser β} (hk : w.next.kind ≠ k)
    (h : Reads (fun n => f n ()) w b v) : Reads (fun n => skip k >>= f n) w b v :=
  after h fun _ => Run.bind_ok (skip_ne hk)

theorem attempt (h : Reads x w a u) : Reads (fun n => (x n).attempt) w (.ok a) u := by
  obtain ⟨m, hm⟩ := h
  refine ⟨m, fun n hn => ?_⟩
  show (x n).attempt w = _
  rw [Run.attempt_apply, hm n hn]
  rfl

end Reads

/-! ## Extending -/

section

variable {p : Precedence} {w u v : Window} {x y z : Expr}

theorem reads_expression (h : Reads operand w x u) (h' : Reads (extend · p x) u y v) :
    Reads (expression · p) w y v :=
  .succ (.bind h h')

theorem reads_extend_stop (h : w.nextRank ≤ p.rank) : Reads (extend · p x) w x w := by
  refine .succ ?_
  simp only [extend]
  refine .next_bind ?_
  have hp : ¬(w.next.kind ≠ .semicolon ∧ p < .ofKind w.next.kind) :=
    fun hlt => absurd hlt.2 (Nat.not_lt.2 h)
  simp only [if_neg hp]
  exact .pure

theorem reads_extend_step (h : p.rank < w.nextRank) (hx : Reads (suffix · x) w.advance y u)
    (hy : Reads (extend · p y) u z v) : Reads (extend · p x) w z v := by
  refine .succ ?_
  simp only [extend]
  refine .next_bind ?_
  have hp : w.next.kind ≠ .semicolon ∧ p < .ofKind w.next.kind := by
    refine ⟨fun hs => ?_, h⟩
    rw [Window.nextRank, hs] at h
    exact Nat.not_lt_zero _ h
  simp only [if_pos hp]
  exact .advance_bind (.bind hx hy)

end

section

variable {e : Token} {es : List SyntaxError}

/-! ## Lists -/

/-- The item is read from the token before its text, in front of a comma or the end of the list. -/
def ReadsItem (e : Token) (es : List SyntaxError) (closing : TokenKind) (item : Nat → Parser α)
    (x : α × List Token) : Prop :=
  StartsWith (· ≠ closing) x.2 ∧ ∃ last, ∀ t c rest, c.kind = .comma ∨ c.kind = closing →
    Reads item ⟨t :: (x.2 ++ c :: rest), e, es⟩ x.1 ⟨last :: c :: rest, e, es⟩

variable {closing : TokenKind} {item : Nat → Parser α}

theorem CommaLed.head {tss : List (List Token)} {us : List Token} (h : CommaLed tss us) (c : Token)
    (rest : List Token) : ∃ d vs, us ++ c :: rest = d :: vs ∧ (d.kind = .comma ∨ d = c) := by
  cases h with
  | nil => exact ⟨c, rest, rfl, .inr rfl⟩
  | cons hd _ => exact ⟨_, _, rfl, .inl hd⟩

theorem ReadsItem.shift {x : α × List Token} (h : ReadsItem e es closing item x) :
    ReadsItem e es closing (fun n => item (n + 1)) x := by
  obtain ⟨hstart, last, hread⟩ := h
  exact ⟨hstart, last, fun t c rest hc => (hread t c rest hc).shift⟩

theorem reads_moreItems (hclosing : closing ≠ .comma) {xs : List (α × List Token)}
    {us : List Token} (hus : CommaLed (xs.map (·.2)) us)
    (hitem : ∀ x ∈ xs, ReadsItem e es closing item x) (t : Token) {c : Token} (rest : List Token)
    (hc : c.kind = closing) : ∃ l, Reads (fun n => moreItems (item n) n)
      ⟨t :: (us ++ c :: rest), e, es⟩ (xs.map (·.1)) ⟨l :: c :: rest, e, es⟩ := by
  induction xs generalizing us t item with
  | nil =>
    cases hus
    refine ⟨t, .succ ?_⟩
    simp only [moreItems]
    exact .accept_no (by rw [List.nil_append, Window.next_cons, hc]; exact hclosing) .pure
  | cons x xs ih =>
    rw [List.map_cons] at hus
    cases hus with
    | @cons d _ us _ hd hus =>
      obtain ⟨-, last, hread⟩ := (hitem x (by simp)).shift
      obtain ⟨f, vs, hvs, hf⟩ := CommaLed.head hus c rest
      -- the items of the rest are read one level of depth further down
      obtain ⟨l, hmore⟩ := ih hus (fun y hy => (hitem y (by simp [hy])).shift) last
      refine ⟨l, .succ ?_⟩
      simp only [moreItems]
      rw [List.cons_append, List.append_assoc, hvs] at *
      refine .accept_yes hd (.bind (hread d f vs ?_) (.bind hmore .pure))
      rcases hf with hf | rfl
      · exact .inl hf
      · exact .inr hc

theorem reads_items (hclosing : closing ≠ .comma) {xs : List (α × List Token)}
    {us : List Token} (hus : CommaSeparated (xs.map (·.2)) us)
    (hitem : ∀ x ∈ xs, ReadsItem e es closing item x) (t : Token) {c : Token} (rest : List Token)
    (hc : c.kind = closing) : Reads (fun n => items closing (item n) n)
      ⟨t :: (us ++ c :: rest), e, es⟩ (xs.map (·.1)) ⟨c :: rest, e, es⟩ := by
  simp only [items]
  cases xs with
  | nil =>
    cases hus
    exact .accept_yes hc .pure
  | cons x xs =>
    rw [List.map_cons] at hus
    cases hus with
    | @cons _ us _ hus =>
      obtain ⟨⟨f, vs, hx, hf⟩, last, hread⟩ := hitem x (by simp)
      obtain ⟨d, ws, hws, hd⟩ := CommaLed.head hus c rest
      obtain ⟨l, hmore⟩ := reads_moreItems hclosing hus (fun y hy => hitem y (by simp [hy])) last
        rest hc
      rw [List.append_assoc, hws] at *
      refine .accept_no (by rw [hx]; exact hf) (.bind (hread t d ws ?_) (.bind hmore ?_))
      · rcases hd with hd | rfl
        · exact .inl hd
        · exact .inr hc
      · exact .expect_bind hc .pure

def ReadsBefore (e : Token) (es : List SyntaxError) (P : TokenKind → Prop) (item : Nat → Parser α)
    (a : α) (ts : List Token) : Prop :=
  ∃ last, ∀ c rest, P c.kind → Reads item ⟨ts ++ c :: rest, e, es⟩ a ⟨last :: c :: rest, e, es⟩

theorem ReadsBefore.shift {P : TokenKind → Prop} {a : α} {ts : List Token}
    (h : ReadsBefore e es P item a ts) : ReadsBefore e es P (fun n => item (n + 1)) a ts := by
  obtain ⟨last, hread⟩ := h
  exact ⟨last, fun c rest hc => (hread c rest hc).shift⟩

structure ReadsPair (e : Token) (es : List SyntaxError) (item : Nat → Parser Expr)
    (x : SpelledPair) : Prop where
  starts : StartsWith (· ≠ .rightBrace) x.keyText
  key : ReadsBefore e es (· = .colon) item x.key x.keyText
  colon : x.colon.kind = .colon
  value : ReadsBefore e es (fun k => k = .comma ∨ k = .rightBrace) item x.value x.valueText

theorem ReadsPair.shift {item : Nat → Parser Expr} {x : SpelledPair} (h : ReadsPair e es item x) :
    ReadsPair e es (fun n => item (n + 1)) x :=
  ⟨h.starts, h.key.shift, h.colon, h.value.shift⟩

theorem reads_pairs_nil {item : Nat → Parser Expr} (t : Token) {c : Token} (rest : List Token)
    (hc : c.kind = .rightBrace) :
    Reads (fun n => pairs (item n) n) ⟨t :: c :: rest, e, es⟩ [] ⟨t :: c :: rest, e, es⟩ := by
  refine .succ ?_
  simp only [pairs]
  refine .next_bind ?_
  simp only [Window.next_cons, hc, if_true]
  exact .pure

theorem reads_pairs_step {item : Nat → Parser Expr} {x : SpelledPair}
    (h : ReadsPair e es item x) : ∃ l, ∀ t d vs ps (w v : Window),
      (d.kind = .rightBrace ∧ w = ⟨l :: d :: vs, e, es⟩) ∨
        (d.kind = .comma ∧ w = ⟨d :: vs, e, es⟩) →
      Reads (fun n => pairs (item (n + 1)) n) w ps v →
      Reads (fun n => pairs (item n) n) ⟨t :: (x.text ++ d :: vs), e, es⟩ (x.pair :: ps) v := by
  obtain ⟨⟨f, fs, hkey, hf⟩, ⟨kl, hreadKey⟩, hcolon, ⟨vl, hreadValue⟩⟩ := h.shift
  refine ⟨vl, fun t d vs ps w v hw hps => .succ ?_⟩
  have hfirst : (Window.mk (t :: (x.text ++ d :: vs)) e es).next.kind ≠ .rightBrace := by
    rw [SpelledPair.text, hkey]
    exact hf
  have htext : x.text ++ d :: vs = x.keyText ++ x.colon :: (x.valueText ++ d :: vs) := by
    simp [SpelledPair.text]
  simp only [pairs]
  refine .next_bind ?_
  simp only [hfirst, if_false]
  refine .advance_bind ?_
  rw [Window.advance_cons, htext]
  refine .bind (hreadKey _ _ hcolon) (.expect_bind hcolon (.advance_bind ?_))
  rcases hw with ⟨hd, rfl⟩ | ⟨hd, rfl⟩
  · refine .bind (hreadValue d vs (.inr hd)) (.next_bind ?_)
    simp only [Window.next_cons, hd, ne_eq, not_true, if_false]
    exact .bind hps .pure
  · refine .bind (hreadValue d vs (.inl hd)) (.next_bind ?_)
    have hne : d.kind ≠ .rightBrace := by simp [hd]
    simp only [Window.next_cons, hne, ne_eq, not_false_eq_true, if_true]
    exact .expect_bind hd (.bind hps .pure)

theorem CommaEnded.cons_iff {ts us : List Token} {tss : List (List Token)} :
    CommaEnded (ts :: tss) us ↔ (tss = [] ∧ us = ts) ∨
      ∃ c vs, c.kind = .comma ∧ CommaEnded tss vs ∧ us = ts ++ c :: vs := by
  constructor
  · intro h
    cases h with
    | last => exact .inl ⟨rfl, rfl⟩
    | cons hc h => exact .inr ⟨_, _, hc, h, rfl⟩
  · rintro (⟨rfl, rfl⟩ | ⟨c, vs, hc, h, rfl⟩)
    · exact .last
    · exact .cons hc h

theorem reads_pairs {item : Nat → Parser Expr} {xs : List SpelledPair} {us : List Token}
    (hus : CommaEnded (xs.map (·.text)) us) (hitem : ∀ x ∈ xs, ReadsPair e es item x) (t : Token)
    {c : Token} (rest : List Token) (hc : c.kind = .rightBrace) :
    ∃ l, Reads (fun n => pairs (item n) n) ⟨t :: (us ++ c :: rest), e, es⟩ (xs.map (·.pair))
      ⟨l :: c :: rest, e, es⟩ := by
  induction xs generalizing us t item with
  | nil =>
    cases hus
    exact ⟨t, reads_pairs_nil t rest hc⟩
  | cons x xs ih =>
    obtain ⟨l, hstep⟩ := reads_pairs_step (hitem x (by simp))
    rw [List.map_cons, CommaEnded.cons_iff, List.map_eq_nil_iff] at hus
    rcases hus with ⟨rfl, rfl⟩ | ⟨d, vs, hd, hvs, rfl⟩
    · exact ⟨l, hstep t c rest [] _ _ (.inl ⟨hc, rfl⟩) (reads_pairs_nil l rest hc)⟩
    · obtain ⟨l', hrest⟩ := ih hvs (fun y hy => (hitem y (by simp [hy])).shift) d
      refine ⟨l', ?_⟩
      rw [List.append_assoc, List.cons_append]
      exact hstep t d _ _ _ _ (.inr ⟨hd, rfl⟩) hrest

end

end Parser

end Treewalk
