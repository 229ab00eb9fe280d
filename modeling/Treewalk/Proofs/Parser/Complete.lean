import Treewalk.Proofs.Parser.Reads

/-!
# What is derived is read

A derived text in front of what cannot go into it is read without an error, to its tree and to its
last token. As an expression can be the left part of a longer one, the law for expressions speaks
of what the parser goes on to do with it.
-/

namespace Treewalk

namespace Parser

variable {α : Type}

/-! ## What may follow -/

/-- The next token does not go into an expression of level `k` that ends on the current one, nor is
it an `else` that a closing brace would be glad of. -/
def Fits (k : Nat) (u : Window) : Prop :=
  u.nextRank ≤ k ∧ (u.current.kind = .rightBrace → u.next.kind ≠ .elseWord)

/-- Above `p`, every operator of at least the rank `k` is read. -/
def Admits (p : Precedence) (k : Nat) : Prop :=
  ∀ kind, k ≤ (Precedence.ofKind kind).rank → Precedence.ofKind kind ≠ .lowest →
    p.rank < (Precedence.ofKind kind).rank

theorem admits_lowest (k : Nat) : Admits .lowest k := by
  intro kind _ h
  cases hp : Precedence.ofKind kind <;> simp_all [Precedence.rank]

theorem admits_prefixed {p : Precedence} (hp : p.rank ≤ Precedence.prefixed.rank) :
    Admits p Precedence.prefixed.rank := by
  intro kind hk hlow
  have hcall : Precedence.ofKind kind = .call := by
    cases kind <;> simp_all [Precedence.ofKind, Precedence.rank]
  rw [hcall]
  exact Nat.lt_succ_of_le hp

theorem admits_succ (p : Precedence) : Admits p (p.rank + 1) := fun _ h _ => h

theorem Admits.mono {p : Precedence} {j k : Nat} (h : Admits p j) (hjk : j ≤ k) : Admits p k :=
  fun kind hk => h kind (Nat.le_trans hjk hk)

def MayEnd (s : Statement) (u : Window) : Prop :=
  OpenAt s u.next.kind ∧ u.next.kind ≠ .semicolon ∧ u.next.kind ≠ .elseWord

section

variable (e : Token) (es : List SyntaxError)

/-- What the parser does on the text of a phrase. -/
def Readable : Phrase → List Token → Prop
  | .expression k x, ts => ∃ init last, ts = init ++ [last] ∧ ∀ p rest y u, Admits p k →
      Fits k ⟨last :: rest, e, es⟩ → Reads (extend · p x) ⟨last :: rest, e, es⟩ y u →
      Reads (expression · p) ⟨ts ++ rest, e, es⟩ y u
  | .block b, ts => ∃ init last, ts = init ++ [last] ∧ last.kind = .rightBrace ∧ ∀ t rest,
      Reads (fun n => block (statement n) n) ⟨t :: (ts ++ rest), e, es⟩ b ⟨last :: rest, e, es⟩
  | .statement s, ts => ∃ init last, ts = init ++ [last] ∧
      (∀ c rest, c.kind = .semicolon →
        Reads statement ⟨ts ++ c :: rest, e, es⟩ s ⟨c :: rest, e, es⟩) ∧
      ∀ rest, MayEnd s ⟨last :: rest, e, es⟩ →
        Reads statement ⟨ts ++ rest, e, es⟩ s ⟨last :: rest, e, es⟩
  | .statements ss, ts => ∀ closing rest (g : Nat → Nat), closing = .rightBrace ∨ closing = .eof →
      (Window.mk rest e es).current.kind = closing → (∀ n, n ≤ g n) →
      Reads (fun n => untilKind closing (statement (g n)) n) ⟨ts ++ rest, e, es⟩ ss ⟨rest, e, es⟩

variable {e es}

theorem readable_of_operand {k : Nat} {x : Expr} {ts : List Token} (init : List Token)
    (last : Token) (hts : ts = init ++ [last])
    (h : ∀ rest, Fits k ⟨last :: rest, e, es⟩ →
      Reads operand ⟨ts ++ rest, e, es⟩ x ⟨last :: rest, e, es⟩) :
    Readable e es (.expression k x) ts :=
  ⟨init, last, hts, fun _ rest _ _ _ hfits hy => reads_expression (h rest hfits) hy⟩

theorem Readable.reads {k : Nat} {x : Expr} {ts : List Token}
    (h : Readable e es (.expression k x) ts) : ∃ init last, ts = init ++ [last] ∧
      ∀ p rest, Admits p k → Fits k ⟨last :: rest, e, es⟩ →
        (Window.mk (last :: rest) e es).nextRank ≤ p.rank →
        Reads (expression · p) ⟨ts ++ rest, e, es⟩ x ⟨last :: rest, e, es⟩ := by
  obtain ⟨init, last, hts, hread⟩ := h
  refine ⟨init, last, hts, fun p rest hp hfits hstop => ?_⟩
  exact hread p rest x _ hp hfits (reads_extend_stop hstop)

variable {closing : TokenKind} {item : Nat → Parser α}

/-! ## Expressions -/

def Stops (kind : TokenKind) : Prop := Precedence.ofKind kind = .lowest ∧ kind ≠ .elseWord

theorem Readable.before {x : Expr} {ts : List Token} (h : Readable e es (.expression 0 x) ts) :
    ReadsBefore e es Stops (expression · .lowest) x ts := by
  obtain ⟨init, last, -, hread⟩ := h.reads
  refine ⟨last, fun c rest hc => ?_⟩
  have hrank : (Window.mk (last :: c :: rest) e es).nextRank = 0 := by
    rw [Window.nextRank, Window.next_cons, hc.1]
    rfl
  exact hread .lowest (c :: rest) (admits_lowest 0) ⟨Nat.le_of_eq hrank, fun _ => hc.2⟩
    (Nat.le_of_eq hrank)

theorem ReadsBefore.mono {P Q : TokenKind → Prop} {a : α} {ts : List Token}
    (h : ReadsBefore e es P item a ts) (hPQ : ∀ k, Q k → P k) : ReadsBefore e es Q item a ts := by
  obtain ⟨last, hread⟩ := h
  exact ⟨last, fun c rest hc => hread c rest (hPQ _ hc)⟩

theorem StartsWith.mono {P Q : TokenKind → Prop} {ts : List Token} (h : StartsWith P ts)
    (hPQ : ∀ k, P k → Q k) : StartsWith Q ts := by
  obtain ⟨t, us, hts, ht⟩ := h
  exact ⟨t, us, hts, hPQ _ ht⟩

theorem readsItem_of_readable {x : Expr × List Token} (hd : Derives (.expression 0 x.1) x.2)
    (h : Readable e es (.expression 0 x.1) x.2) (hstop : Stops closing)
    (hclosing : ¬closing.StartsExpression) :
    ReadsItem e es closing (fun n => advanced (expression n .lowest)) x := by
  obtain ⟨last, hread⟩ := h.before
  refine ⟨StartsWith.mono hd.starts fun k hk h => hclosing (h ▸ hk), last, fun t c rest hc => ?_⟩
  refine .advanced (hread c rest ?_)
  rcases hc with hc | hc
  · rw [hc]
    exact ⟨rfl, by simp⟩
  · rw [hc]
    exact hstop

theorem readsPair_of_readable {x : SpelledPair} (hd : Derives (.expression 0 x.key) x.keyText)
    (hkey : Readable e es (.expression 0 x.key) x.keyText) (hcolon : x.colon.kind = .colon)
    (hvalue : Readable e es (.expression 0 x.value) x.valueText) :
    ReadsPair e es (expression · .lowest) x where
  starts := StartsWith.mono hd.starts fun k hk h => by simp [TokenKind.StartsExpression, h] at hk
  key := hkey.before.mono fun k hk => by simp [hk, Stops, Precedence.ofKind]
  colon := hcolon
  value := hvalue.before.mono fun k hk => by rcases hk with rfl | rfl <;> simp [Stops,
    Precedence.ofKind]

theorem PrefixOp.ofKind?_eq_some {kind : TokenKind} {op : PrefixOp} :
    PrefixOp.ofKind? kind = some op ↔
      (kind = .bang ∧ op = .not) ∨ (kind = .minus ∧ op = .negate) := by
  cases kind <;> simp [PrefixOp.ofKind?, eq_comm]

section

variable {k : Nat} {t o c : Token} {x y : Expr} {ts us : List Token}

theorem readable_word (h : ∀ n rest, operand (n + 1) ⟨t :: rest, e, es⟩ =
    some (.ok x, ⟨t :: rest, e, es⟩)) : Readable e es (.expression k x) [t] :=
  readable_of_operand [] t rfl fun rest _ => .succ ⟨0, fun n _ => h n rest⟩

theorem readable_integer {v : Int64} (ht : t.kind = .int) (hv : readInt64 t.literal = some v) :
    Readable e es (.expression k (.integer t v)) [t] := by
  refine readable_word fun n rest => ?_
  rw [operand, Run.bind_ok (current_apply _)]
  simp only [Window.current_cons, ht, integer]
  rw [Run.bind_ok (current_apply _)]
  simp only [Window.current_cons, hv]
  rfl

theorem readable_prefixed {op : PrefixOp} (hk : k ≤ Precedence.prefixed.rank)
    (hop : PrefixOp.ofKind? t.kind = some op)
    (h : Readable e es (.expression Precedence.prefixed.rank x) ts) :
    Readable e es (.expression k (.prefixed t op x)) (t :: ts) := by
  obtain ⟨init, last, hts, hread⟩ := h.reads
  refine readable_of_operand (t :: init) last (by rw [hts]; rfl) fun rest hfits => .succ ?_
  have hrank := Nat.le_trans hfits.1 hk
  have hx := hread .prefixed rest (admits_prefixed (Nat.le_refl _)) ⟨hrank, hfits.2⟩ hrank
  simp only [operand]
  refine .current_bind ?_
  rcases PrefixOp.ofKind?_eq_some.1 hop with ⟨ht, rfl⟩ | ⟨ht, rfl⟩
  · simp only [List.cons_append, Window.current_cons, ht]
    exact .bind (.advanced hx) .pure
  · simp only [List.cons_append, Window.current_cons, ht]
    exact .bind (.advanced hx) .pure

theorem readable_group (ho : o.kind = .leftParen) (h : Readable e es (.expression 0 x) ts)
    (hc : c.kind = .rightParen) : Readable e es (.expression k x) (o :: (ts ++ [c])) := by
  obtain ⟨last, hread⟩ := h.before
  refine readable_of_operand (o :: ts) c rfl fun rest _ => .succ ?_
  have hx := hread c rest (by rw [hc]; exact ⟨rfl, by simp⟩)
  simp only [operand]
  refine .current_bind ?_
  simp only [List.cons_append, Window.current_cons, ho, List.append_assoc, List.nil_append]
  exact .bind (.advanced hx) (.expect_bind hc .pure)

theorem suffix_of_infixOp {n : Nat} {w : Window} {op : InfixOp}
    (hop : InfixOp.ofKind? w.current.kind = some op) : suffix (n + 1) x w =
      (advanced (expression n (.ofKind w.current.kind)) >>= fun y =>
        pure (.binary w.current op x y)) w := by
  rw [suffix, Run.bind_ok (current_apply w)]
  refine congrFun ?_ w
  split
  · rename_i h
    simp [h, InfixOp.ofKind?] at hop
  · rename_i h
    simp [h, InfixOp.ofKind?] at hop
  · rw [hop]

theorem infixOp_ne {kind : TokenKind} {op : InfixOp} (h : InfixOp.ofKind? kind = some op) :
    Precedence.ofKind kind ≠ .lowest ∧ kind ≠ .elseWord := by
  cases kind <;> simp_all [InfixOp.ofKind?, Precedence.ofKind]

theorem readable_binary {op : InfixOp} (hk : k ≤ (Precedence.ofKind t.kind).rank)
    (hop : InfixOp.ofKind? t.kind = some op)
    (hx : Readable e es (.expression (Precedence.ofKind t.kind).rank x) ts)
    (hy : Readable e es (.expression ((Precedence.ofKind t.kind).rank + 1) y) us) :
    Readable e es (.expression k (.binary t op x y)) (ts ++ t :: us) := by
  obtain ⟨_, l, -, hleft⟩ := hx
  obtain ⟨init, last, hus, hright⟩ := hy.reads
  obtain ⟨hlow, helse⟩ := infixOp_ne hop
  refine ⟨ts ++ t :: init, last, by rw [hus]; simp, fun p rest z u hp hfits hz => ?_⟩
  have hrank := Nat.le_trans hfits.1 hk
  have hsuffix : Reads (suffix · x) ⟨t :: (us ++ rest), e, es⟩ (.binary t op x y)
      ⟨last :: rest, e, es⟩ := by
    refine .succ (.after ?_ fun n => suffix_of_infixOp (by rwa [Window.current_cons]))
    refine .bind (.advanced (hright _ rest (admits_succ _) ⟨?_, hfits.2⟩ hrank)) .pure
    exact Nat.le_succ_of_le hrank
  rw [List.append_assoc, List.cons_append]
  -- the left part is read up to the operator, and is extended by it from there on
  refine hleft p (t :: (us ++ rest)) z u (hp.mono hk) ⟨Nat.le_refl _, fun _ => helse⟩ ?_
  exact reads_extend_step (hp t.kind hk hlow) hsuffix hz

theorem readable_suffix (hk : k ≤ Precedence.call.rank) (ht : Precedence.ofKind t.kind = .call)
    (hx : Readable e es (.expression Precedence.call.rank x) ts)
    (hsuffix : ∀ rest, Reads (suffix · x) ⟨t :: (us ++ c :: rest), e, es⟩ y ⟨c :: rest, e, es⟩) :
    Readable e es (.expression k y) (ts ++ t :: (us ++ [c])) := by
  obtain ⟨_, l, -, hleft⟩ := hx
  refine ⟨ts ++ t :: us, c, by simp, fun p rest z u hp _ hz => ?_⟩
  have hrank : (Precedence.ofKind t.kind).rank = Precedence.call.rank := by rw [ht]
  have hlow : Precedence.ofKind t.kind ≠ .lowest := by simp [ht]
  have helse : t.kind ≠ .elseWord := fun h => hlow (by rw [h]; rfl)
  have htext : ts ++ t :: (us ++ [c]) ++ rest = ts ++ t :: (us ++ c :: rest) := by simp
  rw [htext]
  refine hleft p (t :: (us ++ c :: rest)) z u (hp.mono hk) ⟨Nat.le_of_eq hrank, fun _ => helse⟩ ?_
  exact reads_extend_step (hp t.kind (by rwa [hrank]) hlow) (hsuffix rest) hz

theorem readsItems_of_readable {xs : List (Expr × List Token)}
    (hd : ∀ a ∈ xs, Derives (.expression 0 a.1) a.2)
    (ha : ∀ a ∈ xs, Readable e es (.expression 0 a.1) a.2)
    (hclosing : closing = .rightParen ∨ closing = .rightBracket) :
    ∀ a ∈ xs, ReadsItem e es closing (fun n => advanced (expression n .lowest)) a := by
  intro a hm
  rcases hclosing with rfl | rfl
  · exact readsItem_of_readable (hd a hm) (ha a hm) ⟨rfl, by simp⟩
      (by simp [TokenKind.StartsExpression])
  · exact readsItem_of_readable (hd a hm) (ha a hm) ⟨rfl, by simp⟩
      (by simp [TokenKind.StartsExpression])

theorem readable_call {arguments : List (Expr × List Token)} (hk : k ≤ Precedence.call.rank)
    (ho : o.kind = .leftParen) (hx : Readable e es (.expression Precedence.call.rank x) ts)
    (hd : ∀ a ∈ arguments, Derives (.expression 0 a.1) a.2)
    (ha : ∀ a ∈ arguments, Readable e es (.expression 0 a.1) a.2)
    (hus : CommaSeparated (arguments.map (·.2)) us) (hc : c.kind = .rightParen) :
    Readable e es (.expression k (.call o x (arguments.map (·.1)))) (ts ++ o :: (us ++ [c])) := by
  refine readable_suffix hk (by rw [ho]; rfl) hx fun rest => .succ ?_
  have hitem := readsItems_of_readable hd ha (.inl rfl)
  simp only [suffix]
  refine .current_bind ?_
  simp only [Window.current_cons, ho]
  exact .bind (reads_items (by simp) hus hitem o rest hc) .pure

theorem readable_index (hk : k ≤ Precedence.call.rank) (ho : o.kind = .leftBracket)
    (hx : Readable e es (.expression Precedence.call.rank x) ts)
    (hy : Readable e es (.expression 0 y) us) (hc : c.kind = .rightBracket) :
    Readable e es (.expression k (.index o x y)) (ts ++ o :: (us ++ [c])) := by
  refine readable_suffix hk (by rw [ho]; rfl) hx fun rest => .succ ?_
  obtain ⟨last, hread⟩ := hy.before
  have hposition := hread c rest (by rw [hc]; exact ⟨rfl, by simp⟩)
  simp only [suffix]
  refine .current_bind ?_
  simp only [Window.current_cons, ho]
  exact .bind (.advanced hposition) (.expect_bind hc .pure)

theorem readable_array {elements : List (Expr × List Token)} (ho : o.kind = .leftBracket)
    (hd : ∀ a ∈ elements, Derives (.expression 0 a.1) a.2)
    (ha : ∀ a ∈ elements, Readable e es (.expression 0 a.1) a.2)
    (hus : CommaSeparated (elements.map (·.2)) us) (hc : c.kind = .rightBracket) :
    Readable e es (.expression k (.array o (elements.map (·.1)))) (o :: (us ++ [c])) := by
  refine readable_of_operand (o :: us) c rfl fun rest _ => .succ ?_
  simp only [operand]
  refine .current_bind ?_
  simp only [List.cons_append, Window.current_cons, ho, List.append_assoc, List.nil_append]
  exact .bind (reads_items (by simp) hus (readsItems_of_readable hd ha (.inr rfl)) o rest hc) .pure

theorem readable_hash {pairs : List SpelledPair} (ho : o.kind = .leftBrace)
    (hpairs : ∀ x ∈ pairs, ReadsPair e es (expression · .lowest) x)
    (hus : CommaEnded (pairs.map (·.text)) us) (hc : c.kind = .rightBrace) :
    Readable e es (.expression k (.hash o (pairs.map (·.pair)))) (o :: (us ++ [c])) := by
  refine readable_of_operand (o :: us) c rfl fun rest _ => .succ ?_
  obtain ⟨l, hread⟩ := reads_pairs hus (fun x hx => (hpairs x hx)) o rest hc
  simp only [operand]
  refine .current_bind ?_
  simp only [List.cons_append, Window.current_cons, ho, List.append_assoc, List.nil_append]
  exact .bind hread (.expect_bind hc .pure)

theorem readable_block {ss : List Statement} (ho : o.kind = .leftBrace)
    (h : Readable e es (.statements ss) ts) (hc : c.kind = .rightBrace) :
    Readable e es (.block ⟨o, ss⟩) (o :: (ts ++ [c])) := by
  refine ⟨o :: ts, c, rfl, hc, fun t rest => ?_⟩
  simp only [block, List.cons_append, List.append_assoc, List.nil_append]
  refine .expect_bind ho (.current_bind (.advance_bind ?_))
  refine .bind (h .rightBrace (c :: rest) id (.inl rfl) hc Nat.le_refl) (.current_bind ?_)
  have hne : c.kind ≠ .eof := by simp [hc]
  simp only [Window.current_cons, hne, if_false]
  exact .pure

theorem reads_condition {i : Token} {β : Type} {f : Nat → Expr → Parser β} {b : β} {v : Window}
    (ho : o.kind = .leftParen) (h : Readable e es (.expression 0 x) ts)
    (hc : c.kind = .rightParen) {rest : List Token}
    (hf : Reads (fun n => f n x) ⟨c :: rest, e, es⟩ b v) :
    Reads (fun n => expect .leftParen >>= fun _ => advanced (expression n .lowest) >>= fun x =>
      expect .rightParen >>= fun _ => f n x) ⟨i :: o :: (ts ++ c :: rest), e, es⟩ b v := by
  obtain ⟨last, hread⟩ := h.before
  have hx := hread c rest (by rw [hc]; exact ⟨rfl, by simp⟩)
  exact .expect_bind ho (.bind (.advanced hx) (.expect_bind hc hf))

theorem readable_conditional {i : Token} {b : Block} (hi : i.kind = .ifWord)
    (ho : o.kind = .leftParen) (hx : Readable e es (.expression 0 x) ts)
    (hc : c.kind = .rightParen) (hb : Readable e es (.block b) us) :
    Readable e es (.expression k (.conditional i x b none)) (i :: o :: (ts ++ c :: us)) := by
  obtain ⟨init, last, hus, hlast, hread⟩ := hb
  refine readable_of_operand (i :: o :: (ts ++ c :: init)) last (by simp [hus]) fun rest hfits => ?_
  refine .succ ?_
  simp only [operand]
  refine .current_bind ?_
  simp only [List.cons_append, Window.current_cons, hi, List.append_assoc]
  refine reads_condition ho hx hc (.bind (hread c rest) ?_)
  exact .bind (.accept_no (hfits.2 hlast) .pure) .pure

theorem readable_alternative {i w : Token} {b d : Block} {vs : List Token}
    (hi : i.kind = .ifWord) (ho : o.kind = .leftParen) (hx : Readable e es (.expression 0 x) ts)
    (hc : c.kind = .rightParen) (hb : Readable e es (.block b) us) (hw : w.kind = .elseWord)
    (hd : Readable e es (.block d) vs) : Readable e es
      (.expression k (.conditional i x b (some d))) (i :: o :: (ts ++ c :: (us ++ w :: vs))) := by
  obtain ⟨_, l, -, -, hread⟩ := hb
  obtain ⟨init, last, hvs, -, hread'⟩ := hd
  refine readable_of_operand (i :: o :: (ts ++ c :: (us ++ w :: init))) last (by simp [hvs])
    fun rest _ => .succ ?_
  simp only [operand]
  refine .current_bind ?_
  simp only [List.cons_append, Window.current_cons, hi, List.append_assoc]
  refine reads_condition ho hx hc (.bind (hread c (w :: (vs ++ rest))) ?_)
  exact .bind (.accept_yes hw (.bind (hread' w rest) .pure)) .pure

theorem readsItem_parameter {p : Token} (hp : p.kind = .ident) :
    ReadsItem e es .rightParen (fun _ => parameter) (p, [p]) := by
  refine ⟨⟨p, [], rfl, by simp [hp]⟩, p, fun t c rest _ => ?_⟩
  exact .expect_bind hp (.current_bind .pure)

theorem readable_function {f : Token} {parameters vs : List Token} {b : Block}
    (hf : f.kind = .function) (ho : o.kind = .leftParen) (hp : ∀ p ∈ parameters, p.kind = .ident)
    (hus : CommaSeparated (parameters.map ([·])) us) (hc : c.kind = .rightParen)
    (hb : Readable e es (.block b) vs) :
    Readable e es (.expression k (.function f parameters b)) (f :: o :: (us ++ c :: vs)) := by
  obtain ⟨init, last, hvs, -, hread⟩ := hb
  refine readable_of_operand (f :: o :: (us ++ c :: init)) last (by simp [hvs])
    fun rest _ => .succ ?_
  have hxs : CommaSeparated ((parameters.map fun p => (p, [p])).map (·.2)) us := by
    rwa [List.map_map]
  have hitem : ∀ x ∈ parameters.map fun p => (p, [p]),
      ReadsItem e es .rightParen (fun _ => parameter) x := by
    intro x hx
    obtain ⟨p, hm, rfl⟩ := List.mem_map.1 hx
    exact readsItem_parameter (hp p hm)
  have hparameters := reads_items (by simp) hxs hitem o (vs ++ rest) hc
  rw [List.map_map, show (Prod.fst ∘ fun p : Token => (p, [p])) = id from rfl, List.map_id]
    at hparameters
  simp only [operand]
  refine .current_bind ?_
  simp only [List.cons_append, Window.current_cons, hf, List.append_assoc]
  exact .expect_bind ho (.bind hparameters (.bind (hread c rest) .pure))

/-! ## Statements -/

theorem readable_of_value {f : Expr → α} {s : Statement} (pre : List Token)
    (h : Readable e es (.expression 0 x) ts)
    (hopen : ∀ kind, OpenAt s kind → (Precedence.ofKind kind).rank = 0)
    (hread : ∀ rest v, Reads (fun n => expression n .lowest >>= fun x =>
        skip .semicolon >>= fun _ => pure (f x)) ⟨ts ++ rest, e, es⟩ (f x) v →
      Reads statement ⟨pre ++ ts ++ rest, e, es⟩ s v) :
    Readable e es (.statement s) (pre ++ ts) := by
  obtain ⟨init, last, hts, hexpr⟩ := h.reads
  refine ⟨pre ++ init, last, by rw [hts, List.append_assoc], fun c rest hc => hread _ _ ?_,
    fun rest ⟨hend, hsemi, helse⟩ => hread _ _ ?_⟩
  · have hle : (Window.mk (last :: c :: rest) e es).nextRank ≤ 0 := by
      rw [Window.nextRank, Window.next_cons, hc]
      exact Nat.le_refl _
    refine .bind (hexpr .lowest (c :: rest) (admits_lowest 0) ⟨hle, fun _ => ?_⟩ hle) ?_
    · simp [hc]
    · exact .skip_yes hc .pure
  · have hle := Nat.le_of_eq (hopen _ hend)
    refine .bind (hexpr .lowest rest (admits_lowest 0) ⟨hle, fun _ => helse⟩ hle) ?_
    exact .skip_no hsemi .pure

theorem readable_binding {l n a : Token} (hl : l.kind = .letWord) (hn : n.kind = .ident)
    (ha : a.kind = .assign) (h : Readable e es (.expression 0 x) ts) :
    Readable e es (.statement (.binding l n x)) (l :: n :: a :: ts) := by
  refine readable_of_value [l, n, a] (f := Statement.binding l n) h (fun _ h => h)
    fun rest v hv => .succ ?_
  simp only [statement]
  refine .current_bind ?_
  simp only [List.cons_append, Window.current_cons, hl]
  exact .require_bind hn (.current_bind (.require_bind ha (.advanced_bind hv)))

theorem readable_bareReturn {r : Token} (hr : r.kind = .returnWord) :
    Readable e es (.statement (.returning r none)) [r] := by
  refine ⟨[], r, rfl, fun c rest hc => .succ ?_, fun rest hend => .succ ?_⟩
  · simp only [statement]
    refine .current_bind ?_
    simp only [List.cons_append, Window.current_cons, hr, List.nil_append]
    exact .bind (.accept_yes hc .pure) .pure
  · simp only [statement]
    refine .current_bind ?_
    simp only [List.cons_append, Window.current_cons, hr, List.nil_append]
    refine .bind (.accept_no hend.2.1 (.next_bind ?_)) .pure
    have hbare : (Window.mk (r :: rest) e es).next.kind = .rightBrace ∨
      (Window.mk (r :: rest) e es).next.kind = .eof := hend.1
    simp only [hbare, if_true]
    exact .pure

theorem readable_returning {r : Token} (hr : r.kind = .returnWord)
    (hd : Derives (.expression 0 x) ts) (h : Readable e es (.expression 0 x) ts) :
    Readable e es (.statement (.returning r (some x))) (r :: ts) := by
  refine readable_of_value [r] (f := some) h (fun _ h => h) fun rest v hv => .succ ?_
  obtain ⟨f, fs, hf, hstart⟩ := hd.starts
  have hnext : (Window.mk (r :: (ts ++ rest)) e es).next.kind = f.kind := by rw [hf]; rfl
  have hvalue : f.kind ≠ .semicolon ∧ ¬(f.kind = .rightBrace ∨ f.kind = .eof) := by
    refine ⟨fun h => ?_, ?_⟩
    · simp [h, TokenKind.StartsExpression] at hstart
    · rintro (h | h) <;> simp [h, TokenKind.StartsExpression] at hstart
  simp only [statement]
  refine .current_bind ?_
  simp only [List.cons_append, List.nil_append, Window.current_cons, hr]
  refine .bind (.accept_no (by rw [hnext]; exact hvalue.1) (.next_bind ?_)) .pure
  rw [← hnext] at hvalue
  simp only [hvalue.2, if_false]
  exact .advanced_bind hv

theorem statement_of_startsExpression {n : Nat} {w : Window}
    (h : w.current.kind.StartsExpression) : statement (n + 1) w =
      (expression n .lowest >>= fun x => skip .semicolon >>= fun _ =>
        pure (.expression w.current x)) w := by
  rw [statement, Run.bind_ok (current_apply w)]
  refine congrFun ?_ w
  split
  · rename_i hk
    simp [hk, TokenKind.StartsExpression] at h
  · rename_i hk
    simp [hk, TokenKind.StartsExpression] at h
  · rfl

theorem readable_expressionStatement (hd : Derives (.expression 0 x) (t :: ts))
    (h : Readable e es (.expression 0 x) (t :: ts)) :
    Readable e es (.statement (.expression t x)) (t :: ts) := by
  refine readable_of_value [] (f := Statement.expression t) h (fun _ h => h) fun rest v hv => ?_
  obtain ⟨_, _, hf, hstart⟩ := hd.starts
  cases hf
  exact .succ (hv.after fun n => statement_of_startsExpression hstart)

theorem readable_nil : Readable e es (.statements []) [] := by
  intro closing rest g _ hrest _
  refine .succ ?_
  simp only [untilKind]
  refine .current_bind ?_
  simp only [List.nil_append, hrest, true_or, if_true]
  exact .pure

theorem reads_untilKind_cons {s : Statement} {ss : List Statement} {g : Nat → Nat} {w u v : Window}
    (hclosing : closing = .rightBrace ∨ closing = .eof) (hg : ∀ n, n ≤ g n)
    (hw : w.current.kind.StartsStatement) (hs : Reads statement w s u)
    (hss : Reads (fun n => untilKind closing (statement (g (n + 1))) n) u.advance ss v) :
    Reads (fun n => untilKind closing (statement (g n)) n) w (s :: ss) v := by
  refine .succ ?_
  have hne : ¬(w.current.kind = closing ∨ w.current.kind = .eof) := by
    rcases hclosing with rfl | rfl
    · rintro (h | h) <;> simp [h, TokenKind.StartsStatement, TokenKind.StartsExpression] at hw
    · rintro (h | h) <;> simp [h, TokenKind.StartsStatement, TokenKind.StartsExpression] at hw
  have hs' : Reads (fun n => statement (g (n + 1))) w s u :=
    hs.comp fun n => Nat.le_trans (Nat.le_succ n) (hg _)
  simp only [untilKind]
  refine .current_bind ?_
  simp only [hne, if_false]
  exact .bind hs'.attempt (.advance_bind (.bind hss .pure))

theorem readable_ended {s : Statement} {ss : List Statement} (hd : Derives (.statement s) ts)
    (hs : Readable e es (.statement s) ts) (hc : c.kind = .semicolon)
    (hss : Readable e es (.statements ss) us) :
    Readable e es (.statements (s :: ss)) (ts ++ c :: us) := by
  intro closing rest g hclosing hrest hg
  obtain ⟨_, _, -, hended, -⟩ := hs
  obtain ⟨t, fs, hf, hstart⟩ := hd.starts
  rw [List.append_assoc, List.cons_append]
  refine reads_untilKind_cons hclosing hg ?_ (hended c (us ++ rest) hc) ?_
  · rw [hf]
    exact hstart
  · exact hss closing rest _ hclosing hrest fun n => Nat.le_trans (Nat.le_succ n) (hg _)

theorem openAt_closing (s : Statement) (h : closing = .rightBrace ∨ closing = .eof) :
    OpenAt s closing := by
  cases s with
  | returning _ value =>
    cases value with
    | none => exact h
    | some => rcases h with rfl | rfl <;> rfl
  | _ => rcases h with rfl | rfl <;> rfl

theorem mayEnd_of_openTo {s : Statement} {ss : List Statement} {rest : List Token}
    (hclosing : closing = .rightBrace ∨ closing = .eof) (hopen : s.OpenTo us)
    (hd : Derives (.statements ss) us) (hrest : (Window.mk rest e es).current.kind = closing) :
    MayEnd s ⟨t :: (us ++ rest), e, es⟩ := by
  rcases hd.starts with rfl | ⟨f, fs, rfl, hf⟩
  · have hnext : (Window.mk (t :: ([] ++ rest)) e es).next.kind = closing := hrest
    rw [MayEnd, hnext]
    refine ⟨openAt_closing s hclosing, ?_⟩
    rcases hclosing with rfl | rfl <;> simp
  · refine ⟨?_, fun h => ?_, fun h => ?_⟩
    · cases s with
      | returning _ value =>
        cases value with
        | none => cases hopen
        | some => exact hopen
      | _ => exact hopen
    · simp only [List.cons_append, Window.next_cons] at h
      simp [h, TokenKind.StartsStatement, TokenKind.StartsExpression] at hf
    · simp only [List.cons_append, Window.next_cons] at h
      simp [h, TokenKind.StartsStatement, TokenKind.StartsExpression] at hf

theorem readable_unended {s : Statement} {ss : List Statement} (hd : Derives (.statement s) ts)
    (hs : Readable e es (.statement s) ts) (hopen : s.OpenTo us)
    (hd' : Derives (.statements ss) us) (hss : Readable e es (.statements ss) us) :
    Readable e es (.statements (s :: ss)) (ts ++ us) := by
  intro closing rest g hclosing hrest hg
  obtain ⟨_, last, -, -, hread⟩ := hs
  obtain ⟨t, fs, hf, hstart⟩ := hd.starts
  rw [List.append_assoc]
  have hend := mayEnd_of_openTo (t := last) hclosing hopen hd' hrest
  refine reads_untilKind_cons hclosing hg ?_ (hread (us ++ rest) hend) ?_
  · rw [hf]
    exact hstart
  · exact hss closing rest _ hclosing hrest fun n => Nat.le_trans (Nat.le_succ n) (hg _)

end

/-- Every text of a phrase is read. -/
theorem readable {x : Phrase} {ts : List Token} (h : Derives x ts) : Readable e es x ts := by
  induction h with
  | identifier ht | string ht | trueWord ht | falseWord ht =>
    refine readable_word fun n rest => ?_
    rw [operand, Run.bind_ok (current_apply _)]
    simp only [Window.current_cons, ht]
    rfl
  | integer ht hv => exact readable_integer ht hv
  | group ho _ hc ih => exact readable_group ho ih hc
  | prefixed hk hop _ ih => exact readable_prefixed hk hop ih
  | binary hk hop _ _ ihx ihy => exact readable_binary hk hop ihx ihy
  | call hk ho _ hd hus hc ihx iha => exact readable_call hk ho ihx hd iha hus hc
  | index hk ho _ _ hc ihx ihy => exact readable_index hk ho ihx ihy hc
  | array ho hd hus hc iha => exact readable_array ho hd iha hus hc
  | hash ho hkeys hcolons hvalues hus hc ihk ihv =>
    refine readable_hash ho (fun x hx => ?_) hus hc
    exact readsPair_of_readable (hkeys x hx) (ihk x hx) (hcolons x hx) (ihv x hx)
  | conditional hi ho _ hc _ ihx ihb => exact readable_conditional hi ho ihx hc ihb
  | alternative hi ho _ hc _ hw _ ihx ihb ihd => exact readable_alternative hi ho ihx hc ihb hw ihd
  | function hf ho hp hus hc _ ihb => exact readable_function hf ho hp hus hc ihb
  | block ho _ hc ih => exact readable_block ho ih hc
  | binding hl hn ha _ ih => exact readable_binding hl hn ha ih
  | bareReturn hr => exact readable_bareReturn hr
  | returning hr hd ih => exact readable_returning hr hd ih
  | expression hd ih => exact readable_expressionStatement hd ih
  | nil => exact readable_nil
  | ended hd hc _ ihs ihss => exact readable_ended hd ihs hc ihss
  | unended hd hopen hd' ihs ihss => exact readable_unended hd ihs hopen hd' ihss

end

end Parser

end Treewalk
