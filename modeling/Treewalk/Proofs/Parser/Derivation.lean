import Treewalk.Parser.Precedence
import Treewalk.Program.Basic
import Treewalk.Text.Numeral

/-!
# The grammar of programs

Which tokens spell which tree. The reading of the parser plays no part here: how operators group is
a matter of levels, and where a statement may go without its semicolon is a matter of what follows.
-/

namespace Treewalk

/-! ## Lists -/

/-- The texts one after another, each behind a comma. -/
inductive CommaLed : List (List Token) → List Token → Prop
  | nil : CommaLed [] []
  | cons {c : Token} {ts us : List Token} {tss : List (List Token)} : c.kind = .comma →
      CommaLed tss us → CommaLed (ts :: tss) (c :: (ts ++ us))

/-- The texts with a comma between each two. -/
inductive CommaSeparated : List (List Token) → List Token → Prop
  | nil : CommaSeparated [] []
  | cons {ts us : List Token} {tss : List (List Token)} : CommaLed tss us →
      CommaSeparated (ts :: tss) (ts ++ us)

/-- The texts, each before a comma; the last one may do without. -/
inductive CommaEnded : List (List Token) → List Token → Prop
  | nil : CommaEnded [] []
  | last {ts : List Token} : CommaEnded [ts] ts
  | cons {c : Token} {ts us : List Token} {tss : List (List Token)} : c.kind = .comma →
      CommaEnded tss us → CommaEnded (ts :: tss) (ts ++ c :: us)

structure SpelledPair where
  key : Expr
  keyText : List Token
  colon : Token
  value : Expr
  valueText : List Token

namespace SpelledPair

def pair (x : SpelledPair) : Expr × Expr := (x.key, x.value)

def text (x : SpelledPair) : List Token := x.keyText ++ x.colon :: x.valueText

end SpelledPair

/-! ## Phrases -/

/-- What the tokens of a text make up. The level of an expression is the least rank that its
outermost operation may have. A statement is without its semicolon, a block with its braces. -/
inductive Phrase
  | expression (level : Nat) (e : Expr)
  | block (b : Block)
  | statement (s : Statement)
  | statements (ss : List Statement)

/-- How tightly the first token binds to what stands before it. -/
def leadRank : List Token → Nat
  | [] => 0
  | t :: _ => (Precedence.ofKind t.kind).rank

/-- A statement may stand before these others without a semicolon when they cannot be read as going
on with it: a bare `return` before none at all, any other one if no operator comes first. -/
def Statement.OpenTo : Statement → List Token → Prop
  | .returning _ none, rest => rest = []
  | _, rest => leadRank rest = 0

inductive Derives : Phrase → List Token → Prop
  | identifier {k : Nat} {t : Token} : t.kind = .ident →
      Derives (.expression k (.identifier t)) [t]
  | integer {k : Nat} {t : Token} {v : Int64} : t.kind = .int → readInt64 t.literal = some v →
      Derives (.expression k (.integer t v)) [t]
  | string {k : Nat} {t : Token} : t.kind = .string → Derives (.expression k (.string t)) [t]
  | trueWord {k : Nat} {t : Token} : t.kind = .trueWord →
      Derives (.expression k (.boolean t true)) [t]
  | falseWord {k : Nat} {t : Token} : t.kind = .falseWord →
      Derives (.expression k (.boolean t false)) [t]
  | group {k : Nat} {o c : Token} {e : Expr} {ts : List Token} : o.kind = .leftParen →
      Derives (.expression 0 e) ts → c.kind = .rightParen →
      Derives (.expression k e) (o :: (ts ++ [c]))
  | prefixed {k : Nat} {t : Token} {op : PrefixOp} {e : Expr} {ts : List Token} :
      k ≤ Precedence.prefixed.rank → PrefixOp.ofKind? t.kind = some op →
      Derives (.expression Precedence.prefixed.rank e) ts →
      Derives (.expression k (.prefixed t op e)) (t :: ts)
  | binary {k : Nat} {t : Token} {op : InfixOp} {left right : Expr} {ts us : List Token} :
      k ≤ (Precedence.ofKind t.kind).rank → InfixOp.ofKind? t.kind = some op →
      Derives (.expression (Precedence.ofKind t.kind).rank left) ts →
      Derives (.expression ((Precedence.ofKind t.kind).rank + 1) right) us →
      Derives (.expression k (.binary t op left right)) (ts ++ t :: us)
  | call {k : Nat} {o c : Token} {callee : Expr} {ts us : List Token}
      {arguments : List (Expr × List Token)} : k ≤ Precedence.call.rank → o.kind = .leftParen →
      Derives (.expression Precedence.call.rank callee) ts →
      (∀ a ∈ arguments, Derives (.expression 0 a.1) a.2) →
      CommaSeparated (arguments.map (·.2)) us → c.kind = .rightParen →
      Derives (.expression k (.call o callee (arguments.map (·.1)))) (ts ++ o :: (us ++ [c]))
  | index {k : Nat} {o c : Token} {base position : Expr} {ts us : List Token} :
      k ≤ Precedence.call.rank → o.kind = .leftBracket →
      Derives (.expression Precedence.call.rank base) ts → Derives (.expression 0 position) us →
      c.kind = .rightBracket →
      Derives (.expression k (.index o base position)) (ts ++ o :: (us ++ [c]))
  | array {k : Nat} {o c : Token} {elements : List (Expr × List Token)} {us : List Token} :
      o.kind = .leftBracket → (∀ a ∈ elements, Derives (.expression 0 a.1) a.2) →
      CommaSeparated (elements.map (·.2)) us → c.kind = .rightBracket →
      Derives (.expression k (.array o (elements.map (·.1)))) (o :: (us ++ [c]))
  | hash {k : Nat} {o c : Token} {pairs : List SpelledPair} {us : List Token} :
      o.kind = .leftBrace → (∀ x ∈ pairs, Derives (.expression 0 x.key) x.keyText) →
      (∀ x ∈ pairs, x.colon.kind = .colon) →
      (∀ x ∈ pairs, Derives (.expression 0 x.value) x.valueText) →
      CommaEnded (pairs.map (·.text)) us → c.kind = .rightBrace →
      Derives (.expression k (.hash o (pairs.map (·.pair)))) (o :: (us ++ [c]))
  | conditional {k : Nat} {i o c : Token} {condition : Expr} {b : Block} {ts us : List Token} :
      i.kind = .ifWord → o.kind = .leftParen → Derives (.expression 0 condition) ts →
      c.kind = .rightParen → Derives (.block b) us →
      Derives (.expression k (.conditional i condition b none)) (i :: o :: (ts ++ c :: us))
  | alternative {k : Nat} {i o c w : Token} {condition : Expr} {b d : Block}
      {ts us vs : List Token} :
      i.kind = .ifWord → o.kind = .leftParen → Derives (.expression 0 condition) ts →
      c.kind = .rightParen → Derives (.block b) us → w.kind = .elseWord → Derives (.block d) vs →
      Derives (.expression k (.conditional i condition b (some d)))
        (i :: o :: (ts ++ c :: (us ++ w :: vs)))
  | function {k : Nat} {f o c : Token} {parameters : List Token} {b : Block}
      {us vs : List Token} :
      f.kind = .function → o.kind = .leftParen → (∀ p ∈ parameters, p.kind = .ident) →
      CommaSeparated (parameters.map ([·])) us → c.kind = .rightParen → Derives (.block b) vs →
      Derives (.expression k (.function f parameters b)) (f :: o :: (us ++ c :: vs))
  | block {o c : Token} {ss : List Statement} {ts : List Token} : o.kind = .leftBrace →
      Derives (.statements ss) ts → c.kind = .rightBrace →
      Derives (.block ⟨o, ss⟩) (o :: (ts ++ [c]))
  | binding {l n a : Token} {e : Expr} {ts : List Token} : l.kind = .letWord → n.kind = .ident →
      a.kind = .assign → Derives (.expression 0 e) ts →
      Derives (.statement (.binding l n e)) (l :: n :: a :: ts)
  | bareReturn {r : Token} : r.kind = .returnWord → Derives (.statement (.returning r none)) [r]
  | returning {r : Token} {e : Expr} {ts : List Token} : r.kind = .returnWord →
      Derives (.expression 0 e) ts → Derives (.statement (.returning r (some e))) (r :: ts)
  | expression {t : Token} {e : Expr} {ts : List Token} : Derives (.expression 0 e) (t :: ts) →
      Derives (.statement (.expression t e)) (t :: ts)
  | nil : Derives (.statements []) []
  | ended {c : Token} {s : Statement} {ss : List Statement} {ts us : List Token} :
      Derives (.statement s) ts → c.kind = .semicolon → Derives (.statements ss) us →
      Derives (.statements (s :: ss)) (ts ++ c :: us)
  | unended {s : Statement} {ss : List Statement} {ts us : List Token} :
      Derives (.statement s) ts → s.OpenTo us → Derives (.statements ss) us →
      Derives (.statements (s :: ss)) (ts ++ us)

theorem rank_lt_prefixed {kind : TokenKind} {op : InfixOp} (h : InfixOp.ofKind? kind = some op) :
    (Precedence.ofKind kind).rank < Precedence.prefixed.rank := by
  cases kind <;> simp_all [InfixOp.ofKind?, Precedence.ofKind, Precedence.rank]

namespace Derives

variable {k j : Nat} {e : Expr} {ts : List Token}

theorem weaken (h : Derives (.expression k e) ts) (hj : j ≤ k) :
    Derives (.expression j e) ts := by
  cases h with
  | identifier ht => exact .identifier ht
  | integer ht hv => exact .integer ht hv
  | string ht => exact .string ht
  | trueWord ht => exact .trueWord ht
  | falseWord ht => exact .falseWord ht
  | group ho he hc => exact .group ho he hc
  | prefixed hk hop he => exact .prefixed (by omega) hop he
  | binary hk hop hl hr => exact .binary (by omega) hop hl hr
  | call hk ho hf ha hs hc => exact .call (by omega) ho hf ha hs hc
  | index hk ho hb hp hc => exact .index (by omega) ho hb hp hc
  | array ho he hs hc => exact .array ho he hs hc
  | hash ho hk hx hv hs hc => exact .hash ho hk hx hv hs hc
  | conditional hi ho he hc hb => exact .conditional hi ho he hc hb
  | alternative hi ho he hc hb hw hd => exact .alternative hi ho he hc hb hw hd
  | function hf ho hp hs hc hb => exact .function hf ho hp hs hc hb

end Derives

/-! ## First tokens -/

/-- A text that is not empty, and what its first token is like. -/
def StartsWith (P : TokenKind → Prop) (ts : List Token) : Prop := ∃ t us, ts = t :: us ∧ P t.kind

theorem StartsWith.append {P : TokenKind → Prop} {ts : List Token} (h : StartsWith P ts)
    (us : List Token) : StartsWith P (ts ++ us) := by
  obtain ⟨t, vs, rfl, ht⟩ := h
  exact ⟨t, vs ++ us, rfl, ht⟩

namespace TokenKind

def StartsExpression (kind : TokenKind) : Prop :=
  kind ∈ [.ident, .int, .string, .trueWord, .falseWord, .leftParen, .bang, .minus, .ifWord,
    .function, .leftBracket, .leftBrace]

def StartsStatement (kind : TokenKind) : Prop :=
  kind = .letWord ∨ kind = .returnWord ∨ kind.StartsExpression

end TokenKind

def Phrase.Starts : Phrase → List Token → Prop
  | .expression _ _, ts => StartsWith TokenKind.StartsExpression ts
  | .block _, ts => StartsWith (· = .leftBrace) ts
  | .statement _, ts => StartsWith TokenKind.StartsStatement ts
  | .statements _, ts => ts = [] ∨ StartsWith TokenKind.StartsStatement ts

theorem PrefixOp.startsExpression {kind : TokenKind} {op : PrefixOp}
    (h : PrefixOp.ofKind? kind = some op) : kind.StartsExpression := by
  cases kind <;> simp_all [PrefixOp.ofKind?, TokenKind.StartsExpression]

theorem Derives.starts {x : Phrase} {ts : List Token} (h : Derives x ts) : x.Starts ts := by
  induction h with
  | identifier h | string h | trueWord h | falseWord h =>
    exact ⟨_, _, rfl, by simp [TokenKind.StartsExpression, h]⟩
  | integer h _ | group h _ _ _ | array h _ _ _ _ | hash h _ _ _ _ _ _ _
  | conditional h _ _ _ _ _ _ | alternative h _ _ _ _ _ _ _ _ _ | function h _ _ _ _ _ _ =>
    exact ⟨_, _, rfl, by simp [TokenKind.StartsExpression, h]⟩
  | prefixed _ hop _ _ => exact ⟨_, _, rfl, PrefixOp.startsExpression hop⟩
  | binary _ _ _ _ ih _ | call _ _ _ _ _ _ ih _ | index _ _ _ _ _ ih _ => exact ih.append _
  | block h _ _ _ => exact ⟨_, _, rfl, h⟩
  | binding h _ _ _ _ => exact ⟨_, _, rfl, .inl h⟩
  | bareReturn h | returning h _ _ => exact ⟨_, _, rfl, .inr (.inl h)⟩
  | expression _ ih =>
    obtain ⟨t, us, hts, ht⟩ := ih
    exact ⟨t, us, hts, .inr (.inr ht)⟩
  | nil => exact .inl rfl
  | ended _ _ _ ih _ | unended _ _ _ ih _ => exact .inr (ih.append _)

/-! ## Last tokens -/

/-- A text that is not empty, and what its last token is like. -/
def EndsWith (P : TokenKind → Prop) (ts : List Token) : Prop := ∃ us t, ts = us ++ [t] ∧ P t.kind

namespace EndsWith

variable {P : TokenKind → Prop} {ts : List Token}

theorem snoc (us : List Token) {t : Token} (h : P t.kind) : EndsWith P (us ++ [t]) :=
  ⟨us, t, rfl, h⟩

theorem append (us : List Token) (h : EndsWith P ts) : EndsWith P (us ++ ts) := by
  obtain ⟨vs, t, rfl, ht⟩ := h
  exact ⟨us ++ vs, t, (List.append_assoc _ _ _).symm, ht⟩

theorem cons (t : Token) (h : EndsWith P ts) : EndsWith P (t :: ts) := h.append [t]

theorem mono {Q : TokenKind → Prop} (h : EndsWith P ts) (hPQ : ∀ kind, P kind → Q kind) :
    EndsWith Q ts := by
  obtain ⟨us, t, hts, ht⟩ := h
  exact ⟨us, t, hts, hPQ _ ht⟩

end EndsWith

namespace TokenKind

def EndsExpression (kind : TokenKind) : Prop :=
  kind ∈ [.ident, .int, .string, .trueWord, .falseWord, .rightParen, .rightBracket, .rightBrace]

def EndsStatement (kind : TokenKind) : Prop := kind = .returnWord ∨ kind.EndsExpression

end TokenKind

def Phrase.Ends : Phrase → List Token → Prop
  | .expression _ _, ts => EndsWith TokenKind.EndsExpression ts
  | .block _, ts => EndsWith (· = .rightBrace) ts
  | .statement _, ts => EndsWith TokenKind.EndsStatement ts
  | .statements _, _ => True

theorem Derives.ends {x : Phrase} {ts : List Token} (h : Derives x ts) : x.Ends ts := by
  have of_block {us : List Token} (h : EndsWith (· = .rightBrace) us) :
      EndsWith TokenKind.EndsExpression us := h.mono fun kind hk => by
    simp [TokenKind.EndsExpression, hk]
  induction h with
  | identifier h | string h | trueWord h | falseWord h | integer h _ =>
    exact .snoc [] (by simp [TokenKind.EndsExpression, h])
  | group _ _ hc _ | array _ _ _ hc _ | hash _ _ _ _ _ hc _ _ =>
    exact .cons _ (.snoc _ (by simp [TokenKind.EndsExpression, hc]))
  | call _ _ _ _ _ hc _ _ | index _ _ _ _ hc _ _ =>
    exact .append _ (.cons _ (.snoc _ (by simp [TokenKind.EndsExpression, hc])))
  | prefixed _ _ _ ih => exact .cons _ ih
  | binary _ _ _ _ _ ih => exact .append _ (.cons _ ih)
  | conditional _ _ _ _ _ _ ih => exact .cons _ (.cons _ (.append _ (.cons _ (of_block ih))))
  | alternative _ _ _ _ _ _ _ _ _ ih =>
    exact .cons _ (.cons _ (.append _ (.cons _ (.append _ (.cons _ (of_block ih))))))
  | function _ _ _ _ _ _ ih => exact .cons _ (.cons _ (.append _ (.cons _ (of_block ih))))
  | block _ _ hc _ => exact ⟨_ :: _, _, rfl, hc⟩
  | binding _ _ _ _ ih => exact .cons _ (.cons _ (.cons _ (ih.mono fun _ => .inr)))
  | bareReturn h => exact .snoc [] (.inl h)
  | returning _ _ ih => exact .cons _ (ih.mono fun _ => .inr)
  | expression _ ih => exact ih.mono fun _ => .inr
  | nil | ended | unended => trivial

end Treewalk
