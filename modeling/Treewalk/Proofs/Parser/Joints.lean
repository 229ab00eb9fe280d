import Mathlib.Algebra.GroupWithZero.Nat
import Treewalk.Proofs.Parser.Derivation
import Treewalk.Proofs.Program.Tokens

/-!
# Joints

An operator goes on with the expression before it, and a value with the `return` before it. Where a
text has such a joint shows in two neighbouring tokens, and a tree has as many as its text.
-/

namespace Treewalk

/-! ## Joints of texts -/

/-- What stands before a token: an expression that can be gone on with, the word `return`, or
neither. -/
inductive Stand
  | fresh | whole | returning

/-- What stands before the token behind one of the kind. -/
def TokenKind.stand : TokenKind → Stand
  | .ident | .int | .string | .trueWord | .falseWord => .whole
  | .rightParen | .rightBracket | .rightBrace => .whole
  | .returnWord => .returning
  | _ => .fresh

namespace Stand

/-- A token of the kind goes on with what stands before it. A semicolon that ends nothing counts as
well; there is none in a program. -/
def goesOn : Stand → TokenKind → Bool
  | fresh, kind => kind = .semicolon
  | whole, kind => 0 < (Precedence.ofKind kind).rank
  | returning, kind => kind ≠ .semicolon ∧ kind ≠ .rightBrace

/-- What stands behind the tokens. -/
def behind (s : Stand) (ts : List Token) : Stand := (ts.getLast?.map (·.kind.stand)).getD s

theorem behind_cons (s : Stand) (t : Token) (ts : List Token) :
    s.behind (t :: ts) = t.kind.stand.behind ts := by
  unfold behind
  rw [List.getLast?_cons]
  cases ts.getLast? <;> rfl

end Stand

/-- The tokens that go on with what stands before them. -/
def joints : Stand → List Token → Nat
  | _, [] => 0
  | s, t :: ts => (s.goesOn t.kind).toNat + joints t.kind.stand ts

@[simp] theorem joints_nil (s : Stand) : joints s [] = 0 := rfl

@[simp] theorem joints_cons (s : Stand) (t : Token) (ts : List Token) :
    joints s (t :: ts) = (s.goesOn t.kind).toNat + joints t.kind.stand ts := rfl

theorem joints_append (s : Stand) (ts us : List Token) :
    joints s (ts ++ us) = joints s ts + joints (s.behind ts) us := by
  induction ts generalizing s with
  | nil => exact (Nat.zero_add _).symm
  | cons t ts ih =>
    rw [List.cons_append, joints_cons, joints_cons, ih, Stand.behind_cons, Nat.add_assoc]

def TokenKind.Closing (kind : TokenKind) : Prop :=
  kind = .rightParen ∨ kind = .rightBracket ∨ kind = .rightBrace

section

variable {t : Token} {kind : TokenKind} {ts : List Token}

/-! ### A first token without a joint -/

theorem joints_word (h : t.kind.stand = .whole) (rest : List Token) :
    joints .fresh (t :: rest) = joints .whole rest := by
  have hfresh : Stand.fresh.goesOn t.kind = false := by
    cases hk : t.kind <;> simp_all [TokenKind.stand, Stand.goesOn]
  simp [hfresh, h]

theorem joints_opener (h : t.kind = kind) (rest : List Token)
    (hstand : kind.stand = .fresh := by rfl) (hk : kind ≠ .semicolon := by decide) :
    joints .fresh (t :: rest) = joints .fresh rest := by
  simp [Stand.goesOn, h, hstand, hk]

theorem joints_separator (h : t.kind = kind) (rest : List Token)
    (hrank : (Precedence.ofKind kind).rank = 0 := by rfl)
    (hstand : kind.stand = .fresh := by rfl) :
    joints .whole (t :: rest) = joints .fresh rest := by
  simp [Stand.goesOn, h, hrank, hstand]

theorem joints_closing {s : Stand} (h : t.kind.Closing) (hs : s ≠ .returning) (rest : List Token) :
    joints s (t :: rest) = joints .whole rest := by
  rcases h with h | h | h <;> cases s <;>
    simp_all [Stand.goesOn, TokenKind.stand, Precedence.ofKind, Precedence.rank]

theorem joints_brace {s : Stand} (h : t.kind = .leftBrace) (hs : s ≠ .returning)
    (rest : List Token) : joints s (t :: rest) = joints .fresh rest := by
  cases s with
  | returning => exact absurd rfl hs
  | fresh => exact joints_opener h rest
  | whole => exact joints_separator h rest

theorem joints_return (h : t.kind = .returnWord) (rest : List Token) :
    joints .fresh (t :: rest) = joints .returning rest := by
  simp [Stand.goesOn, TokenKind.stand, h]

theorem joints_closed (h : ∀ t ∈ ts.head?, t.kind = .rightBrace) (s s' : Stand) :
    joints s ts = joints s' ts := by
  cases ts with
  | nil => rfl
  | cons t ts =>
    have hnone (s : Stand) : s.goesOn t.kind = false := by
      rw [h t rfl]
      cases s <;> rfl
    rw [joints_cons, joints_cons, hnone, hnone]

theorem joints_apart (h : StartsWith TokenKind.StartsStatement ts) (hrank : leadRank ts = 0)
    (rest : List Token) : joints .whole (ts ++ rest) = joints .fresh (ts ++ rest) := by
  obtain ⟨t, us, rfl, ht⟩ := h
  have hrank : (Precedence.ofKind t.kind).rank = 0 := hrank
  have hsemicolon : t.kind ≠ .semicolon := fun hk => by
    simp [hk, TokenKind.StartsStatement, TokenKind.StartsExpression] at ht
  simp [Stand.goesOn, hrank, hsemicolon]

/-! ### A first token with a joint -/

theorem joints_operator (h : t.kind = kind) (rest : List Token)
    (hrank : 0 < (Precedence.ofKind kind).rank := by decide) :
    joints .whole (t :: rest) = 1 + joints .fresh rest := by
  have hstand : kind.stand = .fresh := by
    cases kind <;> simp_all [TokenKind.stand, Precedence.ofKind, Precedence.rank]
  simp [Stand.goesOn, h, hrank, hstand]

theorem joints_value (h : StartsWith TokenKind.StartsExpression ts) (rest : List Token) :
    joints .returning (ts ++ rest) = 1 + joints .fresh (ts ++ rest) := by
  obtain ⟨t, us, rfl, ht⟩ := h
  have hvalue : Stand.returning.goesOn t.kind = true ∧ Stand.fresh.goesOn t.kind = false := by
    cases hk : t.kind <;> simp_all [TokenKind.StartsExpression, Stand.goesOn]
  simp [hvalue]

end

/-! ## Joints of trees -/

mutual

/-- The calls, indexings and binary operations, and the `return`s of a value. -/
def Expr.joints : Expr → Nat
  | .identifier _ | .integer _ _ | .boolean _ _ | .string _ => 0
  | .prefixed _ _ operand => operand.joints
  | .binary _ _ left right => left.joints + 1 + right.joints
  | .conditional _ condition consequence alternative =>
    condition.joints + consequence.joints + jointsElse alternative
  | .function _ _ body => body.joints
  | .call _ callee arguments => callee.joints + 1 + jointsAll arguments
  | .array _ elements => jointsAll elements
  | .hash _ pairs => jointsPairs pairs
  | .index _ base position => base.joints + 1 + position.joints

def jointsAll : List Expr → Nat
  | [] => 0
  | e :: es => e.joints + jointsAll es

def jointsPairs : List (Expr × Expr) → Nat
  | [] => 0
  | (key, value) :: pairs => key.joints + value.joints + jointsPairs pairs

def jointsElse : Option Block → Nat
  | none => 0
  | some block => block.joints

def jointsValue : Option Expr → Nat
  | none => 0
  | some value => 1 + value.joints

def Statement.joints : Statement → Nat
  | .binding _ _ value => value.joints
  | .returning _ value => jointsValue value
  | .expression _ value => value.joints

def jointsStatements : List Statement → Nat
  | [] => 0
  | s :: ss => s.joints + jointsStatements ss

def Block.joints : Block → Nat
  | ⟨_, statements⟩ => jointsStatements statements

end

section

variable (f g : Token → Token)

mutual

theorem Expr.joints_mapTokens : ∀ e : Expr, (e.mapTokens f g).joints = e.joints
  | .identifier _ | .integer _ _ | .boolean _ _ | .string _ => rfl
  | .prefixed _ _ a => by simp [Expr.mapTokens, Expr.joints, Expr.joints_mapTokens a]
  | .binary _ _ a b | .index _ a b => by
    simp [Expr.mapTokens, Expr.joints, Expr.joints_mapTokens a, Expr.joints_mapTokens b]
  | .conditional _ a b c => by
    simp [Expr.mapTokens, Expr.joints, Expr.joints_mapTokens a, Block.joints_mapTokens b,
      jointsElse_mapTokensElse c]
  | .function _ _ b => by simp [Expr.mapTokens, Expr.joints, Block.joints_mapTokens b]
  | .call _ a as => by
    simp [Expr.mapTokens, Expr.joints, Expr.joints_mapTokens a, jointsAll_mapTokensAll as]
  | .array _ as => by simp [Expr.mapTokens, Expr.joints, jointsAll_mapTokensAll as]
  | .hash _ ps => by simp [Expr.mapTokens, Expr.joints, jointsPairs_mapTokensPairs ps]

theorem jointsAll_mapTokensAll : ∀ es : List Expr, jointsAll (mapTokensAll f g es) = jointsAll es
  | [] => rfl
  | e :: es => by
    simp [mapTokensAll, jointsAll, Expr.joints_mapTokens e, jointsAll_mapTokensAll es]

theorem jointsPairs_mapTokensPairs : ∀ ps : List (Expr × Expr),
    jointsPairs (mapTokensPairs f g ps) = jointsPairs ps
  | [] => rfl
  | (k, v) :: ps => by
    simp [mapTokensPairs, jointsPairs, Expr.joints_mapTokens k, Expr.joints_mapTokens v,
      jointsPairs_mapTokensPairs ps]

theorem jointsElse_mapTokensElse : ∀ b : Option Block,
    jointsElse (mapTokensElse f g b) = jointsElse b
  | none => rfl
  | some b => by simp [mapTokensElse, jointsElse, Block.joints_mapTokens b]

theorem jointsValue_mapTokensValue : ∀ e : Option Expr,
    jointsValue (mapTokensValue f g e) = jointsValue e
  | none => rfl
  | some e => by simp [mapTokensValue, jointsValue, Expr.joints_mapTokens e]

theorem Statement.joints_mapTokens : ∀ s : Statement, (s.mapTokens f g).joints = s.joints
  | .binding _ _ e | .expression _ e => by
    simp [Statement.mapTokens, Statement.joints, Expr.joints_mapTokens e]
  | .returning _ e => by
    simp [Statement.mapTokens, Statement.joints, jointsValue_mapTokensValue e]

theorem jointsStatements_mapTokensStatements : ∀ ss : List Statement,
    jointsStatements (mapTokensStatements f g ss) = jointsStatements ss
  | [] => rfl
  | s :: ss => by
    simp [mapTokensStatements, jointsStatements, Statement.joints_mapTokens s,
      jointsStatements_mapTokensStatements ss]

theorem Block.joints_mapTokens : ∀ b : Block, (b.mapTokens f g).joints = b.joints
  | ⟨_, ss⟩ => by simp [Block.mapTokens, Block.joints, jointsStatements_mapTokensStatements ss]

end

end

theorem jointsStatements_of_unlined {ss ss' : List Statement}
    (h : ss'.map Statement.unlined = ss.map Statement.unlined) :
    jointsStatements ss' = jointsStatements ss := by
  rw [← jointsStatements_mapTokensStatements Token.unlined Token.unlined ss',
    ← jointsStatements_mapTokensStatements Token.unlined Token.unlined ss,
    mapTokensStatements_eq_map, mapTokensStatements_eq_map, h]

/-! ## Lists -/

/-- Behind the text, with so many joints, a whole expression stands. -/
def Weighs (ts : List Token) (n : Nat) : Prop :=
  ∀ rest, joints .fresh (ts ++ rest) = n + joints .whole rest

theorem weighs_word {t : Token} (h : t.kind.stand = .whole) : Weighs [t] 0 := by
  intro rest
  rw [List.singleton_append, joints_word h, Nat.zero_add]

theorem SpelledPair.weighs {x : SpelledPair} {m n : Nat} (hkey : Weighs x.keyText m)
    (hcolon : x.colon.kind = .colon) (hvalue : Weighs x.valueText n) : Weighs x.text (m + n) := by
  intro rest
  rw [SpelledPair.text, List.append_assoc, List.cons_append, hkey, joints_separator hcolon, hvalue,
    Nat.add_assoc]

section Lists

variable {α : Type} {text : α → List Token} {weight : α → Nat} {xs : List α} {us : List Token}
  {c : Token}

theorem CommaLed.joints (h : CommaLed (xs.map text) us) (hxs : ∀ x ∈ xs, Weighs (text x) (weight x))
    (rest : List Token) :
    joints .whole (us ++ rest) = (xs.map weight).sum + joints .whole rest := by
  induction xs generalizing us with
  | nil =>
    cases h
    simp
  | cons x xs ih =>
    obtain ⟨hx, hxs⟩ := List.forall_mem_cons.1 hxs
    rw [List.map_cons] at h
    cases h with
    | @cons d _ vs _ hd hled =>
      rw [List.cons_append, List.append_assoc, joints_separator hd, hx, ih hled hxs, List.map_cons,
        List.sum_cons, Nat.add_assoc]

theorem CommaSeparated.joints (h : CommaSeparated (xs.map text) us)
    (hxs : ∀ x ∈ xs, Weighs (text x) (weight x)) (hc : c.kind.Closing) (rest : List Token) :
    joints .fresh (us ++ c :: rest) = (xs.map weight).sum + joints .whole rest := by
  cases xs with
  | nil =>
    cases h
    rw [List.nil_append, joints_closing hc (by simp)]
    simp
  | cons x xs =>
    obtain ⟨hx, hxs⟩ := List.forall_mem_cons.1 hxs
    rw [List.map_cons] at h
    cases h with
    | cons hled =>
      rw [List.append_assoc, hx, hled.joints hxs, joints_closing hc (by simp), List.map_cons,
        List.sum_cons, Nat.add_assoc]

theorem CommaEnded.joints (h : CommaEnded (xs.map text) us)
    (hxs : ∀ x ∈ xs, Weighs (text x) (weight x)) (hc : c.kind.Closing) (rest : List Token) :
    joints .fresh (us ++ c :: rest) = (xs.map weight).sum + joints .whole rest := by
  induction xs generalizing us with
  | nil =>
    cases h
    rw [List.nil_append, joints_closing hc (by simp)]
    simp
  | cons x xs ih =>
    obtain ⟨hx, hxs⟩ := List.forall_mem_cons.1 hxs
    rw [List.map_cons] at h
    generalize htexts : xs.map text = texts at h
    cases h with
    | last =>
      obtain rfl : xs = [] := by simpa using htexts
      rw [hx, joints_closing hc (by simp)]
      simp
    | cons hd hended =>
      subst htexts
      rw [List.append_assoc, hx, List.cons_append, joints_separator hd, ih hended hxs,
        List.map_cons, List.sum_cons, Nat.add_assoc]

end Lists

theorem jointsAll_eq_sum (es : List Expr) : jointsAll es = (es.map Expr.joints).sum := by
  induction es with
  | nil => rfl
  | cons e es ih => rw [jointsAll, ih, List.map_cons, List.sum_cons]

theorem jointsPairs_eq_sum (ps : List (Expr × Expr)) :
    jointsPairs ps = (ps.map fun p => p.1.joints + p.2.joints).sum := by
  induction ps with
  | nil => rfl
  | cons p ps ih => rw [jointsPairs, ih, List.map_cons, List.sum_cons]

/-! ## Phrases -/

/-- What stands behind a statement. -/
def Statement.stand : Statement → Stand
  | .returning _ none => .returning
  | _ => .whole

theorem joints_semicolon {t : Token} (h : t.kind = .semicolon) (s : Statement)
    (rest : List Token) : joints s.stand (t :: rest) = joints .fresh rest := by
  have hends : s.stand.goesOn .semicolon = false := by
    cases s with
    | returning _ value => cases value <;> rfl
    | _ => rfl
  simp [h, hends, TokenKind.stand]

theorem joints_openTo {s : Statement} {ss : List Statement} {us rest : List Token}
    (h : s.OpenTo us) (hss : Derives (.statements ss) us)
    (hrest : ∀ t ∈ rest.head?, t.kind = .rightBrace) :
    joints s.stand (us ++ rest) = joints .fresh (us ++ rest) := by
  rcases hss.starts with rfl | hstarts
  · exact joints_closed hrest _ _
  · have hstand : s.stand = .whole ∧ leadRank us = 0 := by
      obtain ⟨t, us, rfl, -⟩ := hstarts
      cases s with
      | returning _ value =>
        cases value with
        | none => cases h
        | some => exact ⟨rfl, h⟩
      | _ => exact ⟨rfl, h⟩
    rw [hstand.1]
    exact joints_apart hstarts hstand.2 rest

/-- The text of the phrase has as many joints as its tree, whatever may stand behind it. -/
def Phrase.Joins : Phrase → List Token → Prop
  | .expression _ e, ts => Weighs ts e.joints
  | .block b, ts => ∀ s rest, s ≠ .returning →
    joints s (ts ++ rest) = b.joints + joints .whole rest
  | .statement s, ts => ∀ rest, joints .fresh (ts ++ rest) = s.joints + joints s.stand rest
  | .statements ss, ts => ∀ rest, (∀ t ∈ rest.head?, t.kind = .rightBrace) →
    joints .fresh (ts ++ rest) = jointsStatements ss + joints .whole rest

theorem PrefixOp.stand {kind : TokenKind} {op : PrefixOp} (h : PrefixOp.ofKind? kind = some op) :
    kind.stand = .fresh ∧ kind ≠ .semicolon := by
  cases kind <;> simp_all [PrefixOp.ofKind?, TokenKind.stand]

theorem InfixOp.rank_pos {kind : TokenKind} {op : InfixOp} (h : InfixOp.ofKind? kind = some op) :
    0 < (Precedence.ofKind kind).rank := by
  cases kind <;> simp_all [InfixOp.ofKind?, Precedence.ofKind, Precedence.rank]

/-- A text has as many joints as the tree that it spells. -/
theorem Derives.joins {x : Phrase} {ts : List Token} (h : Derives x ts) : x.Joins ts := by
  induction h with
  | identifier ht | integer ht _ | string ht | trueWord ht | falseWord ht =>
    exact weighs_word (by rw [ht]; rfl)
  -- no joint falls behind what begins something, nor before what closes it
  | group ho _ hc ih =>
    intro rest
    simp only [List.cons_append, List.append_assoc, List.nil_append]
    rw [joints_opener ho, ih, joints_closing (.inl hc) (by simp)]
  | prefixed _ hop _ ih =>
    intro rest
    obtain ⟨hstand, hk⟩ := PrefixOp.stand hop
    exact (joints_opener rfl _ hstand hk).trans (ih rest)
  | binary _ hop _ _ ihx ihy =>
    intro rest
    rw [List.append_assoc, List.cons_append, ihx, joints_operator rfl _ (InfixOp.rank_pos hop),
      ihy, Expr.joints]
    omega
  | @call _ _ _ _ _ _ arguments _ ho _ _ hus hc ihf iha =>
    intro rest
    have iha : ∀ a ∈ arguments, Weighs a.2 a.1.joints := iha
    simp only [List.cons_append, List.append_assoc, List.nil_append]
    rw [ihf, joints_operator ho, hus.joints iha (.inl hc), Expr.joints, jointsAll_eq_sum,
      List.map_map, Function.comp_def]
    omega
  | index _ ho _ _ hc ihb ihp =>
    intro rest
    simp only [List.cons_append, List.append_assoc, List.nil_append]
    rw [ihb, joints_operator ho, ihp, joints_closing (.inr (.inl hc)) (by simp), Expr.joints]
    omega
  | @array _ _ _ elements _ ho _ hus hc iha =>
    intro rest
    have iha : ∀ a ∈ elements, Weighs a.2 a.1.joints := iha
    simp only [List.cons_append, List.append_assoc, List.nil_append]
    rw [joints_opener ho, hus.joints iha (.inr (.inl hc)), Expr.joints, jointsAll_eq_sum,
      List.map_map, Function.comp_def]
  | @hash _ _ _ pairs _ ho _ hcolons _ hus hc ihk ihv =>
    intro rest
    have hpairs : ∀ x ∈ pairs, Weighs x.text (x.key.joints + x.value.joints) := fun x hx =>
      SpelledPair.weighs (ihk x hx) (hcolons x hx) (ihv x hx)
    simp only [List.cons_append, List.append_assoc, List.nil_append]
    rw [joints_opener ho, hus.joints hpairs (.inr (.inr hc)), Expr.joints, jointsPairs_eq_sum,
      List.map_map]
    rfl
  | conditional hi ho _ hc _ ihx ihb =>
    intro rest
    simp only [List.cons_append, List.append_assoc]
    rw [joints_opener hi, joints_opener ho, ihx, joints_closing (.inl hc) (by simp),
      ihb _ _ (by simp), Expr.joints, jointsElse]
    omega
  | alternative hi ho _ hc _ hw _ ihx ihb ihd =>
    intro rest
    simp only [List.cons_append, List.append_assoc]
    rw [joints_opener hi, joints_opener ho, ihx, joints_closing (.inl hc) (by simp),
      ihb _ _ (by simp), joints_separator hw, ihd _ _ (by simp), Expr.joints, jointsElse]
    omega
  | @function _ _ _ _ parameters _ _ _ hf ho hp hus hc _ ihb =>
    intro rest
    have hparameters : ∀ p ∈ parameters, Weighs [p] 0 := fun p hm =>
      weighs_word (by rw [hp p hm]; rfl)
    simp only [List.cons_append, List.append_assoc]
    rw [joints_opener hf, joints_opener ho, hus.joints hparameters (.inl hc), ihb _ _ (by simp),
      Expr.joints, List.map_const', List.sum_replicate_nat, Nat.mul_zero, Nat.zero_add]
  | @block _ c _ _ ho _ hc ih =>
    intro s rest hs
    simp only [List.cons_append, List.append_assoc, List.nil_append]
    rw [joints_brace ho hs, ih (c :: rest) (by simp [hc]),
      joints_closing (.inr (.inr hc)) (by simp), Block.joints]
  | binding hl hn ha _ ih =>
    intro rest
    simp only [List.cons_append]
    rw [joints_opener hl, joints_word (by rw [hn]; rfl), joints_separator ha, ih]
    rfl
  | bareReturn hr =>
    intro rest
    rw [List.singleton_append, joints_return hr]
    exact (Nat.zero_add _).symm
  | returning hr hd ih =>
    intro rest
    rw [List.cons_append, joints_return hr, joints_value hd.starts, ih, ← Nat.add_assoc]
    rfl
  | expression _ ih => exact ih
  | nil =>
    intro rest hrest
    rw [List.nil_append, joints_closed hrest .fresh .whole]
    exact (Nat.zero_add _).symm
  | ended _ hc _ ihs ihss =>
    intro rest hrest
    rw [List.append_assoc, List.cons_append, ihs, joints_semicolon hc, ihss rest hrest,
      ← Nat.add_assoc]
    rfl
  -- what a statement is open to does not go on with it, so no joint is between them
  | unended _ hopen hss ihs ihss =>
    intro rest hrest
    rw [List.append_assoc, ihs, joints_openTo hopen hss hrest, ihss rest hrest, ← Nat.add_assoc]
    rfl

theorem Derives.joints_eq {p : Program} {ts : List Token} (h : Derives (.statements p) ts) :
    joints .fresh ts = jointsStatements p := by
  have hjoins := h.joins [] (by simp)
  rwa [List.append_nil] at hjoins

end Treewalk
