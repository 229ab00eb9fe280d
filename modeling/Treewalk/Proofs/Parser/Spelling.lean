import Mathlib.Algebra.Group.Nat.Defs
import Treewalk.Proofs.Parser.Faithful
import Treewalk.Proofs.Parser.Lines

/-!
# Spelling programs

Every tree whose tokens fit its forms can be spelled, and parses back from its spelling. Operations
stand in parentheses, and so may everything else, as often as one likes.
-/

namespace Treewalk

/-! ## Trees that can be spelled -/

mutual

/-- The tokens of the expression fit its forms: words are identifiers, integers decimal numerals
that 64 bits hold. The text of strings is free. -/
def Expr.Spellable : Expr → Prop
  | .identifier t => t.kind = .ident
  | .integer t value =>
    t.kind = .int ∧ ∃ n, readDigits t.literal.toList = some n ∧ n < 2 ^ 63 ∧ value = .ofNat n
  | .boolean t value => t.kind = if value then .trueWord else .falseWord
  | .string t => t.kind = .string
  | .prefixed t op operand => PrefixOp.ofKind? t.kind = some op ∧ operand.Spellable
  | .binary t op left right =>
    InfixOp.ofKind? t.kind = some op ∧ left.Spellable ∧ right.Spellable
  | .conditional t condition consequence alternative =>
    t.kind = .ifWord ∧ condition.Spellable ∧ consequence.Spellable ∧ SpellableElse alternative
  | .function t parameters body =>
    t.kind = .function ∧ (∀ p ∈ parameters, p.kind = .ident) ∧ body.Spellable
  | .call t callee arguments => t.kind = .leftParen ∧ callee.Spellable ∧ SpellableAll arguments
  | .array t elements => t.kind = .leftBracket ∧ SpellableAll elements
  | .hash t pairs => t.kind = .leftBrace ∧ SpellablePairs pairs
  | .index t base position => t.kind = .leftBracket ∧ base.Spellable ∧ position.Spellable

def SpellableAll : List Expr → Prop
  | [] => True
  | e :: es => e.Spellable ∧ SpellableAll es

def SpellablePairs : List (Expr × Expr) → Prop
  | [] => True
  | (key, value) :: pairs => (key.Spellable ∧ value.Spellable) ∧ SpellablePairs pairs

def SpellableElse : Option Block → Prop
  | none => True
  | some block => block.Spellable

def SpellableValue : Option Expr → Prop
  | none => True
  | some value => value.Spellable

/-- Any token may be kept of the expression of an expression statement. -/
def Statement.Spellable : Statement → Prop
  | .binding t name value => t.kind = .letWord ∧ name.kind = .ident ∧ value.Spellable
  | .returning t value => t.kind = .returnWord ∧ SpellableValue value
  | .expression _ value => value.Spellable

def SpellableStatements : List Statement → Prop
  | [] => True
  | s :: ss => s.Spellable ∧ SpellableStatements ss

def Block.Spellable : Block → Prop
  | ⟨t, statements⟩ => t.kind = .leftBrace ∧ SpellableStatements statements

end

def Program.Spellable (p : Program) : Prop := SpellableStatements p

/-! ## Their spelling -/

/-- How many parentheses stand around a part beyond those that it needs. Parts are found by the
path to them. -/
abbrev Padding := List Nat → Nat

def Padding.at (n : Padding) (i : Nat) : Padding := fun path => n (i :: path)

/-- A token that is written as its kind is named. -/
def Token.mark (kind : TokenKind) : Token := ⟨kind, kind.name, 1⟩

def parenthesized : Nat → List Token → List Token
  | 0, ts => ts
  | n + 1, ts => .mark .leftParen :: (parenthesized n ts ++ [.mark .rightParen])

def withCommas (tss : List (List Token)) : List Token := [Token.mark .comma].intercalate tss

mutual

/-- The tokens of an expression, and between them what its form needs. Operators and indices are
always in parentheses, with what they apply to. -/
def Expr.spell (n : Padding) : Expr → List Token
  | .identifier t | .integer t _ | .boolean t _ | .string t => parenthesized (n []) [t]
  | .prefixed t _ operand => parenthesized (n [] + 1) (t :: operand.spell (n.at 0))
  | .binary t _ left right =>
    parenthesized (n [] + 1) (left.spell (n.at 0) ++ t :: right.spell (n.at 1))
  | .conditional t condition consequence alternative =>
    parenthesized (n []) (t :: .mark .leftParen :: (condition.spell (n.at 0) ++
      .mark .rightParen :: (consequence.spell (n.at 1) ++ spellElse (n.at 2) alternative)))
  | .function t parameters body =>
    parenthesized (n []) (t :: .mark .leftParen :: (withCommas (parameters.map ([·])) ++
      .mark .rightParen :: body.spell (n.at 0)))
  | .call t callee arguments =>
    parenthesized (n []) (callee.spell (n.at 0) ++ t ::
      (withCommas (spellAll (n.at 1) arguments) ++ [.mark .rightParen]))
  | .array t elements =>
    parenthesized (n []) (t ::
      (withCommas (spellAll (n.at 0) elements) ++ [.mark .rightBracket]))
  | .hash t pairs =>
    parenthesized (n []) (t :: (withCommas (spellPairs (n.at 0) pairs) ++ [.mark .rightBrace]))
  | .index t base position =>
    parenthesized (n [] + 1) (base.spell (n.at 0) ++ t ::
      (position.spell (n.at 1) ++ [.mark .rightBracket]))

def spellAll (n : Padding) : List Expr → List (List Token)
  | [] => []
  | e :: es => e.spell (n.at 0) :: spellAll (n.at 1) es

def spellPairs (n : Padding) : List (Expr × Expr) → List (List Token)
  | [] => []
  | (key, value) :: pairs =>
    (key.spell (n.at 0) ++ .mark .colon :: value.spell (n.at 1)) :: spellPairs (n.at 2) pairs

def spellElse (n : Padding) : Option Block → List Token
  | none => []
  | some block => ⟨.elseWord, "else", 1⟩ :: block.spell n

def spellValue (n : Padding) : Option Expr → List Token
  | none => []
  | some value => value.spell n

/-- A statement without its semicolon. -/
def Statement.spell (n : Padding) : Statement → List Token
  | .binding t name value => t :: name :: .mark .assign :: value.spell n
  | .returning t value => t :: spellValue n value
  | .expression _ value => value.spell n

/-- Each statement ends in a semicolon. -/
def spellStatements (n : Padding) : List Statement → List Token
  | [] => []
  | s :: ss => s.spell (n.at 0) ++ .mark .semicolon :: spellStatements (n.at 1) ss

def Block.spell (n : Padding) : Block → List Token
  | ⟨t, statements⟩ => t :: (spellStatements n statements ++ [.mark .rightBrace])

end

def Program.spell (n : Padding) (p : Program) : List Token := spellStatements n p

/-! ## The pieces of a spelling -/

theorem readInt64_of_readDigits {s : String} {n : Nat} (h : readDigits s.toList = some n)
    (hn : n < 2 ^ 63) : readInt64 s = some (.ofNat n) := by
  have hdigits : s.toList.all Char.isDigit := by
    unfold readDigits at h
    split at h
    · rename_i hall
      exact hall.2
    · cases h
  have hsigned : readSigned s.toList = some (n : Int) := by
    unfold readSigned
    split
    · rename_i heq
      simp [heq] at hdigits
    · rename_i heq
      simp [heq] at hdigits
    · rw [h]
      rfl
  have hfits : fitsInt64 n := by
    have hmax : Int64.maxValue.toInt = 2 ^ 63 - 1 := by decide
    have hmin : Int64.minValue.toInt = -2 ^ 63 := by decide
    rw [fitsInt64, hmax, hmin, Bool.and_eq_true, decide_eq_true_eq, decide_eq_true_eq]
    omega
  rw [readInt64, hsigned]
  simp only [hfits, if_true, Int64.ofInt_eq_ofNat]

theorem commaLed_flatMap (tss : List (List Token)) :
    CommaLed tss (tss.flatMap fun ts => Token.mark .comma :: ts) := by
  induction tss with
  | nil => exact .nil
  | cons ts tss ih => exact .cons rfl ih

theorem withCommas_cons (ts : List Token) (tss : List (List Token)) :
    withCommas (ts :: tss) = ts ++ tss.flatMap fun us => Token.mark .comma :: us := by
  induction tss generalizing ts with
  | nil => simp [withCommas, List.intercalate]
  | cons us tss ih =>
    have hcons : withCommas (ts :: us :: tss) =
        ts ++ Token.mark .comma :: withCommas (us :: tss) := by
      simp [withCommas, List.intercalate, List.intersperse]
    rw [hcons, ih, List.flatMap_cons]
    rfl

theorem commaSeparated_withCommas (tss : List (List Token)) :
    CommaSeparated tss (withCommas tss) := by
  cases tss with
  | nil => exact .nil
  | cons ts tss =>
    rw [withCommas_cons]
    exact .cons (commaLed_flatMap tss)

theorem commaEnded_withCommas (tss : List (List Token)) : CommaEnded tss (withCommas tss) := by
  induction tss with
  | nil => exact .nil
  | cons ts tss ih =>
    cases tss with
    | nil =>
      rw [withCommas_cons, List.flatMap_nil, List.append_nil]
      exact .last
    | cons us tss =>
      rw [withCommas_cons] at ih
      rw [withCommas_cons, List.flatMap_cons]
      exact .cons rfl ih

theorem derives_parenthesized_succ {k j : Nat} {e : Expr} {ts : List Token}
    (h : Derives (.expression k e) ts) (n : Nat) :
    Derives (.expression j e) (parenthesized (n + 1) ts) := by
  induction n generalizing j with
  | zero => exact .group rfl (h.weaken (Nat.zero_le k)) rfl
  | succ n ih => exact .group rfl ih rfl

theorem derives_parenthesized {k : Nat} {e : Expr} {ts : List Token}
    (h : Derives (.expression k e) ts) (n : Nat) :
    Derives (.expression k e) (parenthesized n ts) := by
  cases n with
  | zero => exact h
  | succ n => exact derives_parenthesized_succ h n

/-! ## Spellings are derived -/

section Forms

/-- The text spells the expression at any level, up to lines and to what expression statements
keep. -/
def Expr.SpelledBy (e : Expr) (ts : List Token) : Prop :=
  ∃ e', Derives (.expression Precedence.call.rank e') ts ∧ e'.bare = e.bare

variable {e : Expr} {ts : List Token}

theorem Expr.SpelledBy.parenthesized (h : e.SpelledBy ts) (n : Nat) :
    e.SpelledBy (parenthesized n ts) := by
  obtain ⟨e', he, heq⟩ := h
  exact ⟨e', derives_parenthesized he n, heq⟩

theorem Expr.spelledBy_of_derives {k : Nat} {e' : Expr} (h : Derives (.expression k e') ts)
    (heq : e'.bare = e.bare) (n : Nat) : e.SpelledBy (Treewalk.parenthesized (n + 1) ts) :=
  ⟨e', derives_parenthesized_succ h n, heq⟩

end Forms

mutual

theorem Expr.spell_spelledBy : ∀ (e : Expr) (n : Padding), e.Spellable → e.SpelledBy (e.spell n)
  | .identifier t, n, h => .parenthesized ⟨_, .identifier h, rfl⟩ (n [])
  | .integer t value, n, ⟨ht, m, hm, hlt, hvalue⟩ => by
    have hread : readInt64 t.literal = some value := hvalue ▸ readInt64_of_readDigits hm hlt
    exact .parenthesized ⟨_, .integer ht hread, rfl⟩ (n [])
  | .boolean t true, n, h => .parenthesized ⟨_, .trueWord h, rfl⟩ (n [])
  | .boolean t false, n, h => .parenthesized ⟨_, .falseWord h, rfl⟩ (n [])
  | .string t, n, h => .parenthesized ⟨_, .string h, rfl⟩ (n [])
  | .prefixed t op operand, n, ⟨hop, h⟩ => by
    obtain ⟨e, he, heq⟩ := operand.spell_spelledBy (n.at 0) h
    have hd := Derives.prefixed (Nat.zero_le _) hop (he.weaken (by decide))
    exact Expr.spelledBy_of_derives hd (by simp [Expr.mapTokens, heq]) (n [])
  | .binary t op left right, n, ⟨hop, hl, hr⟩ => by
    have hrank := rank_lt_prefixed hop
    obtain ⟨l, hl, hleq⟩ := left.spell_spelledBy (n.at 0) hl
    obtain ⟨r, hr, hreq⟩ := right.spell_spelledBy (n.at 1) hr
    have hlevel : (Precedence.ofKind t.kind).rank + 1 ≤ Precedence.call.rank :=
      Nat.le_trans hrank (by decide)
    have hd := Derives.binary (Nat.zero_le _) hop (hl.weaken (Nat.le_of_succ_le hlevel))
      (hr.weaken hlevel)
    exact Expr.spelledBy_of_derives hd (by simp [Expr.mapTokens, hleq, hreq]) (n [])
  | .conditional t condition consequence none, n, ⟨ht, hx, hb, _⟩ => by
    obtain ⟨x, hx, hxeq⟩ := condition.spell_spelledBy (n.at 0) hx
    obtain ⟨b, hb, hbeq⟩ := consequence.spell_spelledBy (n.at 1) hb
    have hd := Derives.conditional (k := Precedence.call.rank) ht (o := .mark .leftParen) rfl
      (hx.weaken (Nat.zero_le _)) (c := .mark .rightParen) rfl hb
    rw [Expr.spell, spellElse, List.append_nil]
    exact .parenthesized ⟨_, hd, by simp [Expr.mapTokens, mapTokensElse, hxeq, hbeq]⟩ (n [])
  | .conditional t condition consequence (some alternative), n, ⟨ht, hx, hb, hc⟩ => by
    obtain ⟨x, hx, hxeq⟩ := condition.spell_spelledBy (n.at 0) hx
    obtain ⟨b, hb, hbeq⟩ := consequence.spell_spelledBy (n.at 1) hb
    obtain ⟨d, hd, hdeq⟩ := alternative.spell_spelledBy (n.at 2) hc
    have hd := Derives.alternative (k := Precedence.call.rank) ht (o := .mark .leftParen) rfl
      (hx.weaken (Nat.zero_le _)) (c := .mark .rightParen) rfl hb
      (w := ⟨.elseWord, "else", 1⟩) rfl hd
    exact .parenthesized ⟨_, hd, by simp [Expr.mapTokens, mapTokensElse, hxeq, hbeq, hdeq]⟩ (n [])
  | .function t parameters body, n, ⟨ht, hp, hb⟩ => by
    obtain ⟨b, hb, hbeq⟩ := body.spell_spelledBy (n.at 0) hb
    have hd := Derives.function (k := Precedence.call.rank) ht (o := .mark .leftParen) rfl hp
      (commaSeparated_withCommas _) (c := .mark .rightParen) rfl hb
    exact .parenthesized ⟨_, hd, by simp [Expr.mapTokens, hbeq]⟩ (n [])
  | .call t callee arguments, n, ⟨ht, hf, hxs⟩ => by
    obtain ⟨f, hf, hfeq⟩ := callee.spell_spelledBy (n.at 0) hf
    obtain ⟨xs, hxs, htexts, hxseq⟩ := spellAll_spelledBy arguments (n.at 1) hxs
    have hd := Derives.call (Nat.le_refl _) ht hf hxs (commaSeparated_withCommas _)
      (c := .mark .rightParen) rfl
    rw [htexts] at hd
    exact .parenthesized ⟨_, hd, by simp [Expr.mapTokens, mapTokensAll_eq_map, hfeq, hxseq]⟩ (n [])
  | .array t elements, n, ⟨ht, hxs⟩ => by
    obtain ⟨xs, hxs, htexts, hxseq⟩ := spellAll_spelledBy elements (n.at 0) hxs
    have hd := Derives.array (k := Precedence.call.rank) ht hxs (commaSeparated_withCommas _)
      (c := .mark .rightBracket) rfl
    rw [htexts] at hd
    exact .parenthesized ⟨_, hd, by simp [Expr.mapTokens, mapTokensAll_eq_map, hxseq]⟩ (n [])
  | .hash t pairs, n, ⟨ht, hps⟩ => by
    obtain ⟨ps, hps, htexts, hpseq⟩ := spellPairs_spelledBy pairs (n.at 0) hps
    have hd := Derives.hash (k := Precedence.call.rank) ht (fun x hx => (hps x hx).key)
      (fun x hx => (hps x hx).colon) (fun x hx => (hps x hx).value) (commaEnded_withCommas _)
      (c := .mark .rightBrace) rfl
    rw [htexts] at hd
    exact .parenthesized ⟨_, hd, by simp [Expr.mapTokens, mapTokensPairs_eq_map, hpseq]⟩ (n [])
  | .index t base position, n, ⟨ht, hb, hp⟩ => by
    obtain ⟨b, hb, hbeq⟩ := base.spell_spelledBy (n.at 0) hb
    obtain ⟨p, hp, hpeq⟩ := position.spell_spelledBy (n.at 1) hp
    have hd := Derives.index (Nat.zero_le _) ht hb (hp.weaken (Nat.zero_le _))
      (c := .mark .rightBracket) rfl
    exact Expr.spelledBy_of_derives hd (by simp [Expr.mapTokens, hbeq, hpeq]) (n [])

theorem spellAll_spelledBy : ∀ (es : List Expr) (n : Padding), SpellableAll es →
    ∃ xs : List (Expr × List Token), (∀ x ∈ xs, Derives (.expression 0 x.1) x.2) ∧
      xs.map (·.2) = spellAll n es ∧ (xs.map (·.1)).map Expr.bare = es.map Expr.bare
  | [], _, _ => ⟨[], by simp, rfl, rfl⟩
  | e :: es, n, ⟨he, hes⟩ => by
    obtain ⟨e', he, heq⟩ := e.spell_spelledBy (n.at 0) he
    obtain ⟨xs, hxs, htexts, hxseq⟩ := spellAll_spelledBy es (n.at 1) hes
    refine ⟨(e', e.spell (n.at 0)) :: xs, ?_, ?_, ?_⟩
    · exact List.forall_mem_cons.2 ⟨he.weaken (Nat.zero_le _), hxs⟩
    · rw [List.map_cons, htexts, spellAll]
    · rw [List.map_cons, List.map_cons, List.map_cons, heq, hxseq]

theorem spellPairs_spelledBy : ∀ (ps : List (Expr × Expr)) (n : Padding), SpellablePairs ps →
    ∃ xs : List SpelledPair, (∀ x ∈ xs, x.Derived) ∧ xs.map (·.text) = spellPairs n ps ∧
      (xs.map (·.pair)).map (fun (k, v) => (k.bare, v.bare)) =
        ps.map fun (k, v) => (k.bare, v.bare)
  | [], _, _ => ⟨[], by simp, rfl, rfl⟩
  | (key, value) :: ps, n, ⟨⟨hk, hv⟩, hps⟩ => by
    obtain ⟨k, hk, hkeq⟩ := key.spell_spelledBy (n.at 0) hk
    obtain ⟨v, hv, hveq⟩ := value.spell_spelledBy (n.at 1) hv
    obtain ⟨xs, hxs, htexts, hxseq⟩ := spellPairs_spelledBy ps (n.at 2) hps
    let x : SpelledPair := ⟨k, key.spell (n.at 0), .mark .colon, v, value.spell (n.at 1)⟩
    have hx : x.Derived := ⟨hk.weaken (Nat.zero_le _), rfl, hv.weaken (Nat.zero_le _)⟩
    refine ⟨x :: xs, List.forall_mem_cons.2 ⟨hx, hxs⟩, ?_, ?_⟩
    · rw [List.map_cons, htexts, spellPairs]
      rfl
    · rw [List.map_cons, List.map_cons, List.map_cons, hxseq]
      exact congrArg (· :: _) (Prod.ext hkeq hveq)

theorem Statement.spell_spelledBy : ∀ (s : Statement) (n : Padding), s.Spellable →
    ∃ s', Derives (.statement s') (s.spell n) ∧ s'.bare = s.bare
  | .binding t name value, n, ⟨ht, hname, hvalue⟩ => by
    obtain ⟨e, he, heq⟩ := value.spell_spelledBy n hvalue
    have hd := Derives.binding ht hname (a := .mark .assign) rfl (he.weaken (Nat.zero_le _))
    exact ⟨_, hd, by simp [Statement.mapTokens, heq]⟩
  | .returning t none, n, ⟨ht, _⟩ => ⟨_, .bareReturn ht, rfl⟩
  | .returning t (some value), n, ⟨ht, hvalue⟩ => by
    obtain ⟨e, he, heq⟩ := value.spell_spelledBy n hvalue
    have hd := Derives.returning ht (he.weaken (Nat.zero_le _))
    exact ⟨_, hd, by simp [Statement.mapTokens, mapTokensValue, heq]⟩
  | .expression t value, n, hvalue => by
    obtain ⟨e, he, heq⟩ := value.spell_spelledBy n hvalue
    obtain ⟨first, rest, htext, -⟩ := he.starts
    rw [htext] at he
    rw [Statement.spell, htext]
    exact ⟨_, .expression (he.weaken (Nat.zero_le _)), by simp [Statement.mapTokens, heq]⟩

theorem spellStatements_spelledBy : ∀ (ss : List Statement) (n : Padding), SpellableStatements ss →
    ∃ ss', Derives (.statements ss') (spellStatements n ss) ∧
      ss'.map Statement.bare = ss.map Statement.bare
  | [], _, _ => ⟨[], .nil, rfl⟩
  | s :: ss, n, ⟨hs, hss⟩ => by
    obtain ⟨s', hs, hseq⟩ := s.spell_spelledBy (n.at 0) hs
    obtain ⟨ss', hss, hsseq⟩ := spellStatements_spelledBy ss (n.at 1) hss
    exact ⟨s' :: ss', .ended hs rfl hss, by rw [List.map_cons, List.map_cons, hseq, hsseq]⟩

theorem Block.spell_spelledBy : ∀ (b : Block) (n : Padding), b.Spellable →
    ∃ b', Derives (.block b') (b.spell n) ∧ b'.bare = b.bare
  | ⟨t, ss⟩, n, ⟨ht, hss⟩ => by
    obtain ⟨ss', hss, hsseq⟩ := spellStatements_spelledBy ss n hss
    exact ⟨⟨t, ss'⟩, .block ht hss rfl,
      by simp [Block.mapTokens, mapTokensStatements_eq_map, hsseq]⟩

end

/-! ## Spellings parse -/

theorem Program.bare_eq_map (p : Program) : p.bare = List.map Statement.bare p :=
  mapTokensStatements_eq_map _ _ p

theorem map_bare_of_unlined {ss ss' : List Statement}
    (h : ss.map Statement.unlined = ss'.map Statement.unlined) :
    ss.map Statement.bare = ss'.map Statement.bare := by
  have hbare (ss : List Statement) :
      (ss.map Statement.unlined).map Statement.bare = ss.map Statement.bare := by
    rw [List.map_map]
    exact List.map_congr_left fun s _ => s.mapTokens_mapTokens _ _ _ _
  rw [← hbare ss, h, hbare]

/-- The spelling of a program, on whatever lines and with as many more parentheses as one likes,
parses without an error to the program, up to lines and to what expression statements keep. -/
theorem spellings_parse (p : Program) (hp : p.Spellable) (n : Padding) (ts rest : List Token)
    (hts : Relined ts (p.spell n)) (hrest : Ends rest) :
    (parseTokens (ts ++ rest)).errors = [] ∧ (parseTokens (ts ++ rest)).program.bare = p.bare := by
  obtain ⟨p', hd, heq⟩ := spellStatements_spelledBy p n hp
  obtain ⟨q, hq, hqeq⟩ := hd.relined hts
  rw [parseTokens_append_of_derives hq hrest]
  have hbare : Program.bare q = p.bare := by
    rw [Program.bare_eq_map, Program.bare_eq_map, map_bare_of_unlined hqeq, heq]
  exact ⟨rfl, hbare⟩

/-- A function that negates an array element, called on the greatest integer, with more parentheses
the deeper a part stands. -/
theorem spellings_parse_negation :
    let word (s : String) : Token := ⟨.ident, s, 1⟩
    let element : Expr := .index ⟨.leftBracket, "[", 1⟩ (.identifier (word "xs"))
      (.integer ⟨.int, "00", 1⟩ 0)
    let body : Block := ⟨⟨.leftBrace, "\x7b", 1⟩,
      [.returning ⟨.returnWord, "return", 1⟩ (some (.prefixed ⟨.minus, "-", 1⟩ .negate element))]⟩
    let argument : Expr := .array ⟨.leftBracket, "[", 1⟩
      [.integer ⟨.int, "9223372036854775807", 1⟩ 9223372036854775807]
    let p : Program := [.binding ⟨.letWord, "let", 1⟩ (word "f")
        (.function ⟨.function, "fn", 1⟩ [word "xs"] body),
      .expression (word "f") (.call ⟨.leftParen, "(", 1⟩ (.identifier (word "f")) [argument])]
    let ts : List Token := (p.spell List.length).map (Token.on 7)
    p.Spellable ∧ Relined ts (p.spell List.length) ∧ Ends [.eof 8] ∧
      (parseTokens (ts ++ [.eof 8])).errors = [] ∧
      (parseTokens (ts ++ [.eof 8])).program.bare = p.bare := by
  intro word element body argument p ts
  have helement : element.Spellable := ⟨rfl, rfl, rfl, 0, by decide, by decide, rfl⟩
  have hbody : body.Spellable := ⟨rfl, ⟨rfl, rfl, helement⟩, trivial⟩
  have hargument : argument.Spellable :=
    ⟨rfl, ⟨rfl, 9223372036854775807, by decide, by decide, rfl⟩, trivial⟩
  have hp : p.Spellable :=
    ⟨⟨rfl, rfl, rfl, by simp [word], hbody⟩, ⟨rfl, rfl, hargument, trivial⟩, trivial⟩
  have hts : Relined ts (p.spell List.length) := by
    rw [Relined, List.map_map]
    rfl
  have hrest : Ends [.eof 8] := by simp [Ends, Token.eof]
  exact ⟨hp, hts, hrest, spellings_parse p hp List.length ts [.eof 8] hts hrest⟩

end Treewalk
