import Treewalk.Proofs.Token.Layout

/-!
# Renderings parse

A program without string literals, whose conditions are operations and whose expression statements
end their blocks, parses again from its rendering.
-/

namespace Treewalk

/-! ## Programs whose rendering can be read -/

/-- Such an expression renders with parentheses around it. -/
def Expr.isOperation : Expr → Bool
  | .prefixed .. | .binary .. | .index .. => true
  | _ => false

def Statement.isExpression : Statement → Bool
  | .expression .. => true
  | _ => false

mutual

/-- No string literal occurs, the parentheses of each condition are its own, and nothing follows an
expression statement in its block. -/
def Expr.rereadable : Expr → Bool
  | .identifier _ | .integer _ _ | .boolean _ _ => true
  | .string _ => false
  | .prefixed _ _ operand => operand.rereadable
  | .binary _ _ left right => left.rereadable && right.rereadable
  | .conditional _ condition consequence alternative =>
    condition.isOperation && condition.rereadable && consequence.rereadable &&
      rereadableElse alternative
  | .function _ _ body => body.rereadable
  | .call _ callee arguments => callee.rereadable && rereadableAll arguments
  | .array _ elements => rereadableAll elements
  | .hash _ pairs => rereadablePairs pairs
  | .index _ base position => base.rereadable && position.rereadable

def rereadableAll : List Expr → Bool
  | [] => true
  | e :: es => e.rereadable && rereadableAll es

def rereadablePairs : List (Expr × Expr) → Bool
  | [] => true
  | (key, value) :: pairs => key.rereadable && value.rereadable && rereadablePairs pairs

def rereadableElse : Option Block → Bool
  | none => true
  | some block => block.rereadable

def rereadableValue : Option Expr → Bool
  | none => true
  | some value => value.rereadable

def Statement.rereadable : Statement → Bool
  | .binding _ _ value => value.rereadable
  | .returning _ value => rereadableValue value
  | .expression _ value => value.rereadable

def rereadableStatements : List Statement → Bool
  | [] => true
  | s :: ss => s.rereadable && (ss.isEmpty || !s.isExpression) && rereadableStatements ss

def Block.rereadable : Block → Bool
  | ⟨_, statements⟩ => rereadableStatements statements

end

def Program.rereadable (p : Program) : Bool := rereadableStatements p

def Phrase.rereadable : Phrase → Bool
  | .expression _ e => e.rereadable
  | .block b => b.rereadable
  | .statement s => s.rereadable
  | .statements ss => rereadableStatements ss

/-! ## Renderings are derived -/

/-- The tokens are those of the rendering and spell the expression again, up to lines and to what
expression statements keep. -/
structure Expr.Rereads (e e' : Expr) (ts : List Token) : Prop where
  same : e'.bare = e.bare
  scans : ScansTo isWordChar e.render ts
  derives : Derives (.expression Precedence.call.rank e') ts
  enclosed : e.isOperation → ∃ us, ts = .mark .leftParen :: (us ++ [.mark .rightParen]) ∧
    Derives (.expression 0 e') us

/-- What is said of expressions, of every phrase. Statements that are no expressions end in a
semicolon. -/
def Phrase.Rereads : Phrase → Prop
  | .expression _ e => ∃ e' ts, e.Rereads e' ts
  | .block b => ∃ b' ts, b'.bare = b.bare ∧
      ScansTo never (braced (" " ++ b.render ++ " ")) ts ∧ Derives (.block b') ts
  | .statement s => ∃ s' ts, s'.bare = s.bare ∧ Derives (.statement s') ts ∧
      if s.isExpression then ScansTo isWordChar s.render ts
      else ScansTo never s.render (ts ++ [.mark .semicolon])
  | .statements ss => ∃ ss' ts, ss'.map Statement.bare = ss.map Statement.bare ∧
      ScansTo isWordChar (renderStatements ss) ts ∧ Derives (.statements ss') ts

theorem PrefixOp.text_of_kind {kind : TokenKind} {op : PrefixOp}
    (h : PrefixOp.ofKind? kind = some op) :
    kind.text? = some op.symbol ∧ ∀ c, kind.goesOn c → c = '=' := by
  cases kind <;> cases h <;> simp [TokenKind.text?, TokenKind.goesOn, TokenKind.name, symbol, never]

theorem InfixOp.text_of_kind {kind : TokenKind} {op : InfixOp}
    (h : InfixOp.ofKind? kind = some op) :
    kind.text? = some op.symbol ∧ kind.goesOn ' ' = false := by
  cases kind <;> cases h <;> simp [TokenKind.text?, TokenKind.goesOn, TokenKind.name, symbol, never]

section Forms

variable {e e' : Expr} {s : Statement} {ss : List Statement} {b : Block} {t : Token} {k : Nat}
  {ts us : List Token}

theorem Expr.rereads_of_token (ht : t.Genuine) (hrender : e.render = t.literal)
    (hkind : t.kind ≠ .string ∧ ∀ c, t.kind.goesOn c → isWordChar c) (hleaf : e.isOperation = false)
    (hsame : e'.bare = e.bare) (hd : Derives (.expression Precedence.call.rank e') [t.on 1]) :
    e.Rereads e' [t.on 1] where
  same := hsame
  scans := hrender ▸ (ScansTo.token ht hkind.1).weaken hkind.2
  derives := hd
  enclosed := fun h => absurd h (by simp [hleaf])

theorem Expr.rereads_of_enclosed {inner : String} {p : Char → Bool} (hsame : e'.bare = e.bare)
    (hrender : e.render = "(" ++ (inner ++ ")")) (hscan : ScansTo p inner us)
    (hp : p ')' = false) (hd : Derives (.expression 0 e') us) :
    e.Rereads e' (.mark .leftParen :: (us ++ [.mark .rightParen])) where
  same := hsame
  scans := by
    have hopen : ScansTo never "(" [.mark .leftParen] := .mark _ _
    have hclose : ScansTo never ")" [.mark .rightParen] := .mark _ _
    rw [hrender]
    exact (hopen.free (hscan.before hclose (by simp [hp]))).of_never
  derives := .group rfl hd rfl
  enclosed := fun _ => ⟨us, rfl, hd⟩

theorem rereads_block (ht : t.Genuine) (hkind : t.kind = .leftBrace)
    (h : (Phrase.statements ss).Rereads) : (Phrase.block ⟨t, ss⟩).Rereads := by
  obtain ⟨ss', ts, hsame, hscan, hd⟩ := h
  have hopen : ScansTo never "\x7b" [t.on 1] := .fixed ht hkind rfl rfl
  have hclose : ScansTo never "\x7d" [.mark .rightBrace] := .mark _ _
  have hinner := (ScansTo.blank.free hscan).before .blank
  refine ⟨⟨t.on 1, ss'⟩, t.on 1 :: (ts ++ [.mark .rightBrace]), ?_, ?_, .block hkind hd rfl⟩
  · simp [Block.mapTokens, mapTokensStatements_eq_map, hsame]
  · simpa [braced, Block.render] using (hopen.free hinner).free hclose

theorem openTo_nil (s : Statement) : s.OpenTo [] := by
  cases s with
  | returning t value => cases value <;> rfl
  | _ => rfl

theorem rereads_last (hs : (Phrase.statement s).Rereads) : (Phrase.statements [s]).Rereads := by
  obtain ⟨s', ts, hsame, hd, hscan⟩ := hs
  have hrender : renderStatements [s] = s.render := by simp [renderStatements]
  have hsames : [s'].map Statement.bare = [s].map Statement.bare := by simp [hsame]
  split at hscan
  · have hds := Derives.unended hd (openTo_nil s') .nil
    rw [List.append_nil] at hds
    exact ⟨[s'], ts, hsames, hrender ▸ hscan, hds⟩
  · exact ⟨[s'], _, hsames, hrender ▸ hscan.of_never, .ended hd rfl .nil⟩

theorem rereads_next (hs : (Phrase.statement s).Rereads) (hss : (Phrase.statements ss).Rereads)
    (hexpression : s.isExpression = false) : (Phrase.statements (s :: ss)).Rereads := by
  obtain ⟨s', ts, hsame, hd, hscan⟩ := hs
  obtain ⟨ss', us, hsames, hscans, hds⟩ := hss
  rw [if_neg (by simp [hexpression])] at hscan
  refine ⟨s' :: ss', ts ++ .mark .semicolon :: us, ?_, ?_, .ended hd rfl hds⟩
  · rw [List.map_cons, List.map_cons, hsame, hsames]
  · simpa [renderStatements] using hscan.free hscans

theorem rereads_cons (hs : (Phrase.statement s).Rereads)
    (hss : rereadableStatements ss → (Phrase.statements ss).Rereads)
    (h : (Phrase.statements (s :: ss)).rereadable) : (Phrase.statements (s :: ss)).Rereads := by
  simp only [Phrase.rereadable, rereadableStatements, Bool.and_eq_true] at h
  cases ss with
  | nil => exact rereads_last hs
  | cons s₂ ss => exact rereads_next hs (hss h.2) (by simpa using h.1.2)

/-! ### Lists -/

theorem rereads_all {xs : List (Expr × List Token)}
    (h : ∀ x ∈ xs, (∀ t ∈ x.1.tokens, t.Genuine) → x.1.rereadable →
      (Phrase.expression 0 x.1).Rereads)
    (hgenuine : ∀ t ∈ tokensAll (xs.map (·.1)), t.Genuine)
    (hx : rereadableAll (xs.map (·.1))) :
    ∃ ys : List (Expr × List Token), (∀ y ∈ ys, Derives (.expression 0 y.1) y.2) ∧
      List.Forall₂ (ScansTo isWordChar) (renderAll (xs.map (·.1))) (ys.map (·.2)) ∧
      (ys.map (·.1)).map Expr.bare = (xs.map (·.1)).map Expr.bare := by
  induction xs with
  | nil => exact ⟨[], by simp, .nil, rfl⟩
  | cons x xs ih =>
    simp only [List.map_cons, tokensAll, List.forall_mem_append] at hgenuine
    simp only [List.map_cons, rereadableAll, Bool.and_eq_true] at hx
    obtain ⟨e, ts, he⟩ := h x List.mem_cons_self hgenuine.1 hx.1
    obtain ⟨ys, hys, hscans, hsames⟩ :=
      ih (fun y hy => h y (List.mem_cons_of_mem _ hy)) hgenuine.2 hx.2
    refine ⟨(e, ts) :: ys, ?_, .cons he.scans hscans, ?_⟩
    · exact List.forall_mem_cons.2 ⟨he.derives.weaken (Nat.zero_le _), hys⟩
    · simp only [List.map_cons, he.same, hsames]

theorem rereads_pairs {xs : List SpelledPair}
    (hk : ∀ x ∈ xs, (∀ t ∈ x.key.tokens, t.Genuine) → x.key.rereadable →
      (Phrase.expression 0 x.key).Rereads)
    (hv : ∀ x ∈ xs, (∀ t ∈ x.value.tokens, t.Genuine) → x.value.rereadable →
      (Phrase.expression 0 x.value).Rereads)
    (hgenuine : ∀ t ∈ tokensPairs (xs.map (·.pair)), t.Genuine)
    (hx : rereadablePairs (xs.map (·.pair))) :
    ∃ ys : List SpelledPair, (∀ y ∈ ys, y.Derived) ∧
      List.Forall₂ (ScansTo isWordChar) (renderPairs (xs.map (·.pair))) (ys.map (·.text)) ∧
      ys.map (fun y => (y.key.bare, y.value.bare)) =
        xs.map fun x => (x.key.bare, x.value.bare) := by
  induction xs with
  | nil => exact ⟨[], by simp, .nil, rfl⟩
  | cons x xs ih =>
    simp only [List.map_cons, SpelledPair.pair, tokensPairs, List.forall_mem_append] at hgenuine
    simp only [List.map_cons, SpelledPair.pair, rereadablePairs, Bool.and_eq_true] at hx
    obtain ⟨key, keyText, hkey⟩ := hk x List.mem_cons_self hgenuine.1.1 hx.1.1
    obtain ⟨value, valueText, hvalue⟩ := hv x List.mem_cons_self hgenuine.1.2 hx.1.2
    obtain ⟨ys, hys, hscans, hsames⟩ := ih (fun y hy => hk y (List.mem_cons_of_mem _ hy))
      (fun y hy => hv y (List.mem_cons_of_mem _ hy)) hgenuine.2 hx.2
    refine ⟨⟨key, keyText, .mark .colon, value, valueText⟩ :: ys, ?_,
      .cons (hkey.scans.pair hvalue.scans) hscans, ?_⟩
    · refine List.forall_mem_cons.2 ⟨⟨?_, rfl, ?_⟩, hys⟩
      · exact hkey.derives.weaken (Nat.zero_le _)
      · exact hvalue.derives.weaken (Nat.zero_le _)
    · simp only [List.map_cons, hkey.same, hvalue.same, hsames]

theorem rereads_parameters {ps : List Token} (hgenuine : ∀ p ∈ ps, p.Genuine)
    (hps : ∀ p ∈ ps, p.kind = .ident) :
    List.Forall₂ (ScansTo isWordChar) (ps.map (·.literal)) ((ps.map (Token.on 1)).map ([·])) := by
  induction ps with
  | nil => exact .nil
  | cons p ps ih =>
    obtain ⟨hp, hps⟩ := List.forall_mem_cons.1 hps
    obtain ⟨hgen, hgenuine⟩ := List.forall_mem_cons.1 hgenuine
    have hscan := ScansTo.token hgen (by simp [hp])
    rw [hp] at hscan
    exact .cons hscan (ih hgenuine hps)

/-! ### Operations -/

theorem rereads_prefixed {op : PrefixOp} (ht : t.Genuine) (hop : PrefixOp.ofKind? t.kind = some op)
    (he : (Phrase.expression 0 e).Rereads) : (Phrase.expression k (.prefixed t op e)).Rereads := by
  obtain ⟨e', ts, he⟩ := he
  obtain ⟨htext, hgoesOn⟩ := PrefixOp.text_of_kind hop
  have hsymbol : ScansTo (· = '=') op.symbol [t.on 1] :=
    (ScansTo.fixed ht rfl htext rfl).weaken (by simpa using hgoesOn)
  have hbegins : e.render.toList.head?.any fun c => !(c = '=') := by
    obtain ⟨u, us, rfl, hu⟩ := he.derives.starts
    refine he.scans.head_ne ⟨?_, ?_⟩ <;> intro hkind <;>
      simp [TokenKind.StartsExpression, hkind] at hu
  have hd : Derives (.expression 0 (.prefixed (t.on 1) op e')) (t.on 1 :: ts) :=
    .prefixed (Nat.zero_le _) hop (he.derives.weaken (by decide))
  refine ⟨_, _, Expr.rereads_of_enclosed ?_ ?_ (hsymbol.before he.scans hbegins) rfl hd⟩
  · simp [Expr.mapTokens, he.same]
  · simp [Expr.render, String.append_assoc]

theorem rereads_binary {op : InfixOp} {left right : Expr} (ht : t.Genuine)
    (hop : InfixOp.ofKind? t.kind = some op) (hl : (Phrase.expression 0 left).Rereads)
    (hr : (Phrase.expression 0 right).Rereads) :
    (Phrase.expression k (.binary t op left right)).Rereads := by
  obtain ⟨l, ts, hl⟩ := hl
  obtain ⟨r, us, hr⟩ := hr
  obtain ⟨htext, hgoesOn⟩ := InfixOp.text_of_kind hop
  have hsymbol : ScansTo never (op.symbol ++ " ") [t.on 1] :=
    (ScansTo.fixed ht rfl htext rfl).before .blank (by simp [hgoesOn])
  have hscan := ((hl.scans.before .blank).free hsymbol).free hr.scans
  have hlevel : (Precedence.ofKind t.kind).rank + 1 ≤ Precedence.call.rank :=
    Nat.le_trans (rank_lt_prefixed hop) (by decide)
  have hd : Derives (.expression 0 (.binary (t.on 1) op l r)) (ts ++ t.on 1 :: us) :=
    .binary (Nat.zero_le _) hop (hl.derives.weaken (Nat.le_of_succ_le hlevel))
      (hr.derives.weaken hlevel)
  refine ⟨_, _, Expr.rereads_of_enclosed ?_ ?_ (by simpa using hscan) rfl hd⟩
  · simp [Expr.mapTokens, hl.same, hr.same]
  · simp [Expr.render, String.append_assoc]

theorem rereads_index {base position : Expr} (ht : t.Genuine) (hkind : t.kind = .leftBracket)
    (hb : (Phrase.expression 0 base).Rereads) (hp : (Phrase.expression 0 position).Rereads) :
    (Phrase.expression k (.index t base position)).Rereads := by
  obtain ⟨b, ts, hb⟩ := hb
  obtain ⟨p, us, hp⟩ := hp
  have hleft : ScansTo never "[" [t.on 1] := .fixed ht hkind rfl rfl
  have hright : ScansTo never "]" [.mark .rightBracket] := .mark _ _
  have hscan := ((hb.scans.before hleft).free hp.scans).before hright
  have hd : Derives (.expression 0 (.index (t.on 1) b p))
      (ts ++ t.on 1 :: (us ++ [.mark .rightBracket])) :=
    .index (Nat.zero_le _) hkind hb.derives (hp.derives.weaken (Nat.zero_le _)) rfl
  refine ⟨_, _, Expr.rereads_of_enclosed ?_ ?_ (by simpa using hscan) rfl hd⟩
  · simp [Expr.mapTokens, hb.same, hp.same]
  · simp [Expr.render, String.append_assoc]

/-! ### Other expressions -/

theorem rereads_call {callee : Expr} {arguments : List Expr} {ys : List (Expr × List Token)}
    (ht : t.Genuine) (hkind : t.kind = .leftParen) (hf : (Phrase.expression 0 callee).Rereads)
    (hys : ∀ y ∈ ys, Derives (.expression 0 y.1) y.2)
    (hscans : List.Forall₂ (ScansTo isWordChar) (renderAll arguments) (ys.map (·.2)))
    (hsames : (ys.map (·.1)).map Expr.bare = arguments.map Expr.bare) :
    (Phrase.expression k (.call t callee arguments)).Rereads := by
  obtain ⟨f, ts, hf⟩ := hf
  have hopen : ScansTo never "(" [t.on 1] := .fixed ht hkind rfl rfl
  have hclose : ScansTo never ")" [.mark .rightParen] := .mark _ _
  have hscan := ((hf.scans.before hopen).free (.commaSeparated hscans rfl)).before hclose
  have hd : Derives (.expression Precedence.call.rank (.call (t.on 1) f (ys.map (·.1))))
      (ts ++ t.on 1 :: (withCommas (ys.map (·.2)) ++ [.mark .rightParen])) :=
    .call (Nat.le_refl _) hkind hf.derives hys (commaSeparated_withCommas _) rfl
  refine ⟨_, _, ?_, ?_, hd, nofun⟩
  · simp only [Expr.mapTokens, mapTokensAll_eq_map, hf.same, hsames, Token.unlined_on]
  · simpa [Expr.render] using hscan.of_never

theorem rereads_array {elements : List Expr} {ys : List (Expr × List Token)}
    (ht : t.Genuine) (hkind : t.kind = .leftBracket)
    (hys : ∀ y ∈ ys, Derives (.expression 0 y.1) y.2)
    (hscans : List.Forall₂ (ScansTo isWordChar) (renderAll elements) (ys.map (·.2)))
    (hsames : (ys.map (·.1)).map Expr.bare = elements.map Expr.bare) :
    (Phrase.expression k (.array t elements)).Rereads := by
  have hopen : ScansTo never "[" [t.on 1] := .fixed ht hkind rfl rfl
  have hd : Derives (.expression Precedence.call.rank (.array (t.on 1) (ys.map (·.1))))
      (t.on 1 :: (withCommas (ys.map (·.2)) ++ [.mark .rightBracket])) :=
    .array hkind hys (commaSeparated_withCommas _) rfl
  refine ⟨_, _, ?_, ?_, hd, nofun⟩
  · simp only [Expr.mapTokens, mapTokensAll_eq_map, hsames, Token.unlined_on]
  · rw [Expr.render]
    exact (hopen.brackets hscans).of_never

theorem rereads_hash {pairs : List (Expr × Expr)} {ys : List SpelledPair} (ht : t.Genuine)
    (hkind : t.kind = .leftBrace) (hys : ∀ y ∈ ys, y.Derived)
    (hscans : List.Forall₂ (ScansTo isWordChar) (renderPairs pairs) (ys.map (·.text)))
    (hsames : ys.map (fun y => (y.key.bare, y.value.bare)) =
      pairs.map fun p => (p.1.bare, p.2.bare)) :
    (Phrase.expression k (.hash t pairs)).Rereads := by
  have hopen : ScansTo never "\x7b" [t.on 1] := .fixed ht hkind rfl rfl
  have hd : Derives (.expression Precedence.call.rank (.hash (t.on 1) (ys.map (·.pair))))
      (t.on 1 :: (withCommas (ys.map (·.text)) ++ [.mark .rightBrace])) :=
    .hash hkind (fun y hy => (hys y hy).key) (fun y hy => (hys y hy).colon)
      (fun y hy => (hys y hy).value) (commaEnded_withCommas _) rfl
  refine ⟨_, _, ?_, ?_, hd, nofun⟩
  · rw [Expr.bare, Expr.bare, Expr.mapTokens, Expr.mapTokens, mapTokensPairs_eq_map,
      mapTokensPairs_eq_map, List.map_map, Token.unlined_on]
    exact congrArg (Expr.hash _) hsames
  · rw [Expr.render]
    exact (hopen.braces hscans).of_never

theorem rereads_function {parameters : List Token} {body : Block} (ht : t.Genuine)
    (hkind : t.kind = .function) (hgenuine : ∀ p ∈ parameters, p.Genuine)
    (hps : ∀ p ∈ parameters, p.kind = .ident) (hb : (Phrase.block body).Rereads) :
    (Phrase.expression k (.function t parameters body)).Rereads := by
  obtain ⟨b, us, hsame, hbscan, hb⟩ := hb
  let ps := parameters.map (Token.on 1)
  have hword : ScansTo isWordChar "fn" [t.on 1] := .fixed ht hkind rfl rfl
  have hopen : ScansTo never "(" [.mark .leftParen] := .mark _ _
  have hclose : ScansTo never ")" [.mark .rightParen] := .mark _ _
  have hhead := (hword.before hopen).free
    (.commaSeparated (rereads_parameters hgenuine hps) rfl)
  have hscan := ((hhead.before hclose).free .blank).free hbscan
  have hkinds : ∀ p ∈ ps, p.kind = .ident := by
    intro p hp
    obtain ⟨q, hq, rfl⟩ := List.mem_map.1 hp
    exact hps q hq
  have hd : Derives (.expression Precedence.call.rank (.function (t.on 1) ps b))
      (t.on 1 :: .mark .leftParen :: (withCommas (ps.map ([·])) ++ .mark .rightParen :: us)) :=
    .function hkind rfl hkinds (commaSeparated_withCommas _) rfl hb
  refine ⟨_, _, ?_, ?_, hd, nofun⟩
  · simp [Expr.mapTokens, ps, hsame, Function.comp_def]
  · simpa [Expr.render, String.append_assoc, ps] using hscan.of_never

/-- The parentheses of a condition's rendering serve as those that have to enclose it. -/
theorem rereads_condition {condition : Expr} (ht : t.Genuine) (hkind : t.kind = .ifWord)
    (hoperation : condition.isOperation) (hx : (Phrase.expression 0 condition).Rereads) :
    ∃ x ts, x.bare = condition.bare ∧ Derives (.expression 0 x) ts ∧
      ScansTo never ("if " ++ condition.render ++ " ")
        (t.on 1 :: .mark .leftParen :: (ts ++ [.mark .rightParen])) := by
  obtain ⟨x, _, hx⟩ := hx
  obtain ⟨ts, rfl, hinner⟩ := hx.enclosed hoperation
  have hword : ScansTo isWordChar "if" [t.on 1] := .fixed ht hkind rfl rfl
  have hscan := ((hword.before .blank).free hx.scans).before .blank
  exact ⟨x, ts, hx.same, hinner, by simpa using hscan⟩

theorem rereads_conditional {condition : Expr} {consequence : Block} (ht : t.Genuine)
    (hkind : t.kind = .ifWord) (hoperation : condition.isOperation)
    (hx : (Phrase.expression 0 condition).Rereads) (hb : (Phrase.block consequence).Rereads) :
    (Phrase.expression k (.conditional t condition consequence none)).Rereads := by
  obtain ⟨x, ts, hxsame, hx, hxscan⟩ := rereads_condition ht hkind hoperation hx
  obtain ⟨b, us, hbsame, hbscan, hb⟩ := hb
  have hd : Derives (.expression Precedence.call.rank (.conditional (t.on 1) x b none))
      (t.on 1 :: .mark .leftParen :: (ts ++ .mark .rightParen :: us)) :=
    .conditional hkind rfl hx rfl hb
  refine ⟨_, _, ?_, ?_, hd, nofun⟩
  · simp [Expr.mapTokens, mapTokensElse, hxsame, hbsame]
  · simpa [Expr.render] using (hxscan.free hbscan).of_never

theorem rereads_alternative {condition : Expr} {consequence alternative : Block} (ht : t.Genuine)
    (hkind : t.kind = .ifWord) (hoperation : condition.isOperation)
    (hx : (Phrase.expression 0 condition).Rereads) (hb : (Phrase.block consequence).Rereads)
    (hc : (Phrase.block alternative).Rereads) :
    (Phrase.expression k (.conditional t condition consequence (some alternative))).Rereads := by
  obtain ⟨x, ts, hxsame, hx, hxscan⟩ := rereads_condition ht hkind hoperation hx
  obtain ⟨b, us, hbsame, hbscan, hb⟩ := hb
  obtain ⟨c, vs, hcsame, hcscan, hc⟩ := hc
  let w : Token := ⟨.elseWord, "else", 1⟩
  have hword : ScansTo isWordChar "else" [w] := .fixed (t := w) (.keyword (by decide)) rfl rfl rfl
  have helse : ScansTo never " else " [w] := (ScansTo.blank.free hword).before .blank
  have hscan := ((hxscan.free hbscan).free helse).free hcscan
  have hd : Derives (.expression Precedence.call.rank (.conditional (t.on 1) x b (some c)))
      (t.on 1 :: .mark .leftParen :: (ts ++ .mark .rightParen :: (us ++ w :: vs))) :=
    .alternative hkind rfl hx rfl hb rfl hc
  refine ⟨_, _, ?_, ?_, hd, nofun⟩
  · simp [Expr.mapTokens, mapTokensElse, hxsame, hbsame, hcsame]
  · simpa [Expr.render] using hscan.of_never

/-! ### Statements -/

theorem rereads_binding {name : Token} (ht : t.Genuine) (hkind : t.kind = .letWord)
    (hname : name.Genuine) (hident : name.kind = .ident) (he : (Phrase.expression 0 e).Rereads) :
    (Phrase.statement (.binding t name e)).Rereads := by
  obtain ⟨e', ts, he⟩ := he
  have hword : ScansTo isWordChar "let" [t.on 1] := .fixed ht hkind rfl rfl
  have hscanName : ScansTo isWordChar name.literal [name.on 1] :=
    (ScansTo.token hname (by simp [hident])).weaken (by simp [hident, TokenKind.goesOn])
  have hassign : ScansTo (· = '=') "=" [.mark .assign] := .mark _ _
  have hequal : ScansTo never " = " [.mark .assign] := (ScansTo.blank.free hassign).before .blank
  have hend : ScansTo never ";" [.mark .semicolon] := .mark _ _
  have hscan := ((((hword.before .blank).free hscanName).before hequal).free he.scans).before hend
  have hd : Derives (.statement (.binding (t.on 1) (name.on 1) e'))
      (t.on 1 :: name.on 1 :: .mark .assign :: ts) :=
    .binding hkind hident rfl (he.derives.weaken (Nat.zero_le _))
  refine ⟨_, _, ?_, hd, ?_⟩
  · simp [Statement.mapTokens, he.same]
  · simpa [Statement.render, Statement.isExpression] using hscan

theorem rereads_bareReturn (ht : t.Genuine) (hkind : t.kind = .returnWord) :
    (Phrase.statement (.returning t none)).Rereads := by
  have hword : ScansTo isWordChar "return" [t.on 1] := .fixed ht hkind rfl rfl
  have hend : ScansTo never ";" [.mark .semicolon] := .mark _ _
  refine ⟨.returning (t.on 1) none, [t.on 1], rfl, .bareReturn hkind, ?_⟩
  simpa [Statement.render, Statement.isExpression] using hword.before hend

theorem rereads_returning (ht : t.Genuine) (hkind : t.kind = .returnWord)
    (he : (Phrase.expression 0 e).Rereads) :
    (Phrase.statement (.returning t (some e))).Rereads := by
  obtain ⟨e', ts, he⟩ := he
  have hword : ScansTo isWordChar "return" [t.on 1] := .fixed ht hkind rfl rfl
  have hend : ScansTo never ";" [.mark .semicolon] := .mark _ _
  have hscan := ((hword.before .blank).free he.scans).before hend
  have hd : Derives (.statement (.returning (t.on 1) (some e'))) (t.on 1 :: ts) :=
    .returning hkind (he.derives.weaken (Nat.zero_le _))
  refine ⟨_, _, ?_, hd, ?_⟩
  · simp [Statement.mapTokens, mapTokensValue, he.same]
  · simpa [Statement.render, Statement.isExpression] using hscan

theorem rereads_expressionStatement (he : (Phrase.expression 0 e).Rereads) :
    (Phrase.statement (.expression t e)).Rereads := by
  obtain ⟨e', ts, he⟩ := he
  obtain ⟨u, us, rfl, -⟩ := he.derives.starts
  refine ⟨_, _, ?_, .expression (he.derives.weaken (Nat.zero_le _)), he.scans⟩
  simp [Statement.mapTokens, he.same]

end Forms

theorem Derives.rereads {x : Phrase} {ts : List Token} (h : Derives x ts)
    (hgenuine : ∀ t ∈ x.tokens, t.Genuine) (hx : x.rereadable) : x.Rereads := by
  induction h with
  | @identifier _ t ht =>
    have hgen := hgenuine t List.mem_cons_self
    exact ⟨.identifier (t.on 1), _, Expr.rereads_of_token hgen rfl
      (by simp [ht, TokenKind.goesOn]) rfl rfl (.identifier ht)⟩
  | @integer _ t v ht hv =>
    have hgen := hgenuine t List.mem_cons_self
    have hdigit (c : Char) (hc : t.kind.goesOn c) : isWordChar c := by
      rw [ht] at hc
      exact isWordChar_of_isDigit hc
    exact ⟨.integer (t.on 1) v, _, Expr.rereads_of_token hgen rfl ⟨by simp [ht], hdigit⟩ rfl rfl
      (.integer ht hv)⟩
  -- a string is written without its quotes
  | string _ => cases hx
  | @trueWord _ t ht =>
    have hgen := hgenuine t List.mem_cons_self
    exact ⟨.boolean (t.on 1) true, _, Expr.rereads_of_token hgen rfl
      (by simp [ht, TokenKind.goesOn]) rfl rfl (.trueWord ht)⟩
  | @falseWord _ t ht =>
    have hgen := hgenuine t List.mem_cons_self
    exact ⟨.boolean (t.on 1) false, _, Expr.rereads_of_token hgen rfl
      (by simp [ht, TokenKind.goesOn]) rfl rfl (.falseWord ht)⟩
  | group _ _ _ ih => exact ih hgenuine hx
  | prefixed _ hop _ ih =>
    obtain ⟨ht, he⟩ := List.forall_mem_cons.1 hgenuine
    exact rereads_prefixed ht hop (ih he hx)
  | binary _ hop _ _ ihx ihy =>
    simp only [Phrase.tokens, Expr.tokens, List.forall_mem_append, List.forall_mem_cons] at hgenuine
    simp only [Phrase.rereadable, Expr.rereadable, Bool.and_eq_true] at hx
    exact rereads_binary hgenuine.2.1 hop (ihx hgenuine.1 hx.1) (ihy hgenuine.2.2 hx.2)
  | call _ ho _ _ _ _ ihf iha =>
    simp only [Phrase.tokens, Expr.tokens, List.forall_mem_append, List.forall_mem_cons] at hgenuine
    simp only [Phrase.rereadable, Expr.rereadable, Bool.and_eq_true] at hx
    obtain ⟨ys, hys, hscans, hsames⟩ := rereads_all iha hgenuine.2.2 hx.2
    exact rereads_call hgenuine.2.1 ho (ihf hgenuine.1 hx.1) hys hscans hsames
  | index _ ho _ _ _ ihb ihp =>
    simp only [Phrase.tokens, Expr.tokens, List.forall_mem_append, List.forall_mem_cons] at hgenuine
    simp only [Phrase.rereadable, Expr.rereadable, Bool.and_eq_true] at hx
    exact rereads_index hgenuine.2.1 ho (ihb hgenuine.1 hx.1) (ihp hgenuine.2.2 hx.2)
  | array ho _ _ _ iha =>
    obtain ⟨ht, hall⟩ := List.forall_mem_cons.1 hgenuine
    obtain ⟨ys, hys, hscans, hsames⟩ := rereads_all iha hall hx
    exact rereads_array ht ho hys hscans hsames
  | hash ho _ _ _ _ _ ihk ihv =>
    obtain ⟨ht, hall⟩ := List.forall_mem_cons.1 hgenuine
    obtain ⟨ys, hys, hscans, hsames⟩ := rereads_pairs ihk ihv hall hx
    exact rereads_hash ht ho hys hscans (by rw [hsames, List.map_map]; rfl)
  | conditional hi _ _ _ _ ihx ihb =>
    simp only [Phrase.tokens, Expr.tokens, List.forall_mem_append, List.forall_mem_cons] at hgenuine
    simp only [Phrase.rereadable, Expr.rereadable, Bool.and_eq_true] at hx
    exact rereads_conditional hgenuine.1 hi hx.1.1.1 (ihx hgenuine.2.1.1 hx.1.1.2)
      (ihb hgenuine.2.1.2 hx.1.2)
  | alternative hi _ _ _ _ _ _ ihx ihb ihd =>
    simp only [Phrase.tokens, Expr.tokens, List.forall_mem_append, List.forall_mem_cons] at hgenuine
    simp only [Phrase.rereadable, Expr.rereadable, Bool.and_eq_true] at hx
    exact rereads_alternative hgenuine.1 hi hx.1.1.1 (ihx hgenuine.2.1.1 hx.1.1.2)
      (ihb hgenuine.2.1.2 hx.1.2) (ihd hgenuine.2.2 hx.2)
  | function hf _ hp _ _ _ ihb =>
    simp only [Phrase.tokens, Expr.tokens, List.forall_mem_append, List.forall_mem_cons] at hgenuine
    exact rereads_function hgenuine.1 hf hgenuine.2.1 hp (ihb hgenuine.2.2 hx)
  | block ho _ _ ih =>
    obtain ⟨ht, hss⟩ := List.forall_mem_cons.1 hgenuine
    exact rereads_block ht ho (ih hss hx)
  | binding hl hn _ _ ih =>
    simp only [Phrase.tokens, Statement.tokens, List.forall_mem_cons] at hgenuine
    exact rereads_binding hgenuine.1 hl hgenuine.2.1 hn (ih hgenuine.2.2 hx)
  | bareReturn hr => exact rereads_bareReturn (hgenuine _ List.mem_cons_self) hr
  | returning hr _ ih =>
    obtain ⟨ht, he⟩ := List.forall_mem_cons.1 hgenuine
    exact rereads_returning ht hr (ih he hx)
  | expression _ ih => exact rereads_expressionStatement (ih hgenuine hx)
  | nil => exact ⟨[], [], rfl, .empty, .nil⟩
  | ended _ _ _ ihs ihss | unended _ _ _ ihs ihss =>
    obtain ⟨hs, hss⟩ := List.forall_mem_append.1 hgenuine
    have hall := hx
    simp only [Phrase.rereadable, rereadableStatements, Bool.and_eq_true] at hx
    exact rereads_cons (ihs hs hx.1.1) (ihss hss) hall

/-! ## Renderings parse -/

theorem Omits.subset {ts us : List Token} (h : Omits ts us) : us ⊆ ts := by
  induction h with
  | nil => exact List.Subset.refl _
  | keep _ ih => exact List.cons_subset_cons _ ih
  | drop _ _ ih => exact List.subset_cons_of_subset _ ih

theorem Program.render_bare (p : Program) : p.bare.render = p.render :=
  renderStatements_mapTokensStatements (f := Token.unlined) (fun _ => rfl) p

/-- A text without a syntax error, of a program that can be read from its rendering: the rendering
has no syntax error, and is that of the same program up to lines and to what expression statements
keep. So it is its own rendering. -/
theorem renderings_parse (source : String) (h : (parse source).errors = [])
    (hp : (parse source).program.rereadable) :
    (parse (parse source).program.render).errors = [] ∧
      (parse (parse source).program.render).program.bare = (parse source).program.bare ∧
      (parse (parse source).program.render).program.render = (parse source).program.render := by
  obtain ⟨body, n, hscan, hd⟩ := derives_of_scan h
  -- the tokens of the program were scanned, so they have the patterns of their kinds
  have hgenuine : ∀ t ∈ (parse source).program.tokens, t.Genuine := by
    intro t ht
    have hbody : t ∈ body := hd.omits.subset ht
    have hmem : t ∈ scan source := by rw [hscan]; exact List.mem_append_left _ hbody
    exact genuine_of_mem_scan hmem (hd.legal t hbody)
  obtain ⟨p, ts, hsame, hlaid, hts⟩ := hd.rereads hgenuine hp
  have hrescan : scan (parse source).program.render = ts ++ [.eof 1] := by
    rw [Program.render]
    exact hlaid.scan
  have hends : Ends [.eof 1] := by simp [Ends, Token.eof]
  have hbare : Program.bare p = (parse source).program.bare := by
    rw [Program.bare_eq_map, Program.bare_eq_map, hsame]
  have hparse : parse (parse source).program.render = ⟨p, []⟩ := by
    change parseTokens (scan (parse source).program.render) = _
    rw [hrescan, parseTokens_append_of_derives hts hends]
  rw [hparse]
  exact ⟨rfl, hbare, by rw [← Program.render_bare p, hbare, Program.render_bare]⟩

theorem renderings_parse_nested :
    let source := "let f = if (!x[0]) \x7b return; \x7d; " ++
      "if (x[0]) \x7b \x7b1: x, y: [],\x7d \x7d\n" ++
      "else \x7b fn(x) \x7b -f \x7d(x)(007, 3 - 4) \x7d // no end"
    (parse source).errors = [] ∧ (parse source).program.rereadable ∧
      (parse (parse source).program.render).errors = [] ∧
      (parse (parse source).program.render).program.bare = (parse source).program.bare ∧
      (parse (parse source).program.render).program.render = (parse source).program.render := by
  intro source
  have h : (parse source).errors = [] := by decide +kernel
  have hp : (parse source).program.rereadable := by decide +kernel
  exact ⟨h, hp, renderings_parse source h hp⟩

end Treewalk
