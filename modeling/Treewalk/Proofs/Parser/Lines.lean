import Mathlib.Data.List.Forall2
import Treewalk.Proofs.Parser.Derivation
import Treewalk.Proofs.Program.Tokens

/-!
# The grammar does not see lines

A text whose tokens stand on other lines spells the same tree up to lines. So does one without some
of its semicolons, where the statements before them can do without.
-/

namespace Treewalk

/-! ## Harmless changes -/

/-- Texts that stand for others and differ from them in lines and semicolons only. A semicolon is
missing where the statement before it is open to those behind it. -/
structure Harmless (R : List Token → List Token → Prop) : Prop where
  of_nil {us : List Token} : R us [] → us = []
  of_cons {t : Token} {us ts : List Token} : t.kind ≠ .semicolon → R us (t :: ts) →
    ∃ n vs, us = t.on n :: vs ∧ R vs ts
  of_append {us ts vs : List Token} : R us (ts ++ vs) →
    ∃ us₁ us₂, us = us₁ ++ us₂ ∧ R us₁ ts ∧ R us₂ vs
  of_ended {c : Token} {s : Statement} {ss : List Statement} {us ts vs : List Token} :
    Derives (.statement s) ts → c.kind = .semicolon → Derives (.statements ss) vs →
    R us (ts ++ c :: vs) → ∃ us₁ us₂, R us₁ ts ∧ R us₂ vs ∧
      ((∃ n, us = us₁ ++ c.on n :: us₂) ∨ us = us₁ ++ us₂ ∧ s.OpenTo us₂)

namespace Harmless

variable {R : List Token → List Token → Prop} {t : Token} {us ts vs : List Token}

theorem of_singleton (hR : Harmless R) (ht : t.kind ≠ .semicolon) (h : R us [t]) :
    ∃ n, us = [t.on n] := by
  obtain ⟨n, vs, rfl, hvs⟩ := hR.of_cons ht h
  rw [hR.of_nil hvs]
  exact ⟨n, rfl⟩

theorem of_between (hR : Harmless R) (ht : t.kind ≠ .semicolon) (h : R us (ts ++ t :: vs)) :
    ∃ us₁ n us₂, us = us₁ ++ t.on n :: us₂ ∧ R us₁ ts ∧ R us₂ vs := by
  obtain ⟨us₁, rest, rfl, h₁, hrest⟩ := hR.of_append h
  obtain ⟨n, us₂, rfl, h₂⟩ := hR.of_cons ht hrest
  exact ⟨us₁, n, us₂, rfl, h₁, h₂⟩

theorem of_snoc (hR : Harmless R) (ht : t.kind ≠ .semicolon) (h : R us (ts ++ [t])) :
    ∃ vs n, us = vs ++ [t.on n] ∧ R vs ts := by
  obtain ⟨vs, n, rest, rfl, hvs, hrest⟩ := hR.of_between ht h
  rw [hR.of_nil hrest]
  exact ⟨vs, n, rfl, hvs⟩

theorem of_around {o c : Token} (hR : Harmless R) (ho : o.kind ≠ .semicolon)
    (hc : c.kind ≠ .semicolon) (h : R us (o :: (ts ++ [c]))) :
    ∃ n vs m, us = o.on n :: (vs ++ [c.on m]) ∧ R vs ts := by
  obtain ⟨n, rest, rfl, hrest⟩ := hR.of_cons ho h
  obtain ⟨vs, m, rfl, hvs⟩ := hR.of_snoc hc hrest
  exact ⟨n, vs, m, rfl, hvs⟩

end Harmless

theorem Relined.harmless : Harmless Relined where
  of_nil := of_nil
  of_cons _ := of_cons
  of_append := of_append
  of_ended _ _ _ h := by
    obtain ⟨us₁, n, us₂, rfl, h₁, h₂⟩ := h.of_between
    exact ⟨us₁, us₂, h₁, h₂, .inl ⟨n, rfl⟩⟩

theorem TokenKind.StartsStatement.ne_semicolon {kind : TokenKind} (h : kind.StartsStatement) :
    kind ≠ .semicolon := by
  rintro rfl
  simp [TokenKind.StartsStatement, TokenKind.StartsExpression] at h

variable {R : List Token → List Token → Prop}

/-! ## Lists -/

section Lists

variable {us ts : List Token} {tss : List (List Token)}

theorem Harmless.of_commaLed (hR : Harmless R) (h : CommaLed tss ts) (hus : R us ts) :
    ∃ uss, List.Forall₂ R uss tss ∧ CommaLed uss us := by
  induction h generalizing us with
  | nil =>
    rw [hR.of_nil hus]
    exact ⟨[], .nil, .nil⟩
  | cons hc _ ih =>
    obtain ⟨n, vs, rfl, hvs⟩ := hR.of_cons (by simp [hc]) hus
    obtain ⟨first, rest, rfl, hfirst, hrest⟩ := hR.of_append hvs
    obtain ⟨uss, huss, hled⟩ := ih hrest
    exact ⟨first :: uss, .cons hfirst huss, .cons hc hled⟩

theorem Harmless.of_commaSeparated (hR : Harmless R) (h : CommaSeparated tss ts) (hus : R us ts) :
    ∃ uss, List.Forall₂ R uss tss ∧ CommaSeparated uss us := by
  cases h with
  | nil =>
    rw [hR.of_nil hus]
    exact ⟨[], .nil, .nil⟩
  | cons hled =>
    obtain ⟨first, rest, rfl, hfirst, hrest⟩ := hR.of_append hus
    obtain ⟨uss, huss, hled⟩ := hR.of_commaLed hled hrest
    exact ⟨first :: uss, .cons hfirst huss, .cons hled⟩

theorem Harmless.of_commaEnded (hR : Harmless R) (h : CommaEnded tss ts) (hus : R us ts) :
    ∃ uss, List.Forall₂ R uss tss ∧ CommaEnded uss us := by
  induction h generalizing us with
  | nil =>
    rw [hR.of_nil hus]
    exact ⟨[], .nil, .nil⟩
  | last => exact ⟨[us], .cons hus .nil, .last⟩
  | cons hc _ ih =>
    obtain ⟨first, n, rest, rfl, hfirst, hrest⟩ := hR.of_between (by simp [hc]) hus
    obtain ⟨uss, huss, hended⟩ := ih hrest
    exact ⟨first :: uss, .cons hfirst huss, .cons hc hended⟩

theorem exists_items {α β : Type} {text : α → List Token} {key : α → β} {Q : α → Prop}
    {xs : List α} (h : ∀ x ∈ xs, ∀ us, R us (text x) → ∃ y, text y = us ∧ Q y ∧ key y = key x)
    {uss : List (List Token)} (huss : List.Forall₂ R uss (xs.map text)) :
    ∃ ys : List α, ys.map text = uss ∧ (∀ y ∈ ys, Q y) ∧ ys.map key = xs.map key := by
  induction xs generalizing uss with
  | nil =>
    cases huss
    exact ⟨[], rfl, by simp, rfl⟩
  | cons x xs ih =>
    obtain _ | ⟨hus, huss⟩ := huss
    obtain ⟨y, rfl, hy, hkey⟩ := h x List.mem_cons_self _ hus
    obtain ⟨ys, rfl, hys, hkeys⟩ := ih (fun z hz => h z (List.mem_cons_of_mem _ hz)) huss
    exact ⟨y :: ys, rfl, List.forall_mem_cons.2 ⟨hy, hys⟩, by simp [hkey, hkeys]⟩

end Lists

/-! ## Phrases -/

/-- The text spells the phrase up to lines. -/
def Phrase.SpelledBy : Phrase → List Token → Prop
  | .expression k e, us => ∃ e', Derives (.expression k e') us ∧ e'.unlined = e.unlined
  | .block b, us => ∃ b', Derives (.block b') us ∧ b'.unlined = b.unlined
  | .statement s, us => ∃ s', Derives (.statement s') us ∧ s'.unlined = s.unlined
  | .statements ss, us =>
    ∃ ss', Derives (.statements ss') us ∧ ss'.map Statement.unlined = ss.map Statement.unlined

theorem Statement.OpenTo.of_unlined {s s' : Statement} {ts : List Token} (h : s.OpenTo ts)
    (hs : s'.unlined = s.unlined) : s'.OpenTo ts := by
  cases s with
  | returning t value =>
    cases s' with
    | returning t' value' =>
      cases value <;> cases value'
      · exact h
      · simp [unlined, mapTokens, mapTokensValue] at hs
      · simp [unlined, mapTokens, mapTokensValue] at hs
      · exact h
    | _ => simp [unlined, mapTokens] at hs
  | _ =>
    cases s' with
    | returning t' value' => simp [unlined, mapTokens] at hs
    | _ => exact h

theorem Harmless.openTo (hR : Harmless R) {s : Statement} {ss : List Statement}
    {us ts : List Token} (h : s.OpenTo ts) (hss : Derives (.statements ss) ts) (hus : R us ts) :
    s.OpenTo us := by
  rcases hss.starts with rfl | ⟨t, vs, rfl, ht⟩
  · rwa [hR.of_nil hus]
  · obtain ⟨n, ws, rfl, -⟩ := hR.of_cons ht.ne_semicolon hus
    cases s with
    | returning _ value =>
      cases value with
      | none => cases h
      | some => exact h
    | _ => exact h

section Forms

variable {us ts : List Token}

theorem Harmless.of_expressions (hR : Harmless R) {xs : List (Expr × List Token)}
    (h : ∀ x ∈ xs, ∀ us, R us x.2 → (Phrase.expression 0 x.1).SpelledBy us)
    (hts : CommaSeparated (xs.map (·.2)) ts) (hus : R us ts) :
    ∃ ys : List (Expr × List Token), (∀ y ∈ ys, Derives (.expression 0 y.1) y.2) ∧
      CommaSeparated (ys.map (·.2)) us ∧
      (ys.map (·.1)).map Expr.unlined = (xs.map (·.1)).map Expr.unlined := by
  have hone (x : Expr × List Token) (hx : x ∈ xs) (us : List Token) (hus : R us x.2) :
      ∃ y : Expr × List Token, y.2 = us ∧ Derives (.expression 0 y.1) y.2 ∧
        y.1.unlined = x.1.unlined := by
    obtain ⟨e, he, heq⟩ := h x hx us hus
    exact ⟨(e, us), rfl, he, heq⟩
  obtain ⟨uss, huss, hus⟩ := hR.of_commaSeparated hts hus
  obtain ⟨ys, rfl, hys, hkeys⟩ := exists_items hone huss
  exact ⟨ys, hys, hus, by rw [List.map_map, List.map_map]; exact hkeys⟩

/-- A pair whose parts the grammar derives. -/
structure SpelledPair.Derived (x : SpelledPair) : Prop where
  key : Derives (.expression 0 x.key) x.keyText
  colon : x.colon.kind = .colon
  value : Derives (.expression 0 x.value) x.valueText

theorem Harmless.of_pairs (hR : Harmless R) {xs : List SpelledPair}
    (hk : ∀ x ∈ xs, ∀ us, R us x.keyText → (Phrase.expression 0 x.key).SpelledBy us)
    (hc : ∀ x ∈ xs, x.colon.kind = .colon)
    (hv : ∀ x ∈ xs, ∀ us, R us x.valueText → (Phrase.expression 0 x.value).SpelledBy us)
    (hts : CommaEnded (xs.map (·.text)) ts) (hus : R us ts) :
    ∃ ys : List SpelledPair, (∀ y ∈ ys, y.Derived) ∧ CommaEnded (ys.map (·.text)) us ∧
      ys.map (fun y => (y.key.unlined, y.value.unlined)) =
        xs.map fun x => (x.key.unlined, x.value.unlined) := by
  have hone (x : SpelledPair) (hx : x ∈ xs) (us : List Token) (hus : R us x.text) :
      ∃ y : SpelledPair, y.text = us ∧ y.Derived ∧
        (y.key.unlined, y.value.unlined) = (x.key.unlined, x.value.unlined) := by
    obtain ⟨keyText, n, valueText, rfl, hkey, hvalue⟩ := hR.of_between (by simp [hc x hx]) hus
    obtain ⟨key, hk, hkeq⟩ := hk x hx keyText hkey
    obtain ⟨value, hv, hveq⟩ := hv x hx valueText hvalue
    exact ⟨⟨key, keyText, x.colon.on n, value, valueText⟩, rfl, ⟨hk, hc x hx, hv⟩,
      Prod.ext hkeq hveq⟩
  obtain ⟨uss, huss, hus⟩ := hR.of_commaEnded hts hus
  obtain ⟨ys, rfl, hys, hkeys⟩ := exists_items hone huss
  exact ⟨ys, hys, hus, hkeys⟩

theorem Harmless.of_parameters (hR : Harmless R) {ps : List Token}
    (hps : ∀ p ∈ ps, p.kind = .ident) (hts : CommaSeparated (ps.map ([·])) ts) (hus : R us ts) :
    ∃ qs : List Token, (∀ q ∈ qs, q.kind = .ident) ∧ CommaSeparated (qs.map ([·])) us ∧
      qs.map Token.unlined = ps.map Token.unlined := by
  have hone (p : Token) (hp : p ∈ ps) (us : List Token) (hus : R us [p]) :
      ∃ q : Token, [q] = us ∧ q.kind = .ident ∧ q.unlined = p.unlined := by
    obtain ⟨n, rfl⟩ := hR.of_singleton (by simp [hps p hp]) hus
    exact ⟨p.on n, rfl, hps p hp, rfl⟩
  obtain ⟨uss, huss, hus⟩ := hR.of_commaSeparated hts hus
  obtain ⟨qs, rfl, hqs, hkeys⟩ := exists_items hone huss
  exact ⟨qs, hqs, hus, hkeys⟩

end Forms

theorem Derives.changed (hR : Harmless R) {x : Phrase} {ts : List Token} (h : Derives x ts)
    {us : List Token} (hus : R us ts) : x.SpelledBy us := by
  have keeps {t : Token} {kind : TokenKind} (h : t.kind = kind)
      (hk : kind ≠ .semicolon := by decide) : t.kind ≠ .semicolon := h ▸ hk
  induction h generalizing us with
  | identifier ht =>
    obtain ⟨n, rfl⟩ := hR.of_singleton (keeps ht) hus
    exact ⟨_, .identifier ht, rfl⟩
  | integer ht hv =>
    obtain ⟨n, rfl⟩ := hR.of_singleton (keeps ht) hus
    exact ⟨_, .integer ht hv, rfl⟩
  | string ht =>
    obtain ⟨n, rfl⟩ := hR.of_singleton (keeps ht) hus
    exact ⟨_, .string ht, rfl⟩
  | trueWord ht =>
    obtain ⟨n, rfl⟩ := hR.of_singleton (keeps ht) hus
    exact ⟨_, .trueWord ht, rfl⟩
  | falseWord ht =>
    obtain ⟨n, rfl⟩ := hR.of_singleton (keeps ht) hus
    exact ⟨_, .falseWord ht, rfl⟩
  | group ho _ hc ih =>
    obtain ⟨n, vs, m, rfl, hvs⟩ := hR.of_around (keeps ho) (keeps hc) hus
    obtain ⟨e, he, heq⟩ := ih hvs
    exact ⟨e, .group ho he hc, heq⟩
  | prefixed hk hop _ ih =>
    obtain ⟨n, vs, rfl, hvs⟩ := hR.of_cons (fun h => by simp [h, PrefixOp.ofKind?] at hop) hus
    obtain ⟨e, he, heq⟩ := ih hvs
    exact ⟨_, .prefixed hk hop he, by simp [Expr.mapTokens, heq]⟩
  | binary hk hop _ _ ihx ihy =>
    obtain ⟨vs, n, ws, rfl, hvs, hws⟩ :=
      hR.of_between (fun h => by simp [h, InfixOp.ofKind?] at hop) hus
    obtain ⟨x, hx, hxeq⟩ := ihx hvs
    obtain ⟨y, hy, hyeq⟩ := ihy hws
    exact ⟨_, .binary hk hop hx hy, by simp [Expr.mapTokens, hxeq, hyeq]⟩
  | call hk ho _ _ hsep hc ihf iha =>
    obtain ⟨vs, n, rest, rfl, hvs, hrest⟩ := hR.of_between (keeps ho) hus
    obtain ⟨ws, m, rfl, hws⟩ := hR.of_snoc (keeps hc) hrest
    obtain ⟨f, hf, hfeq⟩ := ihf hvs
    obtain ⟨ys, hys, hsep, hyeq⟩ := hR.of_expressions iha hsep hws
    exact ⟨_, .call hk ho hf hys hsep hc, by simp [Expr.mapTokens, mapTokensAll_eq_map, hfeq, hyeq]⟩
  | index hk ho _ _ hc ihb ihp =>
    obtain ⟨vs, n, rest, rfl, hvs, hrest⟩ := hR.of_between (keeps ho) hus
    obtain ⟨ws, m, rfl, hws⟩ := hR.of_snoc (keeps hc) hrest
    obtain ⟨b, hb, hbeq⟩ := ihb hvs
    obtain ⟨p, hp, hpeq⟩ := ihp hws
    exact ⟨_, .index hk ho hb hp hc, by simp [Expr.mapTokens, hbeq, hpeq]⟩
  | array ho _ hsep hc iha =>
    obtain ⟨n, vs, m, rfl, hvs⟩ := hR.of_around (keeps ho) (keeps hc) hus
    obtain ⟨ys, hys, hsep, hyeq⟩ := hR.of_expressions iha hsep hvs
    exact ⟨_, .array ho hys hsep hc, by simp [Expr.mapTokens, mapTokensAll_eq_map, hyeq]⟩
  | hash ho _ hcolons _ hended hc ihk ihv =>
    obtain ⟨n, vs, m, rfl, hvs⟩ := hR.of_around (keeps ho) (keeps hc) hus
    obtain ⟨ys, hys, hended, hyeq⟩ := hR.of_pairs ihk hcolons ihv hended hvs
    refine ⟨_, .hash ho (fun y hy => (hys y hy).key) (fun y hy => (hys y hy).colon)
      (fun y hy => (hys y hy).value) hended hc, ?_⟩
    rw [Expr.unlined, Expr.unlined, Expr.mapTokens, Expr.mapTokens, mapTokensPairs_eq_map,
      mapTokensPairs_eq_map, List.map_map, List.map_map]
    exact congrArg (Expr.hash _) hyeq
  | conditional hi ho _ hc _ ihx ihb =>
    obtain ⟨n, _, rfl, hopen⟩ := hR.of_cons (keeps hi) hus
    obtain ⟨m, _, rfl, hrest⟩ := hR.of_cons (keeps ho) hopen
    obtain ⟨vs, l, ws, rfl, hvs, hws⟩ := hR.of_between (keeps hc) hrest
    obtain ⟨x, hx, hxeq⟩ := ihx hvs
    obtain ⟨b, hb, hbeq⟩ := ihb hws
    exact ⟨_, .conditional hi ho hx hc hb, by simp [Expr.mapTokens, mapTokensElse, hxeq, hbeq]⟩
  | alternative hi ho _ hc _ hw _ ihx ihb ihd =>
    obtain ⟨n, _, rfl, hopen⟩ := hR.of_cons (keeps hi) hus
    obtain ⟨m, _, rfl, hrest⟩ := hR.of_cons (keeps ho) hopen
    obtain ⟨vs, l, _, rfl, hvs, hblocks⟩ := hR.of_between (keeps hc) hrest
    obtain ⟨ws, k, zs, rfl, hws, hzs⟩ := hR.of_between (keeps hw) hblocks
    obtain ⟨x, hx, hxeq⟩ := ihx hvs
    obtain ⟨b, hb, hbeq⟩ := ihb hws
    obtain ⟨d, hd, hdeq⟩ := ihd hzs
    exact ⟨_, .alternative hi ho hx hc hb hw hd,
      by simp [Expr.mapTokens, mapTokensElse, hxeq, hbeq, hdeq]⟩
  | function hf ho hp hsep hc _ ihb =>
    obtain ⟨n, _, rfl, hopen⟩ := hR.of_cons (keeps hf) hus
    obtain ⟨m, _, rfl, hrest⟩ := hR.of_cons (keeps ho) hopen
    obtain ⟨vs, l, ws, rfl, hvs, hws⟩ := hR.of_between (keeps hc) hrest
    obtain ⟨qs, hkinds, hsep, hqs⟩ := hR.of_parameters hp hsep hvs
    obtain ⟨b, hb, hbeq⟩ := ihb hws
    exact ⟨_, .function hf ho hkinds hsep hc hb, by simp [Expr.mapTokens, hqs, hbeq]⟩
  | block ho _ hc ih =>
    obtain ⟨n, vs, m, rfl, hvs⟩ := hR.of_around (keeps ho) (keeps hc) hus
    obtain ⟨ss, hss, heq⟩ := ih hvs
    exact ⟨_, .block ho hss hc, by simp [Block.mapTokens, mapTokensStatements_eq_map, heq]⟩
  | binding hl hn ha _ ih =>
    obtain ⟨n, _, rfl, hname⟩ := hR.of_cons (keeps hl) hus
    obtain ⟨m, _, rfl, hassign⟩ := hR.of_cons (keeps hn) hname
    obtain ⟨l, vs, rfl, hvs⟩ := hR.of_cons (keeps ha) hassign
    obtain ⟨e, he, heq⟩ := ih hvs
    exact ⟨_, .binding hl hn ha he, by simp [Statement.mapTokens, heq]⟩
  | bareReturn hr =>
    obtain ⟨n, rfl⟩ := hR.of_singleton (keeps hr) hus
    exact ⟨_, .bareReturn hr, rfl⟩
  | returning hr _ ih =>
    obtain ⟨n, vs, rfl, hvs⟩ := hR.of_cons (keeps hr) hus
    obtain ⟨e, he, heq⟩ := ih hvs
    exact ⟨_, .returning hr he, by simp [Statement.mapTokens, mapTokensValue, heq]⟩
  | expression hd ih =>
    obtain ⟨_, _, hts, ht⟩ := hd.starts
    cases hts
    -- the token that leads the statement is the first of its text, which is still there
    have hstart : TokenKind.StartsStatement _ := .inr (.inr ht)
    obtain ⟨e, he, heq⟩ := ih hus
    obtain ⟨n, vs, rfl, -⟩ := hR.of_cons hstart.ne_semicolon hus
    exact ⟨_, .expression he, by simp [Statement.mapTokens, heq]⟩
  | nil =>
    rw [hR.of_nil hus]
    exact ⟨[], .nil, rfl⟩
  | ended hs hc hss ihs ihss =>
    obtain ⟨vs, ws, hvs, hws, hus⟩ := hR.of_ended hs hc hss hus
    obtain ⟨s, hs, hseq⟩ := ihs hvs
    obtain ⟨ss, hss, hsseq⟩ := ihss hws
    -- a harmless change may also have taken out the semicolon
    rcases hus with ⟨n, rfl⟩ | ⟨rfl, hopen⟩
    · exact ⟨s :: ss, .ended hs hc hss, by simp [hseq, hsseq]⟩
    · exact ⟨s :: ss, .unended hs (hopen.of_unlined hseq) hss, by simp [hseq, hsseq]⟩
  | unended _ hopen hss ihs ihss =>
    obtain ⟨vs, ws, rfl, hvs, hws⟩ := hR.of_append hus
    have hopen := hR.openTo hopen hss hws
    obtain ⟨s, hs, hseq⟩ := ihs hvs
    obtain ⟨ss, hss, hsseq⟩ := ihss hws
    exact ⟨s :: ss, .unended hs (hopen.of_unlined hseq) hss, by simp [hseq, hsseq]⟩

theorem Derives.relined {x : Phrase} {ts : List Token} (h : Derives x ts) {us : List Token}
    (hus : Relined us ts) : x.SpelledBy us :=
  h.changed Relined.harmless hus

end Treewalk
