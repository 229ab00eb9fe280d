import Treewalk.Proofs.Parser.Complete

/-!
# Delimited lists

Between their delimiters, lists are read in just the form that they are documented to have: items
with a comma between each two. Only hashes are read in one more form, with a comma after the last
pair.
-/

namespace Treewalk

/-! ## Commas -/

section Commas

variable {us : List Token} {tss : List (List Token)} {c : Token}

theorem CommaSeparated.singleton (ts : List Token) : CommaSeparated [ts] ts := by
  have h : CommaSeparated [ts] (ts ++ []) := .cons .nil
  rwa [List.append_nil] at h

theorem CommaLed.ended (h : CommaLed tss us) (ts : List Token) :
    CommaEnded (ts :: tss) (ts ++ us) := by
  induction h generalizing ts with
  | nil => simpa using CommaEnded.last
  | cons hc _ ih => exact .cons hc (ih _)

theorem CommaLed.ended_snoc (h : CommaLed tss us) (ts : List Token) (hc : c.kind = .comma) :
    CommaEnded (ts :: tss) (ts ++ us ++ [c]) := by
  induction h generalizing ts with
  | nil => simpa using CommaEnded.cons hc .nil
  | cons hd _ ih => simpa using CommaEnded.cons hd (ih _)

theorem commaEnded_iff : CommaEnded tss us ↔ CommaSeparated tss us ∨
    ∃ init c, tss ≠ [] ∧ CommaSeparated tss init ∧ c.kind = .comma ∧ us = init ++ [c] := by
  constructor
  · intro h
    induction h with
    | nil => exact .inl .nil
    | last => exact .inl (.singleton _)
    | @cons c ts us tss hc _ ih =>
      rcases ih with hsep | ⟨init, d, hne, hsep, hd, rfl⟩
      · cases hsep with
        | nil => exact .inr ⟨ts, c, by simp, .singleton ts, hc, rfl⟩
        | cons hled => exact .inl (.cons (.cons hc hled))
      · cases hsep with
        | nil => exact absurd rfl hne
        | cons hled => exact .inr ⟨_, d, by simp, .cons (.cons hc hled), hd, by simp⟩
  · rintro (hsep | ⟨init, c, hne, hsep, hc, rfl⟩)
    · cases hsep with
      | nil => exact .nil
      | cons hled => exact hled.ended _
    · cases hsep with
      | nil => exact absurd rfl hne
      | cons hled => exact hled.ended_snoc _ hc

theorem CommaSeparated.endsWith {P : TokenKind → Prop} (h : CommaSeparated tss us)
    (hts : ∀ ts ∈ tss, EndsWith P ts) (hne : us ≠ []) : EndsWith P us := by
  cases h with
  | nil => exact absurd rfl hne
  | @cons ts us tss hled =>
    clear hne
    induction hled generalizing ts with
    | nil => simpa using hts
    | cons _ _ ih =>
      obtain ⟨-, htss⟩ := List.forall_mem_cons.1 hts
      exact .append _ (.cons _ (ih htss))

end Commas

/-! ## Items -/

def SpellsItem (x : Expr) (text : List Token) : Prop := Derives (.expression 0 x) text

def SpellsParameter (p : Token) (text : List Token) : Prop := p.kind = .ident ∧ text = [p]

/-- A key, a colon and a value. -/
def SpellsPair (p : Expr × Expr) (text : List Token) : Prop :=
  ∃ key colon value, Derives (.expression 0 p.1) key ∧ colon.kind = .colon ∧
    Derives (.expression 0 p.2) value ∧ text = key ++ colon :: value

namespace Parser

variable {α β : Type} {P : α → List Token → Prop}

theorem exists_spelledPairs {xs : List ((Expr × Expr) × List Token)}
    (h : ∀ x ∈ xs, SpellsPair x.1 x.2) : ∃ ys : List SpelledPair,
      (∀ y ∈ ys, Derives (.expression 0 y.key) y.keyText ∧ y.colon.kind = .colon ∧
        Derives (.expression 0 y.value) y.valueText) ∧
      ys.map (·.pair) = xs.map (·.1) ∧ ys.map (·.text) = xs.map (·.2) := by
  induction xs with
  | nil => exact ⟨[], by simp⟩
  | cons x xs ih =>
    obtain ⟨hx, hxs⟩ := List.forall_mem_cons.1 h
    obtain ⟨key, colon, value, hkey, hcolon, hvalue, htext⟩ := hx
    obtain ⟨ys, hys, hpairs, htexts⟩ := ih hxs
    refine ⟨⟨x.1.1, key, colon, x.1.2, value⟩ :: ys, ?_, ?_, ?_⟩
    · exact List.forall_mem_cons.2 ⟨⟨hkey, hcolon, hvalue⟩, hys⟩
    · rw [List.map_cons, hpairs]
      rfl
    · rw [List.map_cons, htexts, List.map_cons, htext]
      rfl

theorem PairsListed.listed {ps : List (Expr × Expr)} {us : List Token} (h : PairsListed ps us) :
    Listed CommaEnded SpellsPair ps us := by
  obtain ⟨xs, rfl, hkeys, hcolons, hvalues, hjoined⟩ := h
  refine ⟨xs.map fun x => (x.pair, x.text), by simp, ?_,
    by simpa [Function.comp_def] using hjoined⟩
  refine List.forall_mem_map.2 fun x hx => ?_
  exact ⟨_, _, _, hkeys x hx, hcolons x hx, hvalues x hx, rfl⟩

theorem listed_commaEnded_iff {as : List α} {us : List Token} :
    Listed CommaEnded P as us ↔ Listed CommaSeparated P as us ∨
      ∃ init c, as ≠ [] ∧ Listed CommaSeparated P as init ∧ c.kind = .comma ∧
        us = init ++ [c] := by
  constructor
  · rintro ⟨xs, rfl, hxs, hjoined⟩
    rcases commaEnded_iff.1 hjoined with hsep | ⟨init, c, hne, hsep, hc, rfl⟩
    · exact .inl ⟨xs, rfl, hxs, hsep⟩
    · exact .inr ⟨init, c, by simpa using hne, ⟨xs, rfl, hxs, hsep⟩, hc, rfl⟩
  · rintro (⟨xs, rfl, hxs, hsep⟩ | ⟨init, c, hne, ⟨xs, rfl, hxs, hsep⟩, hc, rfl⟩)
    · exact ⟨xs, rfl, hxs, commaEnded_iff.2 (.inl hsep)⟩
    · refine ⟨xs, rfl, hxs, commaEnded_iff.2 (.inr ⟨init, c, ?_, hsep, hc, rfl⟩)⟩
      simpa using hne

theorem not_listed_snoc (ps : List (Expr × Expr)) (init : List Token) {c : Token}
    (hc : c.kind = .comma) : ¬Listed CommaSeparated SpellsPair ps (init ++ [c]) := by
  rintro ⟨xs, rfl, hxs, hsep⟩
  have hends : ∀ x ∈ xs, EndsWith TokenKind.EndsExpression x.2 := by
    intro x hx
    obtain ⟨key, colon, value, -, -, hvalue, htext⟩ := hxs x hx
    rw [htext]
    exact .append _ (.cons _ hvalue.ends)
  obtain ⟨us, t, heq, ht⟩ := hsep.endsWith (List.forall_mem_map.2 hends) (by simp)
  obtain ⟨-, rfl⟩ : init = us ∧ c = t := by simpa using heq
  simp [TokenKind.EndsExpression, hc] at ht

/-! ## Reading up to the closing token -/

/-- Behind the current token, which opens it, the step reads a text up to the `closing` token. It
does so without a new error just if a text up to such a token has the form for some result. Then it
has this result, and ends on this token. -/
def Delimits (closing : TokenKind) (form : α → List Token → Prop) (x : Parser α) (w : Window) :
    Prop :=
  ∃ r u, x w = some (r, u) ∧
    (u.errors = w.errors ↔
      ∃ a text c rest, w.ahead = text ++ c :: rest ∧ c.kind = closing ∧ form a text) ∧
    ∀ a text c rest, w.ahead = text ++ c :: rest → c.kind = closing → form a text →
      r = .ok a ∧ u = ⟨c :: rest, w.eof, w.errors⟩

variable {closing : TokenKind} {form : α → List Token → Prop} {w : Window} {n : Nat}

namespace Delimits

theorem congr {x y : Parser α} (h : Delimits closing form y w) (hxy : x w = y w) :
    Delimits closing form x w := by
  rwa [Delimits, hxy]

theorem mono {form' : α → List Token → Prop} {x : Parser α} (h : Delimits closing form x w)
    (hform : ∀ a text, form' a text ↔ form a text) : Delimits closing form' x w := by
  have heq : form' = form := by
    funext a text
    exact propext (hform a text)
  rwa [heq]

theorem map {x : Parser α} (h : Delimits closing form x w) (f : α → β) :
    Delimits closing (fun b text => ∃ a, b = f a ∧ form a text) (x >>= fun a => pure (f a)) w := by
  obtain ⟨r, u, hr, hquiet, hend⟩ := h
  have hmap : (x >>= fun a => pure (f a)) w = some (r.map f, u) := by
    cases r with
    | error e => exact Run.bind_error hr
    | ok a => exact Run.bind_ok hr
  refine ⟨r.map f, u, hmap, hquiet.trans ⟨?_, ?_⟩, ?_⟩
  · rintro ⟨a, text, c, rest, htext, hc, ha⟩
    exact ⟨f a, text, c, rest, htext, hc, a, rfl, ha⟩
  · rintro ⟨_, text, c, rest, htext, hc, a, rfl, ha⟩
    exact ⟨a, text, c, rest, htext, hc, ha⟩
  · rintro _ text c rest htext hc ⟨a, rfl, ha⟩
    obtain ⟨rfl, hu⟩ := hend a text c rest htext hc ha
    exact ⟨rfl, hu⟩

/-- A step that has an answer, obeys the form where it adds no error, and reads every text of the
form at some depth. -/
theorem of_reads {x : Nat → Parser α} (hx : ∀ n, Run.Refines (x n) (x (n + 1)))
    (hanswers : Answers (x n) w)
    (hobeys : Obeys (x n) w fun a u => ∃ text c, w.ahead = text ++ c :: u.ahead ∧ form a text ∧
      c.kind = closing)
    (hreads : ∀ a text c rest, w = ⟨w.current :: (text ++ c :: rest), w.eof, w.errors⟩ →
      c.kind = closing → form a text → Reads x w a ⟨c :: rest, w.eof, w.errors⟩) :
    Delimits closing form (x n) w := by
  obtain ⟨⟨r, u⟩, hr⟩ := hanswers
  have hend : ∀ a text c rest, w.ahead = text ++ c :: rest → c.kind = closing → form a text →
      r = .ok a ∧ u = ⟨c :: rest, w.eof, w.errors⟩ := by
    intro a text c rest htext hc ha
    have hw : w = ⟨w.current :: (text ++ c :: rest), w.eof, w.errors⟩ := by
      obtain ⟨_ | ⟨t, ts⟩, e, es⟩ := w
      · simp [Window.ahead] at htext
      · obtain rfl : ts = _ := htext
        rfl
    exact Prod.mk.inj ((hreads a text c rest hw hc ha).eq_of_refines hx hr)
  refine ⟨r, u, hr, ⟨fun hq => ?_, ?_⟩, hend⟩
  · obtain ⟨a, -, text, c, htext, ha, hc⟩ := (hobeys r u hr).2 hq
    exact ⟨a, text, c, u.ahead, htext, hc, ha⟩
  · rintro ⟨a, text, c, rest, htext, hc, ha⟩
    rw [(hend a text c rest htext hc ha).2]

end Delimits

/-! ## The lists of the grammar -/

theorem items_delimits {item : Nat → Parser α} (he : w.eof.kind = .eof)
    (hclosing : closing ≠ .comma ∧ closing ≠ .eof) (hn : w.size ≤ n ∧ 1 ≤ n)
    (hdeepens : ∀ n, Run.Refines (item n) (item (n + 1)))
    (hanswers : ∀ v, v.eof.kind = .eof → v.size ≤ w.size → Answers (item n) v)
    (hobeys : ∀ v, v.eof.kind = .eof → Obeys (item n) v (Passes P v))
    (hreads : ∀ a text, P a text → ReadsItem w.eof w.errors closing item (a, text)) :
    Delimits closing (Listed CommaSeparated P) (items closing (item n) n) w := by
  refine .of_reads (x := fun n => items closing (item n) n)
    (fun n => refines_items (hdeepens n) closing n)
    (items_answers he hn.1 hn.2 hobeys hanswers) (items_obeys he hclosing.2 hobeys) ?_
  rintro _ text c rest hw hc ⟨xs, rfl, hxs, hjoined⟩
  have hitems : ∀ x ∈ xs, ReadsItem w.eof w.errors closing item x := fun x hx =>
    hreads x.1 x.2 (hxs x hx)
  have hread := reads_items hclosing.1 hjoined hitems w.current rest hc
  rwa [← hw] at hread

theorem expressions_delimit (he : w.eof.kind = .eof)
    (hclosing : closing = .rightParen ∨ closing = .rightBracket) (hw : 1 ≤ w.size)
    (hn : 2 * w.size ≤ n) : Delimits closing (Listed CommaSeparated SpellsItem)
      (items closing (advanced (expression n .lowest)) n) w := by
  refine items_delimits he ?_ (by omega) (fun n => (deepens n).item)
    (item_answers (enough n) hw hn) (item_obeys (sound n)) ?_
  · rcases hclosing with rfl | rfl <;> simp
  · intro x text (hd : Derives (.expression 0 x) text)
    have hone : ∀ a ∈ [(x, text)], Derives (.expression 0 a.1) a.2 := by simpa using hd
    exact readsItems_of_readable hone (fun a ha => readable (hone a ha)) hclosing _ (by simp)

theorem parameters_delimit (he : w.eof.kind = .eof) (hn : w.size ≤ n ∧ 1 ≤ n) :
    Delimits .rightParen (Listed CommaSeparated SpellsParameter)
      (items .rightParen parameter n) w := by
  have hobeys (v : Window) (hv : v.eof.kind = .eof) :
      Obeys parameter v (Passes SpellsParameter v) := parameter_obeys hv
  have hreads (p : Token) (text : List Token) (h : SpellsParameter p text) :
      ReadsItem w.eof w.errors .rightParen (fun _ => parameter) (p, text) := by
    obtain ⟨hp, rfl⟩ := h
    exact readsItem_parameter hp
  exact items_delimits he ⟨by simp, by simp⟩ hn (fun _ => .refl _)
    (fun v _ _ => parameter_answers v) hobeys hreads

theorem array_delimits (he : w.eof.kind = .eof) (hk : w.current.kind = .leftBracket)
    (hn : 2 * w.size < n) : Delimits .rightBracket (fun x text => ∃ xs, x = .array w.current xs ∧
      Listed CommaSeparated SpellsItem xs text) (operand n) w := by
  obtain ⟨n, rfl⟩ : ∃ m, n = m + 1 := ⟨n - 1, by omega⟩
  have hw := Window.size_of_current he (by simp [hk])
  have hitems := expressions_delimit (n := n) he (.inr rfl) hw (by omega)
  refine (hitems.map (Expr.array w.current)).congr ?_
  rw [operand, Run.bind_ok (current_apply w)]
  simp only [hk]

theorem call_delimits (he : w.eof.kind = .eof) (hk : w.current.kind = .leftParen)
    (hn : 2 * w.size < n) (callee : Expr) : Delimits .rightParen (fun x text =>
      ∃ xs, x = .call w.current callee xs ∧ Listed CommaSeparated SpellsItem xs text)
      (suffix n callee) w := by
  obtain ⟨n, rfl⟩ : ∃ m, n = m + 1 := ⟨n - 1, by omega⟩
  have hw := Window.size_of_current he (by simp [hk])
  have hitems := expressions_delimit (n := n) he (.inl rfl) hw (by omega)
  refine (hitems.map (Expr.call w.current callee)).congr ?_
  rw [suffix, Run.bind_ok (current_apply w)]
  simp only [hk]

theorem hash_delimits (he : w.eof.kind = .eof) (hk : w.current.kind = .leftBrace)
    (hn : 2 * w.size < n) : Delimits .rightBrace (fun x text => ∃ ps, x = .hash w.current ps ∧
      Listed CommaEnded SpellsPair ps text) (operand n) w := by
  obtain ⟨n, rfl⟩ : ∃ m, n = m + 1 := ⟨n - 1, by omega⟩
  refine .of_reads (fun n => (deepens n).operand) ((enough (n + 1)).operand w he (by omega)) ?_ ?_
  · rw [operand]
    refine .current_bind ?_
    simp only [hk]
    refine .bind (pairs_obeys he (pairItem_obeys (sound n))) fun ps u hu hps => ?_
    refine .expect_bind fun hc => .pure fun hu' => ?_
    have hue : u.eof.kind = .eof := hu.eof ▸ he
    obtain ⟨us, hus, hlisted, -, -⟩ := hps hu'
    refine ⟨us, u.next, ?_, ⟨ps, rfl, hlisted.listed⟩, hc⟩
    rw [hus, Window.ahead_eq hue (by simp [hc])]
  · rintro _ text c rest hw hc ⟨_, rfl, xs, rfl, hxs, hjoined⟩
    obtain ⟨ys, hys, hpairs, htexts⟩ := exists_spelledPairs hxs
    have hreads : ∀ y ∈ ys, ReadsPair w.eof w.errors (expression · .lowest) y := fun y hy =>
      readsPair_of_readable (hys y hy).1 (readable (hys y hy).1) (hys y hy).2.1
        (readable (hys y hy).2.2)
    obtain ⟨l, hread⟩ := reads_pairs (htexts ▸ hjoined) hreads w.current rest hc
    rw [← hw, hpairs] at hread
    refine .succ ?_
    simp only [operand]
    refine .current_bind ?_
    simp only [hk]
    exact .bind hread (.expect_bind hc .pure)

end Parser

open Treewalk.Parser

/-- Wherever the parser stands in a list of tokens, and at any depth that suffices for the rest of
them: an array, the arguments of a call and the parameters of a function are read without a new
error just if items with a comma between each two stand before a closing token, and these items
are then in the list. A hash is so for its pairs, except that one comma may follow the last. -/
theorem lists_delimited {ts : List Token} {w : Window} (hw : (Window.ofTokens ts).Leads w)
    {n : Nat} (hn : 2 * w.tokens.length < n) :
    (w.current.kind = .leftBracket → Delimits .rightBracket (fun x text =>
      ∃ xs, x = .array w.current xs ∧ Listed CommaSeparated SpellsItem xs text) (operand n) w) ∧
    (w.current.kind = .leftParen → ∀ callee, Delimits .rightParen (fun x text =>
      ∃ xs, x = .call w.current callee xs ∧ Listed CommaSeparated SpellsItem xs text)
      (suffix n callee) w) ∧
    (w.current.kind = .leftParen → Delimits .rightParen (Listed CommaSeparated SpellsParameter)
      (items .rightParen parameter n) w) ∧
    (w.current.kind = .leftBrace → Delimits .rightBrace (fun x text =>
      ∃ ps, x = .hash w.current ps ∧ (Listed CommaSeparated SpellsPair ps text ∨
        ∃ init c, ps ≠ [] ∧ Listed CommaSeparated SpellsPair ps init ∧ c.kind = .comma ∧
          text = init ++ [c])) (operand n) w) := by
  have he : w.eof.kind = .eof := by
    rw [hw.eof]
    rfl
  refine ⟨fun hk => array_delimits he hk hn, fun hk callee => call_delimits he hk hn callee,
    fun _ => parameters_delimit he ?_, fun hk => (hash_delimits he hk hn).mono fun x text => ?_⟩
  · unfold Window.size
    omega
  · simp only [listed_commaEnded_iff]

theorem lists_delimited_array :
    let token (kind : TokenKind) (text : String) : Token := ⟨kind, text, 1⟩
    let a := token .ident "a"
    let b := token .ident "b"
    let o := token .leftBracket "["
    let c := token .rightBracket "]"
    let w := Window.ofTokens [o, a, token .comma ",", b, c]
    (Window.ofTokens w.tokens).Leads w ∧ 2 * w.tokens.length < w.depth ∧
      operand w.depth w =
        some (.ok (.array o [.identifier a, .identifier b]), ⟨[c], w.eof, []⟩) := by
  intro token a b o c w
  have hw : (Window.ofTokens w.tokens).Leads w := .refl _
  have hdepth : 2 * w.tokens.length < w.depth := by decide
  have hitems : Listed CommaSeparated SpellsItem [.identifier a, .identifier b]
      [a, token .comma ",", b] := by
    refine ⟨[(.identifier a, [a]), (.identifier b, [b])], rfl, ?_, .cons (.cons rfl .nil)⟩
    simp only [List.forall_mem_cons]
    exact ⟨.identifier rfl, .identifier rfl, by simp⟩
  obtain ⟨r, u, hr, -, hend⟩ := (lists_delimited hw hdepth).1 rfl
  obtain ⟨rfl, rfl⟩ := hend _ _ c [] rfl rfl ⟨_, rfl, hitems⟩
  exact ⟨hw, hdepth, hr⟩

/-- In `{a: b,}` a comma stands before the closing brace, and there is no error. -/
theorem hash_takes_last_comma :
    let token (kind : TokenKind) (text : String) : Token := ⟨kind, text, 1⟩
    let a := token .ident "a"
    let b := token .ident "b"
    let o := token .leftBrace "\x7b"
    let c := token .rightBrace "\x7d"
    let text := [a, token .colon ":", b, token .comma ","]
    let w := Window.ofTokens (o :: (text ++ [c, .eof 1]))
    scan "\x7ba: b,\x7d" = w.tokens ∧
      operand w.depth w =
        some (.ok (.hash o [(.identifier a, .identifier b)]), ⟨[c, .eof 1], w.eof, []⟩) ∧
      (∀ ps, ¬Listed CommaSeparated SpellsPair ps text) ∧
      ¬Delimits .rightBrace (fun x text => ∃ ps, x = .hash w.current ps ∧
        Listed CommaSeparated SpellsPair ps text) (operand w.depth) w := by
  intro token a b o c text w
  have hread : operand w.depth w =
      some (.ok (.hash o [(.identifier a, .identifier b)]), ⟨[c, .eof 1], w.eof, []⟩) := rfl
  have hnone (ps : List (Expr × Expr)) : ¬Listed CommaSeparated SpellsPair ps text :=
    not_listed_snoc ps [a, token .colon ":", b] rfl
  refine ⟨by decide +kernel, hread, hnone, ?_⟩
  rintro ⟨r, u, hr, hquiet, hend⟩
  rw [hread] at hr
  cases hr
  obtain ⟨x, before, d, rest, hbefore, hd, hx⟩ := hquiet.1 rfl
  -- The step has ended on the brace, so the text before it is the one with the comma.
  obtain ⟨-, hu⟩ := hend x before d rest hbefore hd hx
  have hrest : [c, .eof 1] = d :: rest := congrArg Window.tokens hu
  have hahead : text ++ [c, .eof 1] = before ++ d :: rest := hbefore
  rw [← hrest] at hahead
  obtain ⟨ps, -, hlisted⟩ := hx
  exact hnone ps (List.append_cancel_right hahead ▸ hlisted)

end Treewalk
