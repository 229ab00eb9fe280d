import Treewalk.Proofs.Parser.Segments

/-!
# How far a broken `let` is skipped

A broken `let` is given up before the first closing brace, whatever brace that closes. So where it
opens a brace of its own, the rest of it is read as statements, and these lack an opening brace.
-/

namespace Treewalk

open Treewalk.Parser

/-! ## Braces -/

/-- How many braces a token of the kind opens. -/
def TokenKind.opens : TokenKind → Int
  | .leftBrace => 1
  | .rightBrace => -1
  | _ => 0

/-- The opening braces less the closing ones. -/
def surplus : List Token → Int
  | [] => 0
  | t :: ts => t.kind.opens + surplus ts

@[simp] theorem surplus_nil : surplus [] = 0 := rfl

@[simp] theorem surplus_cons (t : Token) (ts : List Token) :
    surplus (t :: ts) = t.kind.opens + surplus ts := rfl

@[simp] theorem surplus_append (ts us : List Token) :
    surplus (ts ++ us) = surplus ts + surplus us := by
  induction ts with
  | nil => exact (Int.zero_add _).symm
  | cons t ts ih => rw [List.cons_append, surplus_cons, surplus_cons, ih, Int.add_assoc]

theorem CommaLed.surplus {tss : List (List Token)} {us : List Token} (h : CommaLed tss us)
    (hts : ∀ ts ∈ tss, surplus ts = 0) : surplus us = 0 := by
  induction h with
  | nil => rfl
  | cons hc _ ih =>
    obtain ⟨hts, htss⟩ := List.forall_mem_cons.1 hts
    simp [TokenKind.opens, hc, hts, ih htss]

theorem CommaSeparated.surplus {tss : List (List Token)} {us : List Token}
    (h : CommaSeparated tss us) (hts : ∀ ts ∈ tss, surplus ts = 0) : surplus us = 0 := by
  cases h with
  | nil => rfl
  | cons h =>
    obtain ⟨hts, htss⟩ := List.forall_mem_cons.1 hts
    simp [hts, h.surplus htss]

theorem CommaEnded.surplus {tss : List (List Token)} {us : List Token} (h : CommaEnded tss us)
    (hts : ∀ ts ∈ tss, surplus ts = 0) : surplus us = 0 := by
  induction h with
  | nil => rfl
  | last => exact hts _ List.mem_cons_self
  | cons hc _ ih =>
    obtain ⟨hts, htss⟩ := List.forall_mem_cons.1 hts
    simp [TokenKind.opens, hc, hts, ih htss]

theorem PrefixOp.opens {kind : TokenKind} {op : PrefixOp} (h : PrefixOp.ofKind? kind = some op) :
    kind.opens = 0 := by
  cases kind <;> simp_all [PrefixOp.ofKind?, TokenKind.opens]

theorem InfixOp.opens {kind : TokenKind} {op : InfixOp} (h : InfixOp.ofKind? kind = some op) :
    kind.opens = 0 := by
  cases kind <;> simp_all [InfixOp.ofKind?, TokenKind.opens]

/-- What can be read without an error closes all braces that it opens, and no others. -/
theorem Derives.surplus {x : Phrase} {ts : List Token} (h : Derives x ts) : surplus ts = 0 := by
  induction h with
  | prefixed _ hop _ ih => simp [PrefixOp.opens hop, ih]
  | binary _ hop _ _ ihl ihr => simp [InfixOp.opens hop, ihl, ihr]
  | call _ ho _ _ hus hc ihf iha =>
    have hargs := hus.surplus (List.forall_mem_map.2 iha)
    simp [TokenKind.opens, ho, hc, ihf, hargs]
  | array ho _ hus hc ihe =>
    have helements := hus.surplus (List.forall_mem_map.2 ihe)
    simp [TokenKind.opens, ho, hc, helements]
  | hash ho _ hcolons _ hus hc ihk ihv =>
    have hpairs := hus.surplus <| List.forall_mem_map.2 fun x hx => by
      simp [SpelledPair.text, TokenKind.opens, hcolons x hx, ihk x hx, ihv x hx]
    simp [TokenKind.opens, ho, hc, hpairs]
  | function hf ho hp hus hc _ ihb =>
    have hparameters := hus.surplus <| List.forall_mem_map.2 fun p hmem => by
      simp [TokenKind.opens, hp p hmem]
    simp [TokenKind.opens, hf, ho, hc, hparameters, ihb]
  | _ => simp_all [TokenKind.opens]

/-- Behind `depth` open braces, tokens that close these and all that they open. The end of input is
not among them, and semicolons stand only inside of braces. -/
def Closes (depth : Int) : List Token → Prop
  | [] => depth = 0
  | t :: ts => t.kind ≠ .eof ∧ (depth = 0 → t.kind ≠ .semicolon ∧ t.kind ≠ .rightBrace) ∧
    Closes (depth + t.kind.opens) ts

instance Closes.decidable (depth : Int) : (ts : List Token) → Decidable (Closes depth ts)
  | [] => inferInstanceAs (Decidable (depth = 0))
  | t :: ts =>
    have := Closes.decidable (depth + t.kind.opens) ts
    inferInstanceAs (Decidable (_ ∧ _ ∧ _))

theorem Closes.surplus {depth : Int} {ts : List Token} (h : Closes depth ts) :
    depth + surplus ts = 0 := by
  induction ts generalizing depth with
  | nil => exact (Int.add_zero depth).trans h
  | cons t ts ih =>
    obtain ⟨-, -, hts⟩ := h
    rw [surplus_cons, ← Int.add_assoc]
    exact ih hts

theorem Closes.first_brace {ts : List Token} (h : Closes 0 ts) :
    (∀ t ∈ ts, t.kind.Skipped ∧ t.kind ≠ .leftBrace) ∨
      ∃ before o after, ts = before ++ o :: after ∧ (∀ t ∈ before, t.kind.Skipped) ∧
        o.kind = .leftBrace := by
  induction ts with
  | nil => exact .inl (by simp)
  | cons t ts ih =>
    obtain ⟨heof, houtside, hts⟩ := h
    by_cases ho : t.kind = .leftBrace
    · exact .inr ⟨[], t, ts, rfl, by simp, ho⟩
    have ht : t.kind.Skipped := ⟨(houtside rfl).1, (houtside rfl).2, heof⟩
    have hflat : t.kind.opens = 0 := by
      cases hk : t.kind <;> simp_all [TokenKind.opens, TokenKind.Skipped]
    rw [hflat] at hts
    rcases ih hts with hts | ⟨before, o, after, rfl, hbefore, ho⟩
    · exact .inl (List.forall_mem_cons.2 ⟨⟨ht, ho⟩, hts⟩)
    · exact .inr ⟨t :: before, o, after, rfl, List.forall_mem_cons.2 ⟨ht, hbefore⟩, ho⟩

/-! ## What is given up -/

theorem TokenKind.opens_nonneg {kind : TokenKind} (h : kind ≠ .rightBrace) : 0 ≤ kind.opens := by
  cases kind <;> simp_all [opens]

theorem surplus_nonneg {ts : List Token} (h : ∀ t ∈ ts, t.kind ≠ .rightBrace) : 0 ≤ surplus ts := by
  induction ts with
  | nil => exact Int.le_refl 0
  | cons t ts ih =>
    obtain ⟨ht, hts⟩ := List.forall_mem_cons.1 h
    exact Int.add_nonneg (TokenKind.opens_nonneg ht) (ih hts)

namespace Window

theorem surplus_restOfStatement_le (t : Token) (ts : List Token) :
    surplus (restOfStatement (t :: ts)).tail ≤ surplus ts := by
  induction ts generalizing t with
  | nil =>
    rw [restOfStatement]
    split <;> exact Int.le_refl _
  | cons u us ih =>
    rw [restOfStatement]
    split
    · exact Int.le_refl _
    · rename_i hgoes
      have hu : 0 ≤ u.kind.opens := TokenKind.opens_nonneg fun h => hgoes (by simp [h])
      have hrest := ih u
      rw [surplus_cons]
      omega

theorem surplus_restOfStatement_neg {before after : List Token} {o : Token}
    (hbefore : ∀ t ∈ before, t.kind.Skipped) (ho : o.kind = .leftBrace)
    (hall : surplus (before ++ o :: after) = 0) :
    surplus (restOfStatement (before ++ o :: after)).tail < 0 := by
  rw [restOfStatement_append hbefore (by simp [ho])]
  have hleft := surplus_restOfStatement_le o after
  -- what stands before the brace closes nothing, and the rest closes one brace too many
  have hpassed : 0 ≤ surplus before := surplus_nonneg fun t ht => (hbefore t ht).2.1
  have ho' : o.kind.opens = 1 := by simp [TokenKind.opens, ho]
  rw [surplus_append, surplus_cons] at hall
  omega

end Window

/-! ## The loop over statements -/

/-- In every list of statements, at the top level or in a block, and whatever stands behind it, a
`let` that consists of the word `l`, of `js` and of the semicolon `c` leaves one error and nothing
else. -/
def SkippedWhole (l : Token) (js : List Token) (c : Token) : Prop :=
  ∀ (closing : TokenKind) (rest : List Token) (e : Token) (es : List SyntaxError) (d n : Nat),
    closing = .eof ∨ closing = .rightBrace → e.kind = .eof →
      untilKind closing (statement (d + 1)) (n + 1) ⟨l :: (js ++ c :: rest), e, es⟩ =
        untilKind closing (statement (d + 1)) n ⟨rest, e, es ++ [missing js c]⟩

variable {l c : Token} {js : List Token}

theorem skippedWhole (hl : l.kind = .letWord) (hjs : ∀ j ∈ js, j.kind.Skipped)
    (hbroken : NoBinding js) (hc : c.kind = .semicolon) : SkippedWhole l js c := by
  intro closing rest e es d n hclosing he
  refine untilKind_lost ?_ (statement_missing hl hjs hbroken hc rest e es d)
  rcases hclosing with rfl | rfl <;> simp [hl]

theorem not_skippedWhole (hl : l.kind = .letWord) (hbroken : NoBinding js)
    (hc : c.kind = .semicolon)
    (hleft : surplus (Window.restOfStatement (l :: (js ++ [c]))).tail ≠ 0) :
    ¬SkippedWhole l js c := by
  intro hskipped
  -- With nothing behind the statement, the loop would end at once.
  let e := Token.eof 1
  have hread := hskipped .eof [] e [] 0 1 (.inl rfl) rfl
  rw [untilKind_lost (by simp [hl]) (statement_broken hl hbroken hc [] e [] 0)] at hread
  obtain ⟨-, hquiet⟩ := untilKind_obeys rfl (sound 1).statement _ _ hread
  obtain ⟨ss, -, text, htext, hd, -⟩ := hquiet rfl
  have hall : (Window.restOfStatement (l :: (js ++ [c]))).tail = text :=
    htext.trans (List.append_nil text)
  exact hleft (hall ▸ hd.surplus)

/-- Let `l`, `js` and `c` be a `let` that lacks its name or its equals sign, up to its semicolon,
whose braces match and which has semicolons of its own only inside of them. In a list of statements
it leaves one error and nothing else, whatever stands behind it, if and only if it has no braces:
before the closing brace of a group of its own it is taken to be at its end. -/
theorem broken_let_skipped_iff (hl : l.kind = .letWord) (hjs : Closes 0 js)
    (hbroken : NoBinding js) (hc : c.kind = .semicolon) :
    SkippedWhole l js c ↔ ∀ j ∈ js, j.kind ≠ .leftBrace := by
  -- without a brace the skip runs to the semicolon, and else it stops inside the braces
  rcases hjs.first_brace with hplain | ⟨before, o, after, rfl, hbefore, ho⟩
  · refine iff_of_true (skippedWhole hl (fun j hj => (hplain j hj).1) hbroken hc) ?_
    exact fun j hj => (hplain j hj).2
  · refine iff_of_false (not_skippedWhole hl hbroken hc ?_) fun h => h o (by simp) ho
    have hword : ∀ t ∈ l :: before, t.kind.Skipped :=
      List.forall_mem_cons.2 ⟨by simp [TokenKind.Skipped, hl], hbefore⟩
    have hall : surplus (l :: before ++ o :: (after ++ [c])) = 0 := by
      have hinside := hjs.surplus
      simp_all [TokenKind.opens]
    have hsame : l :: (before ++ o :: after ++ [c]) = l :: before ++ o :: (after ++ [c]) := by simp
    rw [hsame]
    exact Int.ne_of_lt (Window.surplus_restOfStatement_neg hword ho hall)

theorem broken_let_skipped_iff_hash :
    let token (kind : TokenKind) (text : String) : Token := ⟨kind, text, 1⟩
    let word := token .letWord "let"
    let semicolon := token .semicolon ";"
    let hash : List Token := [token .assign "=", token .leftBrace "\x7b", token .int "1",
      token .colon ":", token .int "2", token .rightBrace "\x7d"]
    let number : List Token := [token .assign "=", token .int "1"]
    (Closes 0 hash ∧ NoBinding hash ∧ ¬SkippedWhole word hash semicolon) ∧
      (Closes 0 number ∧ NoBinding number ∧ SkippedWhole word number semicolon) := by
  intro token word semicolon hash number
  have unnamed : ∀ js, NoBinding (token .assign "=" :: js) := by
    rintro js i a rest h ⟨hi, -⟩
    cases h
    cases hi
  have hhash : Closes 0 hash := by decide
  have hnumber : Closes 0 number := by decide
  refine ⟨⟨hhash, unnamed _, fun h => ?_⟩, hnumber, unnamed _, ?_⟩
  · exact absurd ((broken_let_skipped_iff rfl hhash (unnamed _) rfl).1 h) (by decide)
  · exact (broken_let_skipped_iff rfl hnumber (unnamed _) rfl).2 (by decide)

/-- The function of `fn() { let = {1: 2}; 5 }` ends with the hash of the broken `let`, and its own
closing brace is then read as a statement. -/
theorem hash_ends_function :
    let token (kind : TokenKind) (text : String) : Token := ⟨kind, text, 1⟩
    let js : List Token := [token .assign "=", token .leftBrace "\x7b", token .int "1",
      token .colon ":", token .int "2", token .rightBrace "\x7d"]
    let source := "fn() \x7b let = \x7b1: 2\x7d; 5 \x7d"
    scan source = [token .function "fn", token .leftParen "(", token .rightParen ")",
        token .leftBrace "\x7b"] ++ token .letWord "let" :: (js ++ token .semicolon ";" ::
          [token .int "5", token .rightBrace "\x7d", token .eof ""]) ∧
      Closes 0 js ∧ js.head?.map (·.kind) ≠ some .ident ∧
      (parse source).errors = [.unexpected .ident .assign 1, .noExpression .rightBrace 1] ∧
      (parse source).program.map Statement.render = ["fn() \x7b  \x7d", "5"] := by
  intro token js source
  exact ⟨by decide +kernel, by decide, by decide, by decide +kernel, by decide +kernel⟩

end Treewalk
