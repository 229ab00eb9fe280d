import Treewalk.Proofs.Parser.Faithful
import Treewalk.Proofs.Parser.Lines
import Treewalk.Proofs.Token.Seam

/-!
# Programs one after another

A program whose text ends in a semicolon can be followed by any other one: their texts with a line
end between them are read as the statements of the one and then those of the other.
-/

namespace Treewalk

/-! ## Tokens inside programs -/

/-- A kind that occurs inside programs. -/
def TokenKind.Legal (kind : TokenKind) : Prop := kind ≠ .eof ∧ kind ≠ .illegal

namespace TokenKind

theorem legal_of_isSilent {kind : TokenKind} (h : kind.isSilent) : kind.Legal := by
  cases kind <;> simp_all [isSilent, Legal]

theorem legal_of_prefix {kind : TokenKind} {op : PrefixOp} (h : PrefixOp.ofKind? kind = some op) :
    kind.Legal := by
  cases kind <;> simp_all [PrefixOp.ofKind?, Legal]

theorem legal_of_infix {kind : TokenKind} {op : InfixOp} (h : InfixOp.ofKind? kind = some op) :
    kind.Legal := by
  cases kind <;> simp_all [InfixOp.ofKind?, Legal]

end TokenKind

theorem Token.legal_of_eq {t : Token} {kind : TokenKind} (h : t.kind = kind)
    (hk : kind.Legal := by simp [TokenKind.Legal]) : t.kind.Legal := h ▸ hk

def LegalText (ts : List Token) : Prop := ∀ t ∈ ts, t.kind.Legal

namespace LegalText

variable {t : Token} {ts us : List Token}

theorem cons (ht : t.kind.Legal) (hts : LegalText ts) : LegalText (t :: ts) :=
  List.forall_mem_cons.2 ⟨ht, hts⟩

theorem singleton (ht : t.kind.Legal) : LegalText [t] := List.forall_mem_singleton.2 ht

theorem append (hts : LegalText ts) (hus : LegalText us) : LegalText (ts ++ us) :=
  List.forall_mem_append.2 ⟨hts, hus⟩

theorem snoc (hts : LegalText ts) (ht : t.kind.Legal) : LegalText (ts ++ [t]) :=
  hts.append (.singleton ht)

theorem of_omits (h : Omits ts us) (hus : LegalText us) : LegalText ts := by
  induction h with
  | nil => exact hus
  | keep _ ih =>
    obtain ⟨ht, hus⟩ := List.forall_mem_cons.1 hus
    exact .cons ht (ih hus)
  | drop ht _ ih => exact .cons (TokenKind.legal_of_isSilent ht) (ih hus)

theorem flatten {α : Type} {xs : List α} {text : α → List Token}
    (h : ∀ x ∈ xs, LegalText (text x)) : LegalText (xs.map text).flatten := by
  intro t ht
  obtain ⟨us, hus, ht⟩ := List.mem_flatten.1 ht
  obtain ⟨x, hx, rfl⟩ := List.mem_map.1 hus
  exact h x hx t ht

end LegalText

theorem Derives.legal {x : Phrase} {ts : List Token} (h : Derives x ts) : LegalText ts := by
  induction h with
  | identifier ht | string ht | trueWord ht | falseWord ht | integer ht _ | bareReturn ht =>
    exact .singleton (Token.legal_of_eq ht)
  | group ho _ hc ih =>
    exact .cons (Token.legal_of_eq ho) (ih.snoc (Token.legal_of_eq hc))
  | prefixed _ hop _ ih => exact .cons (TokenKind.legal_of_prefix hop) ih
  | binary _ hop _ _ ihx ihy => exact ihx.append (.cons (TokenKind.legal_of_infix hop) ihy)
  | call _ ho _ _ hus hc ihx iha =>
    have harguments := LegalText.of_omits (.commaSeparated hus) (.flatten iha)
    exact ihx.append (.cons (Token.legal_of_eq ho) (harguments.snoc (Token.legal_of_eq hc)))
  | index _ ho _ _ hc ihx ihy =>
    exact ihx.append (.cons (Token.legal_of_eq ho) (ihy.snoc (Token.legal_of_eq hc)))
  | array ho _ hus hc iha =>
    have helements := LegalText.of_omits (.commaSeparated hus) (.flatten iha)
    exact .cons (Token.legal_of_eq ho) (helements.snoc (Token.legal_of_eq hc))
  | hash ho _ hcolons _ hus hc ihk ihv =>
    have hpairs := LegalText.of_omits (.commaEnded hus) (.flatten fun x hx =>
      (ihk x hx).append (.cons (Token.legal_of_eq (hcolons x hx)) (ihv x hx)))
    exact .cons (Token.legal_of_eq ho) (hpairs.snoc (Token.legal_of_eq hc))
  | conditional hi ho _ hc _ ihx ihb =>
    have hrest := ihx.append (.cons (Token.legal_of_eq hc) ihb)
    exact .cons (Token.legal_of_eq hi) (.cons (Token.legal_of_eq ho) hrest)
  | alternative hi ho _ hc _ hw _ ihx ihb ihd =>
    have hblocks := ihb.append (.cons (Token.legal_of_eq hw) ihd)
    have hrest := ihx.append (.cons (Token.legal_of_eq hc) hblocks)
    exact .cons (Token.legal_of_eq hi) (.cons (Token.legal_of_eq ho) hrest)
  | function hf ho hp hus hc _ ihb =>
    have hparameters := LegalText.of_omits (.commaSeparated hus) (.flatten fun p hmem =>
      .singleton (Token.legal_of_eq (hp p hmem)))
    have hrest := hparameters.append (.cons (Token.legal_of_eq hc) ihb)
    exact .cons (Token.legal_of_eq hf) (.cons (Token.legal_of_eq ho) hrest)
  | block ho _ hc ih => exact .cons (Token.legal_of_eq ho) (ih.snoc (Token.legal_of_eq hc))
  | binding hl hn ha _ ih =>
    have hrest := LegalText.cons (Token.legal_of_eq ha) ih
    exact .cons (Token.legal_of_eq hl) (.cons (Token.legal_of_eq hn) hrest)
  | returning hr _ ih => exact .cons (Token.legal_of_eq hr) ih
  | expression _ ih => exact ih
  | nil => exact fun t ht => nomatch ht
  | ended _ hc _ ihs ihss => exact ihs.append (.cons (Token.legal_of_eq hc) ihss)
  | unended _ _ _ ihs ihss => exact ihs.append ihss

/-! ## Last tokens -/

/-- The text ends, and on no semicolon. -/
def Unterminated (ts : List Token) : Prop :=
  ∃ init last, ts = init ++ [last] ∧ last.kind ≠ .semicolon

theorem EndsWith.unterminated {P : TokenKind → Prop} {ts : List Token} (h : EndsWith P ts)
    (hP : ¬P .semicolon) : Unterminated ts := by
  obtain ⟨init, last, rfl, hlast⟩ := h
  exact ⟨init, last, rfl, fun hk => hP (hk ▸ hlast)⟩

def Phrase.Unterminated : Phrase → List Token → Prop
  | .statements _, _ => True
  | _, ts => Treewalk.Unterminated ts

theorem Derives.unterminated {x : Phrase} {ts : List Token} (h : Derives x ts) :
    x.Unterminated ts := by
  have hends := h.ends
  cases x with
  | expression => exact hends.unterminated (by simp [TokenKind.EndsExpression])
  | block => exact EndsWith.unterminated (P := (· = .rightBrace)) hends (by simp)
  | statement =>
    exact hends.unterminated (by simp [TokenKind.EndsStatement, TokenKind.EndsExpression])
  | statements => trivial

/-! ## Statements one after another -/

/-- The text is empty or ends on a semicolon. -/
def Terminated (ts : List Token) : Prop := ∀ t ∈ ts.getLast?, t.kind = .semicolon

theorem Terminated.of_append {ts us : List Token} (h : Terminated (ts ++ us)) (hus : us ≠ []) :
    Terminated us := by
  rwa [Terminated, List.getLast?_append_of_ne_nil _ hus] at h

theorem Unterminated.not_terminated {ts : List Token} (h : Unterminated ts) : ¬Terminated ts := by
  obtain ⟨init, last, rfl, hlast⟩ := h
  exact fun hts => hlast (hts last (by simp))

theorem Statement.OpenTo.append {s : Statement} {ts : List Token} (h : s.OpenTo ts) (hts : ts ≠ [])
    (us : List Token) : s.OpenTo (ts ++ us) := by
  obtain ⟨t, rest, rfl⟩ := List.exists_cons_of_ne_nil hts
  cases s with
  | returning token value =>
    cases value with
    | none => cases h
    | some => exact h
  | _ => exact h

theorem Derives.statements_append {ss ss' : List Statement} {ts us : List Token}
    (h : Derives (.statements ss) ts) (hts : Terminated ts) (h' : Derives (.statements ss') us) :
    Derives (.statements (ss ++ ss')) (ts ++ us) := by
  generalize hx : Phrase.statements ss = x at h
  induction h generalizing ss with
  | nil =>
    cases hx
    exact h'
  | @ended c s rest text more hs hc hss _ ih =>
    cases hx
    rw [List.cons_append, List.append_assoc, List.cons_append]
    refine .ended hs hc (ih ?_ rfl)
    rcases eq_or_ne more [] with rfl | hmore
    · simp [Terminated]
    · have hends : Terminated ([c] ++ more) := hts.of_append (by simp)
      exact hends.of_append hmore
  | @unended s rest text more hs hopen hss _ ih =>
    cases hx
    rw [List.cons_append, List.append_assoc]
    rcases eq_or_ne more [] with rfl | hmore
    · rw [List.append_nil] at hts
      exact absurd hts hs.unterminated.not_terminated
    · exact .unended hs (hopen.append hmore us) (ih (hts.of_append hmore) rfl)
  | _ => cases hx

/-! ## Sources one after another -/

/-- The last token of the text before its end is a semicolon. -/
def EndsInSemicolon (source : String) : Prop :=
  (scan source).dropLast.getLast?.map (·.kind) = some .semicolon

theorem derives_of_scan {source : String} (h : (parse source).errors = []) :
    ∃ body n, scan source = body ++ [.eof n] ∧
      Derives (.statements (parse source).program) body := by
  obtain ⟨text, rest, heq, hd, hrest⟩ := derives_of_errors_eq_nil h
  obtain ⟨body, n, hscan, hbody⟩ := scan_ends source
  refine ⟨body, n, hscan, ?_⟩
  rw [hscan] at heq
  rcases List.append_eq_append_iff.1 heq with ⟨more, rfl, hmore⟩ | ⟨more, rfl, rfl⟩
  · -- The end of input is no part of the program.
    cases more with
    | nil => rwa [List.append_nil] at hd
    | cons t more =>
      obtain ⟨rfl, -⟩ := List.cons.inj hmore
      exact absurd rfl (hd.legal (.eof n) (by simp)).1
  · -- Nor does the program stop before it.
    cases more with
    | nil => rwa [List.append_nil]
    | cons t more => exact absurd (hrest t rfl) (hbody t (by simp))

/-- Two texts with a line end between them parse to the statements of the first and then, up to
lines, those of the second. -/
theorem parse_append_newline {s₁ s₂ : String} (h₁ : (parse s₁).errors = [])
    (h₂ : (parse s₂).errors = []) (hend : EndsInSemicolon s₁) :
    (parse (s₁ ++ "\n" ++ s₂)).errors = [] ∧
      ∃ q, (parse (s₁ ++ "\n" ++ s₂)).program = (parse s₁).program ++ q ∧
        q.map Statement.unlined = (parse s₂).program.map Statement.unlined := by
  obtain ⟨body₁, n₁, hscan₁, hd₁⟩ := derives_of_scan h₁
  obtain ⟨body₂, n₂, hscan₂, hd₂⟩ := derives_of_scan h₂
  have hlegal : ∀ t ∈ scan s₁, t.kind ≠ .illegal := by
    rw [hscan₁]
    refine List.forall_mem_append.2 ⟨fun t ht => (hd₁.legal t ht).2, ?_⟩
    exact List.forall_mem_singleton.2 (by simp [Token.eof])
  obtain ⟨body, n, us, hscan, hjoined, hus⟩ := scan_append_newline hlegal s₂
  obtain rfl : body = body₁ := (List.append_inj' (hscan.symm.trans hscan₁) rfl).1
  rw [hscan₂] at hus
  obtain ⟨vs, m, rfl, hvs⟩ := hus.of_snoc
  obtain ⟨q, hq, heq⟩ := hd₂.relined hvs
  have hterminated : Terminated body := by
    intro t ht
    rw [EndsInSemicolon, hscan, List.dropLast_concat, ht] at hend
    exact Option.some.inj hend
  have hd := hd₁.statements_append hterminated hq
  have hends : Ends [Token.on m (.eof n₂)] := by
    intro t ht
    cases ht
    rfl
  rw [parse, hjoined, ← List.append_assoc, parseTokens_append_of_derives hd hends]
  exact ⟨rfl, q, rfl, heq⟩

end Treewalk
