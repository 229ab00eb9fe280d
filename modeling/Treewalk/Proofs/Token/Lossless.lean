import Treewalk.Proofs.Token.Patterns
import Treewalk.Token.Stream

/-!
# Nothing is lost in scanning

A text is its tokens with gaps between them, each token the longest one where it stands, and on the
line that the line ends before it make.
-/

namespace Treewalk

/-! ## Pieces of a text -/

/-- A quote without a closing one, and all that follows it. -/
def Token.IsUnclosed (t : Token) : Prop := t.kind = .illegal ∧ t.literal.toList.head? = some '"'

instance (t : Token) : Decidable t.IsUnclosed := inferInstanceAs (Decidable (_ ∧ _))

/-- A token and the gap before it. -/
structure Piece where
  gap : List Char
  token : Token

namespace Piece

def text (p : Piece) : List Char := p.gap ++ p.token.text.toList

/-- The text without an unclosed string. -/
def closed (p : Piece) : List Char :=
  p.gap ++ if p.token.IsUnclosed then [] else p.token.text.toList

/-- The piece stands between the texts `before` and `after` as the rules of scanning want it. -/
structure Fits (p : Piece) (before after : List Char) : Prop where
  gap : Gap p.gap (p.token.text.toList ++ after)
  /-- The gap goes on as far as it can. -/
  begins : ¬OpensGap (p.token.text.toList ++ after)
  legal : p.token.kind ≠ .illegal → p.token.kind.Matches p.token.text.toList ∧
    Longest p.token.text.toList (p.token.text.toList ++ after)
  /-- One character, or all that follows a quote. -/
  illegal : p.token.kind = .illegal → Unmatched (p.token.text.toList ++ after) ∧
    (p.token.IsUnclosed ∧ after = [] ∨ ∃ c, p.token.text.toList = [c] ∧ c ≠ '"')
  line : p.token.line = 1 + (before ++ p.gap).count '\n'

end Piece

def written (ps : List Piece) : List Char := ps.flatMap Piece.text

/-- How the text behind `before` is made up of pieces and a last gap, and its tokens with it. The
end is on the line that the line ends outside of an unclosed string make. -/
structure Splits (before text : List Char) (tokens : List Token) (pieces : List Piece)
    (rest : List Char) (line : Nat) : Prop where
  text : text = written pieces ++ rest
  last : Gap rest []
  tokens : tokens = pieces.map (·.token) ++ [.eof line]
  fits : ∀ left p right, pieces = left ++ p :: right →
    p.Fits (before ++ written left) (written right ++ rest)
  line : line = 1 + (before ++ (pieces.flatMap Piece.closed ++ rest)).count '\n'

namespace Splits

variable {before gap after rest : List Char} {t : Token} {ts : List Token} {ps : List Piece}
  {line : Nat}

theorem done (hgap : Gap gap []) (hline : line = 1 + (before ++ gap).count '\n') :
    Splits before gap [.eof line] [] gap line where
  text := rfl
  last := hgap
  tokens := rfl
  fits := by simp
  line := hline

theorem unclosed (h : (Piece.mk gap t).Fits before []) (ht : t.IsUnclosed)
    (hline : line = 1 + (before ++ gap).count '\n') :
    Splits before (gap ++ t.text.toList) [t, .eof line] [⟨gap, t⟩] [] line where
  text := by simp [written, Piece.text]
  last := .nil
  tokens := rfl
  fits := by
    intro left p right heq
    rcases List.cons_eq_append_iff.1 heq with ⟨rfl, h'⟩ | ⟨left, rfl, h'⟩
    · cases h'
      simpa [written] using h
    · simp at h'
  line := by simp [Piece.closed, ht, hline]

theorem token (h : (Piece.mk gap t).Fits before after) (ht : ¬t.IsUnclosed)
    (hsplits : Splits (before ++ (gap ++ t.text.toList)) after ts ps rest line) :
    Splits before (gap ++ (t.text.toList ++ after)) (t :: ts) (⟨gap, t⟩ :: ps) rest line where
  text := by rw [hsplits.text]; simp [written, Piece.text]
  last := hsplits.last
  tokens := by rw [hsplits.tokens]; rfl
  fits := by
    intro left p right heq
    rcases List.cons_eq_append_iff.1 heq with ⟨rfl, h'⟩ | ⟨left, rfl, rfl⟩
    · cases h'
      rw [hsplits.text] at h
      simpa [written] using h
    · have hfits := hsplits.fits left p right rfl
      rw [List.append_assoc] at hfits
      exact hfits
  line := by rw [hsplits.line]; simp [Piece.closed, ht]

end Splits

/-! ## From lexemes to pieces -/

theorem Gap.append {gap more rest : List Char} (h : Gap gap (more ++ rest)) (h' : Gap more rest) :
    Gap (gap ++ more) rest := by
  generalize hbehind : more ++ rest = behind at h
  induction h with
  | nil => exact h'
  | blank hc _ ih => exact .blank hc (ih hbehind)
  | comment hbody hend _ ih =>
    rw [List.cons_append, List.cons_append, List.append_assoc]
    refine .comment hbody (fun c hc => hend c ?_) (ih hbehind)
    rwa [← hbehind, ← List.append_assoc]

theorem TokenKind.Matches.kind_ne {kind : TokenKind} {w : List Char} (h : kind.Matches w) :
    kind ≠ .illegal ∧ kind ≠ .newline ∧ kind ≠ .comment := by
  cases h with
  | keyword hmem =>
    have hall : ∀ p ∈ keywords, p.2 ≠ .illegal ∧ p.2 ≠ .newline ∧ p.2 ≠ .comment := by decide
    exact hall _ hmem
  | symbol hmem =>
    have hall : ∀ p ∈ symbols, p.2 ≠ .illegal ∧ p.2 ≠ .newline ∧ p.2 ≠ .comment := by decide
    exact hall _ hmem
  | _ => decide

namespace Lexeme

variable {kind : TokenKind} {w : List Char}

theorem token?_of_matches (h : kind.Matches w) (line : Nat) :
    (⟨some kind, w⟩ : Lexeme).token? line = some ⟨kind, literal ⟨some kind, w⟩, line⟩ := by
  obtain ⟨-, hnewline, hcomment⟩ := h.kind_ne
  unfold token?
  split <;> simp_all

theorem text_of_matches (h : kind.Matches w) (line : Nat) :
    (Token.mk kind (literal ⟨some kind, w⟩) line).text.toList = w := by
  cases h with
  | string => simp [Token.text, literal]
  | keyword hmem =>
    have hall : ∀ p ∈ TokenKind.keywords, p.2 ≠ .string := by decide
    simp [Token.text, literal, hall _ hmem]
  | symbol hmem =>
    have hall : ∀ p ∈ TokenKind.symbols, p.2 ≠ .string := by decide
    simp [Token.text, literal, hall _ hmem]
  | _ => simp [Token.text, literal]

end Lexeme

/-- Lexemes of the text make up pieces, the first of which begins with a gap that is already
read. -/
def SplitsInto (text : List Char) (ls : List Lexeme) : Prop :=
  ∀ before gap, Gap gap text → ∃ ps rest line, Splits before (gap ++ text)
    (tokensFrom (1 + (before ++ gap).count '\n') ls) ps rest line

namespace SplitsInto

variable {l : Lexeme} {kind : TokenKind} {word body after : List Char} {c : Char}
  {ls : List Lexeme}

theorem nil : SplitsInto [] [] := by
  intro before gap hgap
  rw [List.append_nil]
  exact ⟨[], gap, _, .done hgap rfl⟩

theorem gap (hkind : l.kind = none ∨ l.kind = some .newline ∨ l.kind = some .comment)
    (hl : Gap l.text after) (h : SplitsInto after ls) :
    SplitsInto (l.text ++ after) (l :: ls) := by
  intro before gap hgap
  have htoken (line : Nat) : l.token? line = none := by
    rcases hkind with hkind | hkind | hkind <;> simp [Lexeme.token?, hkind]
  have hbreaks : l.breaks = l.text.count '\n' := by
    rcases hkind with hkind | hkind | hkind <;> simp [Lexeme.breaks, hkind]
  have hline : 1 + (before ++ gap).count '\n' + l.breaks =
      1 + (before ++ (gap ++ l.text)).count '\n' := by
    rw [hbreaks]
    simp only [List.count_append]
    omega
  obtain ⟨ps, rest, line, hsplits⟩ := h before (gap ++ l.text) (hgap.append hl)
  rw [List.append_assoc] at hsplits
  rw [tokensFrom, htoken, hline]
  exact ⟨ps, rest, line, hsplits⟩

theorem visible {s : String} (htoken : ∀ line, l.token? line = some ⟨kind, s, line⟩)
    (htext : ∀ line, (Token.mk kind s line).text.toList = l.text)
    (hclosed : ∀ line, ¬(Token.mk kind s line).IsUnclosed)
    (hbreaks : l.breaks = l.text.count '\n')
    (hfits : ∀ before gap, Gap gap (l.text ++ after) →
      (Piece.mk gap ⟨kind, s, 1 + (before ++ gap).count '\n'⟩).Fits before after)
    (h : SplitsInto after ls) : SplitsInto (l.text ++ after) (l :: ls) := by
  intro before gap hgap
  have hline : 1 + (before ++ gap).count '\n' + l.breaks =
      1 + (before ++ (gap ++ l.text) ++ []).count '\n' := by
    rw [hbreaks]
    simp only [List.append_nil, List.count_append]
    omega
  obtain ⟨ps, rest, line, hsplits⟩ := h (before ++ (gap ++ l.text)) [] .nil
  rw [List.nil_append, ← htext] at hsplits
  have hall := Splits.token (hfits before gap hgap) (hclosed _) hsplits
  rw [htext] at hall
  rw [tokensFrom, htoken, hline]
  exact ⟨_, rest, line, hall⟩

theorem token (hgap : ¬OpensGap (word ++ after)) (hword : kind.Matches word)
    (hlongest : Longest word (word ++ after)) (h : SplitsInto after ls) :
    SplitsInto (word ++ after) (⟨some kind, word⟩ :: ls) := by
  have htext := Lexeme.text_of_matches hword
  refine visible (Lexeme.token?_of_matches hword) htext (fun _ hopen => hword.kind_ne.1 hopen.1)
    (by simp [Lexeme.breaks, hword.kind_ne.1]) (fun before gap hbefore => ?_) h
  exact {
    gap := by rwa [htext]
    begins := by rwa [htext]
    legal := fun _ => by rw [htext]; exact ⟨hword, hlongest⟩
    illegal := fun hkind => absurd hkind hword.kind_ne.1
    line := rfl }

theorem character (hgap : ¬OpensGap (c :: after)) (hnone : Unmatched (c :: after)) (hc : c ≠ '"')
    (h : SplitsInto after ls) : SplitsInto (c :: after) (⟨some .illegal, [c]⟩ :: ls) := by
  have htext (line : Nat) : (Token.mk .illegal (String.ofList [c]) line).text.toList = [c] := by
    simp [Token.text]
  have hline : c ≠ '\n' := fun h => hgap (.inl ⟨c, rfl, .inr h⟩)
  have hbreaks : Lexeme.breaks ⟨some .illegal, [c]⟩ = [c].count '\n' := by
    simp [Lexeme.breaks, hline]
  have hclosed (line : Nat) : ¬(Token.mk .illegal (String.ofList [c]) line).IsUnclosed :=
    fun hopen => hc (by simpa using hopen.2)
  refine visible (l := ⟨some .illegal, [c]⟩) (s := String.ofList [c]) (fun _ => rfl) htext hclosed
    hbreaks (fun before gap hbefore => ?_) h
  exact {
    gap := by rwa [htext]
    begins := by rwa [htext]
    legal := fun hkind => absurd rfl hkind
    illegal := fun _ => by rw [htext]; exact ⟨hnone, .inr ⟨c, rfl, hc⟩⟩
    line := rfl }

theorem unclosed (hnone : Unmatched ('"' :: body)) :
    SplitsInto ('"' :: body) [⟨some .illegal, '"' :: body⟩] := by
  intro before gap hgap
  let t : Token := ⟨.illegal, String.ofList ('"' :: body), 1 + (before ++ gap).count '\n'⟩
  have htext : t.text.toList = '"' :: body := by simp [Token.text, t]
  have ht : t.IsUnclosed := ⟨rfl, by simp [t]⟩
  have hfits : (Piece.mk gap t).Fits before [] := {
    gap := by rwa [htext, List.append_nil]
    begins := by
      rw [htext, List.append_nil]
      exact Lexeme.not_opensGap (by decide) (by decide) fun h => absurd h (by decide)
    legal := fun hkind => absurd rfl hkind
    illegal := fun _ => by rw [htext, List.append_nil]; exact ⟨hnone, .inl ⟨ht, rfl⟩⟩
    line := rfl }
  have hall := Splits.unclosed hfits ht rfl
  rw [htext] at hall
  exact ⟨_, [], _, hall⟩

theorem step (hl : l.Leads after) (h : SplitsInto after (lexemes after)) :
    SplitsInto (l.text ++ after) (l :: lexemes after) := by
  cases hl with
  | gap hkind hgap => exact .gap hkind hgap h
  | token hgap hword hlongest => exact .token hgap hword hlongest h
  | character hgap hnone hc => exact .character hgap hnone hc h
  | unclosed hnone =>
    rw [List.append_nil]
    exact .unclosed hnone

end SplitsInto

theorem splitsInto_lexemes (text : List Char) : SplitsInto text (lexemes text) := by
  induction hlen : text.length using Nat.strongRecOn generalizing text with
  | ind n ih =>
    cases text with
    | nil => exact .nil
    | cons c rest =>
      obtain ⟨after, htext, hleads⟩ := Lexeme.first_leads c rest
      have hpos := List.length_pos_iff.2 (Lexeme.first_ne_nil c rest)
      rw [lexemes_cons, htext, List.drop_left]
      refine .step hleads (ih _ ?_ after rfl)
      rw [← hlen, htext, List.length_append]
      omega

/-! ## Reading on -/

theorem readAhead_singleton (last : Token) (k : Nat) :
    readAhead k [last] = List.replicate k last := by
  induction k with
  | zero => rfl
  | succ k ih => rw [readAhead, ih, List.replicate_succ]

theorem readAhead_snoc (body : List Token) (last : Token) (k : Nat) :
    readAhead k (body ++ [last]) =
      (body ++ [last]).take k ++ List.replicate (k - (body ++ [last]).length) last := by
  induction body generalizing k with
  | nil =>
    cases k with
    | zero => rfl
    | succ k => simp [readAhead_singleton, List.replicate_succ]
  | cons t body ih =>
    cases k with
    | zero => simp [readAhead]
    | succ k =>
      have ih := ih k
      rw [List.cons_append, List.take_succ_cons, List.length_cons, Nat.add_sub_add_right,
        List.cons_append, ← ih]
      cases body <;> rfl

/-- Every text is its tokens, read from it one by one, with gaps between them, before them and
behind them. Whoever reads on gets the end of the text over and over. -/
theorem scan_lossless (source : String) : ∃ pieces last line,
    Splits [] source.toList (scan source) pieces last line ∧
      ∀ k, readAhead k (scan source) =
        (scan source).take k ++ List.replicate (k - (scan source).length) (.eof line) := by
  obtain ⟨pieces, last, line, hsplits⟩ := splitsInto_lexemes source.toList [] [] .nil
  refine ⟨pieces, last, line, hsplits, fun k => ?_⟩
  have htokens : scan source = pieces.map (·.token) ++ [.eof line] := hsplits.tokens
  rw [htokens, readAhead_snoc]

end Treewalk
