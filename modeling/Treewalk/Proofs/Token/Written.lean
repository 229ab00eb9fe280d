import Treewalk.Proofs.Token.Layout

/-!
# Texts written from tokens

Tokens written one after another, with a blank or a line end behind each, are scanned as they are.
Blanks, line ends and comments between them only move the tokens to other lines.
-/

namespace Treewalk

/-! ## What stands between tokens -/

/-- A gap whose comments all end inside it, so that it is one whatever follows. It begins with a
blank or a line end. -/
structure Separates (gap : List Char) : Prop where
  begins : ∃ c ∈ gap.head?, isBlank c ∨ c = '\n'
  gap : ∀ rest, Gap gap rest

theorem TokenKind.goesOn_separator (kind : TokenKind) {c : Char} (h : isBlank c ∨ c = '\n') :
    kind.goesOn c = false := by
  simp only [isBlank, Bool.or_eq_true, decide_eq_true_eq] at h
  rcases h with (((rfl | rfl) | rfl) | rfl) | rfl <;> cases kind <;> rfl

namespace Lexeme

theorem first_comment {body rest : List Char} (hbody : ∀ c ∈ body, endsComment c = false)
    (hrest : ∀ c ∈ rest.head?, endsComment c) :
    first '/' ('/' :: (body ++ rest)) = ⟨some .comment, '/' :: '/' :: body⟩ := by
  have htake : ('/' :: (body ++ rest)).takeWhile (fun d => !endsComment d) = '/' :: body := by
    rw [← List.cons_append]
    refine takeWhile_append_stop (List.forall_mem_cons.2 ⟨rfl, fun c hc => ?_⟩) fun c hc => ?_
    · rw [hbody c hc, Bool.not_false]
    · rw [hrest c hc, Bool.not_true]
  rw [first, if_neg (by decide), if_neg (by decide), if_neg (by decide), if_neg (by decide),
    if_neg (by decide), if_pos ⟨rfl, rfl⟩, htake]

end Lexeme

theorem tokensFrom_gap {gap rest : List Char} (h : Gap gap rest) (line : Nat) :
    tokensFrom line (lexemes (gap ++ rest)) =
      tokensFrom (line + gap.count '\n') (lexemes rest) := by
  induction h generalizing line with
  | nil => rfl
  | @blank c gap rest hc _ ih =>
    rw [List.cons_append]
    rcases hc with hc | rfl
    · have hne : c ≠ '\n' := by
        rintro rfl
        exact absurd hc (by decide)
      rw [tokensFrom_blank hc, ih, List.count_cons_of_ne hne]
    · rw [lexemes_newline, tokensFrom, List.count_cons_self, ← Nat.add_assoc, Nat.add_right_comm]
      exact ih _
  | @comment body gap rest hbody hend _ ih =>
    have hline : ('/' :: '/' :: body).count '\n' = 0 := List.count_eq_zero.2 fun hmem => by
      simp only [List.mem_cons, Char.reduceEq, false_or] at hmem
      exact absurd (hbody _ hmem) (by decide)
    have htokens (ls : List Lexeme) :
        tokensFrom line (⟨some .comment, '/' :: '/' :: body⟩ :: ls) = tokensFrom line ls := by
      simp [tokensFrom, Lexeme.token?, Lexeme.breaks, hline]
    have hcount : ('/' :: '/' :: (body ++ gap)).count '\n' = gap.count '\n' := by
      rw [← List.cons_append, ← List.cons_append, List.count_append, hline, Nat.zero_add]
    have htext : '/' :: '/' :: (body ++ gap) ++ rest = '/' :: '/' :: (body ++ (gap ++ rest)) := by
      simp
    rw [htext, lexemes_cons, Lexeme.first_comment hbody hend, htokens, hcount, ← ih]
    simp

/-! ## Tokens one after another -/

/-- The tokens of pieces that stand behind the text `before`, each on the line that the line ends
before it make. -/
def placed (before : List Char) : List Piece → List Token
  | [] => []
  | p :: ps => p.token.on (1 + (before ++ p.gap).count '\n') :: placed (before ++ p.text) ps

theorem outside_written {ps : List Piece} (h : ∀ p ∈ ps, Separates p.gap) (kind : TokenKind) :
    Outside kind.goesOn (written ps) := by
  intro c hc
  cases ps with
  | nil => simp [written] at hc
  | cons p ps =>
    obtain ⟨d, hd, hsep⟩ := (h p List.mem_cons_self).begins
    obtain ⟨ds, hgap⟩ := List.head?_eq_some_iff.1 hd
    obtain rfl : d = c := by simpa [written, Piece.text, hgap] using hc
    exact kind.goesOn_separator hsep

theorem tokensFrom_written {ps : List Piece} (htokens : ∀ p ∈ ps, p.token.Genuine)
    (hgaps : ∀ p ∈ ps, ∀ rest, Gap p.gap rest) (hapart : ∀ p ∈ ps.tail, Separates p.gap)
    (before : List Char) : tokensFrom (1 + before.count '\n') (lexemes (written ps)) =
      placed before ps ++ [.eof (1 + (before ++ written ps).count '\n')] := by
  induction ps generalizing before with
  | nil => simp [written, lexemes, lexemesAfter, tokensFrom, placed]
  | cons p ps ih =>
    have hwritten : written (p :: ps) = p.gap ++ (p.token.text.toList ++ written ps) := by
      simp [written, Piece.text]
    have hafter : before ++ written (p :: ps) = before ++ p.text ++ written ps := by
      simp [written]
    have hline : 1 + before.count '\n' + p.gap.count '\n' = 1 + (before ++ p.gap).count '\n' := by
      rw [List.count_append, Nat.add_assoc]
    have hlines : 1 + (before ++ p.gap).count '\n' + p.token.text.toList.count '\n' =
        1 + (before ++ p.text).count '\n' := by
      simp only [Piece.text, List.count_append, Nat.add_assoc]
    obtain ⟨htoken, hrest⟩ := List.forall_mem_cons.1 htokens
    have hseparate : ∀ q ∈ ps, Separates q.gap := hapart
    rw [hafter, hwritten, tokensFrom_gap (hgaps p List.mem_cons_self _), hline,
      tokensFrom_token htoken (outside_written hseparate _),
      hlines, ih hrest (fun q hq => (hseparate q hq).gap)
        (fun q hq => hseparate q (List.mem_of_mem_tail hq))]
    rfl

/-- Scanning undoes writing: tokens one after another, separated from their neighbours, are scanned
as these tokens, each on its line, and the end of the text behind them. -/
theorem scan_written {ps : List Piece} (htokens : ∀ p ∈ ps, p.token.Genuine)
    (hfirst : ∀ p ∈ ps.head?, p.gap = []) (hapart : ∀ p ∈ ps.tail, Separates p.gap) :
    scan (String.ofList (written ps)) =
      placed [] ps ++ [.eof (1 + (written ps).count '\n')] := by
  have hgaps : ∀ p ∈ ps, ∀ rest, Gap p.gap rest := by
    intro p hp rest
    cases ps with
    | nil => cases hp
    | cons q ps =>
      rcases List.mem_cons.1 hp with rfl | hp
      · rw [hfirst p rfl]
        exact .nil
      · exact (hapart p hp).gap rest
  rw [scan, String.toList_ofList]
  exact tokensFrom_written htokens hgaps hapart []

theorem scan_written_mixed :
    scan "a =\t== // =\n\"b\n//\" \r!" =
      [⟨.ident, "a", 1⟩, ⟨.assign, "=", 1⟩, ⟨.equal, "==", 1⟩, ⟨.string, "b\n//", 2⟩,
        ⟨.bang, "!", 3⟩, .eof 3] := by
  let comment : List Char := [' ', '/', '/', ' ', '=', '\n']
  let ps : List Piece :=
    [⟨[], .ident, "a", 0⟩, ⟨[' '], .assign, "=", 0⟩, ⟨['\t'], .equal, "==", 0⟩,
      ⟨comment, .string, "b\n//", 0⟩, ⟨[' ', '\r'], .bang, "!", 0⟩]
  have hword : (Token.mk .ident "a" 0).Genuine := .ident rfl (by simp) (by decide)
  have hstring : (Token.mk .string "b\n//" 0).Genuine :=
    @TokenKind.Matches.string ['b', '\n', '/', '/'] (by decide)
  have htokens : ∀ p ∈ ps, p.token.Genuine := List.forall_mem_cons.2 ⟨hword,
    List.forall_mem_cons.2 ⟨.symbol (by decide), List.forall_mem_cons.2 ⟨.equal,
      List.forall_mem_cons.2 ⟨hstring, List.forall_mem_singleton.2 (.symbol (by decide))⟩⟩⟩⟩
  have hblank {c : Char} (hc : isBlank c) {gap : List Char} (h : ∀ rest, Gap gap rest) :
      Separates (c :: gap) := ⟨⟨c, rfl, .inl hc⟩, fun rest => .blank (.inl hc) (h rest)⟩
  have hcomment (rest : List Char) : Gap ['/', '/', ' ', '=', '\n'] rest :=
    @Gap.comment [' ', '='] ['\n'] rest (by simp [endsComment]) (by simp [endsComment])
      (.blank (.inr rfl) .nil)
  have hapart : ∀ p ∈ ps.tail, Separates p.gap := List.forall_mem_cons.2 ⟨hblank rfl fun _ => .nil,
    List.forall_mem_cons.2 ⟨hblank rfl fun _ => .nil, List.forall_mem_cons.2 ⟨hblank rfl hcomment,
      List.forall_mem_singleton.2 (hblank rfl fun _ => .blank (.inl rfl) .nil)⟩⟩⟩
  have htext : written ps = "a =\t== // =\n\"b\n//\" \r!".toList := by decide +kernel
  have hplaced : placed [] ps ++ [.eof (1 + (written ps).count '\n')] =
      [⟨.ident, "a", 1⟩, ⟨.assign, "=", 1⟩, ⟨.equal, "==", 1⟩, ⟨.string, "b\n//", 2⟩,
        ⟨.bang, "!", 3⟩, .eof 3] := by decide +kernel
  rw [← String.ofList_toList (s := "a =\t== // =\n\"b\n//\" \r!"), ← htext, ← hplaced]
  exact scan_written htokens (by simp [ps]) hapart

end Treewalk
