import Treewalk.Proofs.Program.Tokens
import Treewalk.Token.Stream

/-!
# Texts with a line end between them

A line end closes whatever stands before it, but for a string without its closing quote. What comes
before it is scanned as it is alone, and what comes behind it as well, on later lines.
-/

namespace Treewalk

/-! ## Lexemes -/

theorem takeWhile_append_cons {p : Char → Bool} {c : Char} (hc : p c = false) (as bs : List Char) :
    (as ++ c :: bs).takeWhile p = as.takeWhile p := by
  induction as with
  | nil => simp [hc]
  | cons a as ih => simp only [List.cons_append, List.takeWhile_cons, ih]

theorem takeWhile_append_of_mem {p : Char → Bool} {c : Char} (hc : p c = false) {as : List Char}
    (h : c ∈ as) (bs : List Char) : (as ++ bs).takeWhile p = as.takeWhile p := by
  obtain ⟨before, after, rfl⟩ := List.append_of_mem h
  rw [List.append_assoc, List.cons_append, takeWhile_append_cons hc, takeWhile_append_cons hc]

theorem head?_append_newline {c : Char} (hc : c ≠ '\n') (as bs : List Char) :
    (as ++ '\n' :: bs).head? = some c ↔ as.head? = some c := by
  cases as <;> simp [Ne.symm hc]

namespace Lexeme

theorem quote_append {rest : List Char} (h : (quote rest).kind ≠ some .illegal)
    (more : List Char) : quote (rest ++ more) = quote rest := by
  have hclosed : '"' ∈ rest := by
    refine Decidable.byContradiction fun hopen => h ?_
    rw [quote, if_neg hopen]
  rw [quote, quote, if_pos hclosed, if_pos (List.mem_append_left _ hclosed),
    takeWhile_append_of_mem (by decide) hclosed]

theorem first_append_newline {c : Char} {rest : List Char}
    (h : (first c rest).kind ≠ some .illegal) (more : List Char) :
    first c (rest ++ '\n' :: more) = first c rest := by
  have htake {p : Char → Bool} (hp : p '\n' = false) := takeWhile_append_cons hp rest more
  have hslash := head?_append_newline (c := '/') (by decide) rest more
  have hequal := head?_append_newline (c := '=') (by decide) rest more
  unfold first at h ⊢
  rw [htake (by decide), htake (by decide), htake (by decide), htake (by decide)]
  simp only [hslash, hequal]
  -- only a string reads over the line end, and this one is closed
  by_cases hquote : c = '"'
  · subst hquote
    exact quote_append h ('\n' :: more)
  · simp only [if_neg hquote]

theorem ofWord_ne_eof (word : String) : TokenKind.ofWord word ≠ .eof := by
  unfold TokenKind.ofWord
  cases hlookup : TokenKind.keywords.lookup word with
  | none => decide
  | some kind =>
    obtain ⟨before, after, heq, -⟩ := List.lookup_eq_some_iff.1 hlookup
    have hall : ∀ p ∈ TokenKind.keywords, p.2 ≠ .eof := by decide
    exact hall (word, kind) (by rw [heq]; simp)

theorem ofSymbol_ne_eof (c : Char) : TokenKind.ofSymbol c ≠ .eof := by
  unfold TokenKind.ofSymbol
  cases hlookup : TokenKind.symbols.lookup c with
  | none => decide
  | some kind =>
    obtain ⟨before, after, heq, -⟩ := List.lookup_eq_some_iff.1 hlookup
    have hall : ∀ p ∈ TokenKind.symbols, p.2 ≠ .eof := by decide
    exact hall (c, kind) (by rw [heq]; simp)

theorem first_kind_ne_eof (c : Char) (rest : List Char) : (first c rest).kind ≠ some .eof := by
  unfold first blanks word quote
  repeat' split
  all_goals simp [ofWord_ne_eof, ofSymbol_ne_eof]

end Lexeme

theorem mem_lexemesAfter {k : Nat} {text : List Char} {l : Lexeme} (h : l ∈ lexemesAfter k text) :
    ∃ c rest, l = Lexeme.first c rest := by
  induction text generalizing k with
  | nil => cases k <;> simp [lexemesAfter] at h
  | cons c rest ih =>
    cases k with
    | zero =>
      rcases List.mem_cons.1 h with rfl | h
      · exact ⟨c, rest, rfl⟩
      · exact ih h
    | succ k => exact ih h

theorem lexeme_kind_ne_eof {text : List Char} {l : Lexeme} (h : l ∈ lexemes text) :
    l.kind ≠ some .eof := by
  obtain ⟨c, rest, rfl⟩ := mem_lexemesAfter h
  exact Lexeme.first_kind_ne_eof c rest

theorem lexemes_newline (text : List Char) :
    lexemes ('\n' :: text) = ⟨some .newline, ['\n']⟩ :: lexemes text := by
  have hfirst : Lexeme.first '\n' text = ⟨some .newline, ['\n']⟩ := by
    simp [Lexeme.first, isBlank]
  rw [lexemes_cons, hfirst]
  rfl

theorem lexemes_append_newline {text : List Char}
    (h : ∀ l ∈ lexemes text, l.kind ≠ some .illegal) (more : List Char) :
    lexemes (text ++ '\n' :: more) = lexemes text ++ ⟨some .newline, ['\n']⟩ :: lexemes more := by
  induction hlen : text.length using Nat.strongRecOn generalizing text with
  | ind n ih =>
    cases text with
    | nil => exact lexemes_newline more
    | cons c rest =>
      rw [lexemes_cons] at h
      obtain ⟨hfirst, hrest⟩ := List.forall_mem_cons.1 h
      have hle := (Lexeme.first_prefix c rest).length_le
      have hpos := List.length_pos_iff.2 (Lexeme.first_ne_nil c rest)
      rw [List.cons_append, lexemes_cons, Lexeme.first_append_newline hfirst, ← List.cons_append,
        List.drop_append_of_le_length hle, lexemes_cons c rest, List.cons_append]
      refine congrArg _ (ih _ ?_ hrest rfl)
      rw [List.length_drop, ← hlen]
      simp only [List.length_cons]
      omega

/-! ## Tokens -/

theorem Lexeme.kind_of_token? {line : Nat} {l : Lexeme} {t : Token}
    (h : l.token? line = some t) : l.kind = some t.kind := by
  unfold token? at h
  split at h
  · cases h
  · cases h
  · cases h
  · rename_i hkind
    cases h
    exact hkind

theorem Lexeme.relined_token? (i j : Nat) (l : Lexeme) :
    Relined (l.token? i).toList (l.token? j).toList := by
  unfold token?
  split <;> rfl

theorem relined_tokensFrom (i j : Nat) (ls : List Lexeme) :
    Relined (tokensFrom i ls) (tokensFrom j ls) := by
  induction ls generalizing i j with
  | nil => rfl
  | cons l ls ih =>
    rw [tokensFrom, tokensFrom]
    exact (l.relined_token? i j).append (ih _ _)

theorem tokensFrom_append (line : Nat) (ls : List Lexeme) :
    ∃ body n, tokensFrom line ls = body ++ [.eof n] ∧
      (∀ t ∈ body, ∃ l ∈ ls, l.kind = some t.kind) ∧
      ∀ ms, tokensFrom line (ls ++ ms) = body ++ tokensFrom n ms := by
  induction ls generalizing line with
  | nil => exact ⟨[], line, rfl, by simp, fun _ => rfl⟩
  | cons l ls ih =>
    obtain ⟨body, n, heq, hbody, happend⟩ := ih (line + l.breaks)
    refine ⟨(l.token? line).toList ++ body, n, ?_, fun t ht => ?_, fun ms => ?_⟩
    · rw [tokensFrom, heq, List.append_assoc]
    · rcases List.mem_append.1 ht with ht | ht
      · exact ⟨l, List.mem_cons_self, l.kind_of_token? (by simpa using ht)⟩
      · obtain ⟨x, hx, hkind⟩ := hbody t ht
        exact ⟨x, List.mem_cons_of_mem _ hx, hkind⟩
    · rw [List.cons_append, tokensFrom, happend, List.append_assoc]

theorem lexemes_legal {line : Nat} {ls : List Lexeme}
    (h : ∀ t ∈ tokensFrom line ls, t.kind ≠ .illegal) : ∀ l ∈ ls, l.kind ≠ some .illegal := by
  induction ls generalizing line with
  | nil => simp
  | cons l ls ih =>
    rw [tokensFrom] at h
    refine List.forall_mem_cons.2 ⟨fun hkind => ?_, ih fun t ht => h t (List.mem_append_right _ ht)⟩
    let t : Token := ⟨.illegal, l.literal, line⟩
    have htoken : l.token? line = some t := by simp [Lexeme.token?, hkind, t]
    have hmem : t ∈ (l.token? line).toList := by simp [htoken]
    exact h t (List.mem_append_left _ hmem) rfl

theorem scan_ends (source : String) :
    ∃ body n, scan source = body ++ [.eof n] ∧ ∀ t ∈ body, t.kind ≠ .eof := by
  obtain ⟨body, n, heq, hbody, -⟩ := tokensFrom_append 1 (lexemes source.toList)
  refine ⟨body, n, heq, fun t ht hkind => ?_⟩
  obtain ⟨l, hl, hl'⟩ := hbody t ht
  exact lexeme_kind_ne_eof hl (hl'.trans (congrArg some hkind))

/-- A text without illegal tokens, then a line end and another text: the tokens of the one without
its end, then those of the other on later lines. -/
theorem scan_append_newline {s₁ : String} (h : ∀ t ∈ scan s₁, t.kind ≠ .illegal) (s₂ : String) :
    ∃ body n us, scan s₁ = body ++ [.eof n] ∧ scan (s₁ ++ "\n" ++ s₂) = body ++ us ∧
      Relined us (scan s₂) := by
  obtain ⟨body, n, heq, -, happend⟩ := tokensFrom_append 1 (lexemes s₁.toList)
  have hjoined : (s₁ ++ "\n" ++ s₂).toList = s₁.toList ++ '\n' :: s₂.toList := by simp
  refine ⟨body, n, _, heq, ?_, relined_tokensFrom (n + 1) 1 (lexemes s₂.toList)⟩
  rw [scan, hjoined, lexemes_append_newline (lexemes_legal h), happend]
  rfl

end Treewalk
