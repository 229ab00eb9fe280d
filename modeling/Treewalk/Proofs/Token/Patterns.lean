import Mathlib.Data.List.Basic
import Treewalk.Token.Lexeme

/-!
# The patterns of tokens

Which texts a kind of token can have, and what separates tokens. A lexeme is the longest token at
the head of a text, unless a gap begins there.
-/

namespace Treewalk

/-! ## Patterns -/

/-- The texts that a kind of token can have. No keyword is an identifier. -/
inductive TokenKind.Matches : TokenKind → List Char → Prop
  | ident {c : Char} {cs : List Char} : isWordStart c → (∀ d ∈ cs, isWordChar d) →
      String.ofList (c :: cs) ∉ keywords.map (·.1) → Matches .ident (c :: cs)
  | keyword {word : String} {kind : TokenKind} : (word, kind) ∈ keywords →
      Matches kind word.toList
  | int {c : Char} {cs : List Char} : c.isDigit → (∀ d ∈ cs, d.isDigit) → Matches .int (c :: cs)
  | string {body : List Char} : '"' ∉ body → Matches .string ('"' :: (body ++ ['"']))
  | symbol {c : Char} {kind : TokenKind} : (c, kind) ∈ symbols → Matches kind [c]
  | equal : Matches .equal ['=', '=']
  | notEqual : Matches .notEqual ['!', '=']

/-- Blanks, line ends, and comments each up to the end of its line, before the text `rest`. -/
inductive Gap : List Char → List Char → Prop
  | nil {rest : List Char} : Gap [] rest
  | blank {c : Char} {gap rest : List Char} : isBlank c ∨ c = '\n' → Gap gap rest →
      Gap (c :: gap) rest
  | comment {body gap rest : List Char} : (∀ c ∈ body, endsComment c = false) →
      (∀ c ∈ (gap ++ rest).head?, endsComment c) → Gap gap rest →
      Gap ('/' :: '/' :: (body ++ gap)) rest

/-- A gap begins at the head of the text. -/
def OpensGap (text : List Char) : Prop :=
  (∃ c ∈ text.head?, isBlank c ∨ c = '\n') ∨ ['/', '/'] <+: text

/-- No token at the head of the text is longer than `word`. -/
def Longest (word text : List Char) : Prop :=
  ∀ kind w, TokenKind.Matches kind w → w <+: text → w.length ≤ word.length

/-- No token is at the head of the text. -/
def Unmatched (text : List Char) : Prop := ∀ kind w, TokenKind.Matches kind w → ¬w <+: text

/-! ## What a first character can begin -/

theorem takeWhile_append_stop {p : Char → Bool} {body rest : List Char} (hbody : ∀ c ∈ body, p c)
    (hrest : ∀ c ∈ rest.head?, p c = false) : (body ++ rest).takeWhile p = body := by
  have hstop : rest.takeWhile p = [] := by
    cases rest with
    | nil => rfl
    | cons c rest => rw [List.takeWhile_cons, hrest c rfl]; rfl
  rw [List.takeWhile_append_of_pos hbody, hstop, List.append_nil]

theorem length_le_takeWhile {p : Char → Bool} {body rest : List Char} (hbody : ∀ c ∈ body, p c)
    (h : body <+: rest) : body.length ≤ (rest.takeWhile p).length := by
  obtain ⟨more, rfl⟩ := h
  rw [List.takeWhile_append_of_pos hbody, List.length_append]
  exact Nat.le_add_right _ _

theorem keyword_chars {word : String} {kind : TokenKind} (h : (word, kind) ∈ TokenKind.keywords) :
    ∃ c cs, word.toList = c :: cs ∧ isWordStart c ∧ ∀ d ∈ cs, isWordChar d := by
  simp only [TokenKind.keywords, List.mem_cons, Prod.mk.injEq, List.not_mem_nil, or_false] at h
  rcases h with ⟨rfl, -⟩ | ⟨rfl, -⟩ | ⟨rfl, -⟩ | ⟨rfl, -⟩ | ⟨rfl, -⟩ | ⟨rfl, -⟩ | ⟨rfl, -⟩ <;>
    exact ⟨_, _, rfl, by decide, List.all_eq_true.1 rfl⟩

theorem not_isWordStart_of_isDigit {c : Char} (h : c.isDigit) : ¬isWordStart c := by
  have hdigit := (Char.isDigit_iff_toNat.1 h).2
  have hbelow {d : Char} (hd : 57 < d.toNat) : ¬d.val ≤ c.val := fun hle =>
    absurd (UInt32.le_iff_toNat_le.1 hle) (Nat.not_le.2 (Nat.lt_of_le_of_lt hdigit hd))
  have hupper : c.isUpper = false := decide_eq_false fun hc => hbelow (d := 'A') (by decide) hc.1
  have hlower : c.isLower = false :=
    Bool.and_eq_false_imp.2 fun hc => absurd (of_decide_eq_true hc) (hbelow (d := 'a') (by decide))
  have hletter : c.isAlpha = (c.isUpper || c.isLower) := rfl
  have hunderscore : c ≠ '_' := by
    rintro rfl
    exact absurd hdigit (by decide)
  simp [isWordStart, hletter, hupper, hlower, hunderscore]

theorem isWordChar_of_isDigit {c : Char} (h : c.isDigit) : isWordChar c := by
  simp [isWordChar, Char.isAlphanum, h]

theorem TokenKind.Matches.shape {kind : TokenKind} {c : Char} {cs : List Char}
    (h : kind.Matches (c :: cs)) :
    if isWordStart c then ∀ d ∈ cs, isWordChar d
    else if c.isDigit then ∀ d ∈ cs, d.isDigit
    else if c = '"' then ∃ body, cs = body ++ ['"'] ∧ '"' ∉ body
    else (c, kind) ∈ symbols ∧ cs = [] ∨ (c = '=' ∨ c = '!') ∧ cs = ['='] := by
  generalize hw : c :: cs = w at h
  cases h with
  | ident hc hcs _ =>
    cases hw
    rw [if_pos hc]
    exact hcs
  | keyword hmem =>
    obtain ⟨d, ds, hword, hd, hds⟩ := keyword_chars hmem
    cases hw.trans hword
    rw [if_pos hd]
    exact hds
  | int hc hcs =>
    cases hw
    rw [if_neg (not_isWordStart_of_isDigit hc), if_pos hc]
    exact hcs
  | string hbody =>
    cases hw
    exact ⟨_, rfl, hbody⟩
  | symbol hmem =>
    cases hw
    have hplain : ∀ p ∈ symbols, isWordStart p.1 = false ∧ p.1.isDigit = false ∧ p.1 ≠ '"' := by
      decide
    obtain ⟨hword, hdigit, hquote⟩ := hplain _ hmem
    rw [if_neg (by simp [hword]), if_neg (by simp [hdigit]), if_neg hquote]
    exact .inl ⟨hmem, rfl⟩
  | equal =>
    cases hw
    exact .inr ⟨.inl rfl, rfl⟩
  | notEqual =>
    cases hw
    exact .inr ⟨.inr rfl, rfl⟩

theorem TokenKind.Matches.eq_cons {kind : TokenKind} {w : List Char} (h : kind.Matches w) :
    ∃ c cs, w = c :: cs := by
  cases h with
  | keyword hmem =>
    obtain ⟨c, cs, hword, -⟩ := keyword_chars hmem
    exact ⟨c, cs, hword⟩
  | _ => exact ⟨_, _, rfl⟩

/-! ## The lexeme at the head of a text -/

theorem Gap.blanks {gap rest : List Char} (h : ∀ c ∈ gap, isBlank c) : Gap gap rest := by
  induction gap with
  | nil => exact .nil
  | cons c gap ih =>
    obtain ⟨hc, hgap⟩ := List.forall_mem_cons.1 h
    exact .blank (.inl hc) (ih hgap)

namespace Lexeme

/-- What a lexeme is in front of the text `after`: a piece of a gap, the longest token there, or
illegal text. -/
inductive Leads : Lexeme → List Char → Prop
  | gap {l : Lexeme} {after : List Char} :
      l.kind = none ∨ l.kind = some .newline ∨ l.kind = some .comment → Gap l.text after →
      Leads l after
  | token {kind : TokenKind} {word after : List Char} : ¬OpensGap (word ++ after) →
      kind.Matches word → Longest word (word ++ after) → Leads ⟨some kind, word⟩ after
  | character {c : Char} {after : List Char} : ¬OpensGap (c :: after) → Unmatched (c :: after) →
      c ≠ '"' → Leads ⟨some .illegal, [c]⟩ after
  | unclosed {body : List Char} : Unmatched ('"' :: body) →
      Leads ⟨some .illegal, '"' :: body⟩ []

section

variable {c : Char} {rest : List Char}

theorem longest_of_shape {word : List Char}
    (h : ∀ kind cs, TokenKind.Matches kind (c :: cs) → cs <+: rest → cs.length ≤ word.length) :
    Longest (c :: word) (c :: rest) := by
  intro kind w hw hprefix
  obtain ⟨d, cs, rfl⟩ := hw.eq_cons
  obtain ⟨rfl, hcs⟩ := List.cons_prefix_cons.1 hprefix
  exact Nat.succ_le_succ (h kind cs hw hcs)

theorem unmatched_of_shape (h : ∀ kind cs, TokenKind.Matches kind (c :: cs) → ¬cs <+: rest) :
    Unmatched (c :: rest) := by
  intro kind w hw hprefix
  obtain ⟨d, cs, rfl⟩ := hw.eq_cons
  obtain ⟨rfl, hcs⟩ := List.cons_prefix_cons.1 hprefix
  exact h kind cs hw hcs

theorem matches_word {cs : List Char} (hc : isWordStart c) (hcs : ∀ d ∈ cs, isWordChar d) :
    (TokenKind.ofWord (String.ofList (c :: cs))).Matches (c :: cs) := by
  unfold TokenKind.ofWord
  cases hlookup : TokenKind.keywords.lookup (String.ofList (c :: cs)) with
  | none =>
    refine .ident hc hcs fun hmem => ?_
    obtain ⟨⟨word, kind⟩, hmem, rfl⟩ := List.mem_map.1 hmem
    simpa using List.lookup_eq_none_iff.1 hlookup _ hmem
  | some kind =>
    obtain ⟨before, after, heq, -⟩ := List.lookup_eq_some_iff.1 hlookup
    have hmem : (String.ofList (c :: cs), kind) ∈ TokenKind.keywords := by rw [heq]; simp
    have hword := TokenKind.Matches.keyword hmem
    rwa [String.toList_ofList] at hword

theorem leads_word (hgap : ¬OpensGap (c :: rest)) (hc : isWordStart c) :
    (word (c :: rest.takeWhile isWordChar)).Leads (rest.dropWhile isWordChar) := by
  have htext : c :: rest.takeWhile isWordChar ++ rest.dropWhile isWordChar = c :: rest := by simp
  refine .token (by rwa [htext]) (matches_word hc fun d hd => ?_) ?_
  · exact List.all_eq_true.1 List.all_takeWhile d hd
  · rw [htext]
    refine longest_of_shape fun kind cs hw hcs => ?_
    have hshape := hw.shape
    rw [if_pos hc] at hshape
    exact length_le_takeWhile hshape hcs

theorem leads_int (hgap : ¬OpensGap (c :: rest)) (hword : ¬isWordStart c) (hc : c.isDigit) :
    Leads ⟨some .int, c :: rest.takeWhile Char.isDigit⟩ (rest.dropWhile Char.isDigit) := by
  have htext : c :: rest.takeWhile Char.isDigit ++ rest.dropWhile Char.isDigit = c :: rest := by
    simp
  refine .token (by rwa [htext]) (.int hc fun d hd => ?_) ?_
  · exact List.all_eq_true.1 List.all_takeWhile d hd
  · rw [htext]
    refine longest_of_shape fun kind cs hw hcs => ?_
    have hshape := hw.shape
    rw [if_neg hword, if_pos hc] at hshape
    exact length_le_takeWhile hshape hcs

/-- A string closes at the first quote behind its opening one, and nowhere without any. -/
theorem leads_quote (hgap : ¬OpensGap ('"' :: rest)) :
    ∃ after, '"' :: rest = (quote rest).text ++ after ∧ (quote rest).Leads after := by
  have hshape (kind : TokenKind) (cs : List Char) (hw : kind.Matches ('"' :: cs)) :
      ∃ body, cs = body ++ ['"'] ∧ '"' ∉ body := hw.shape
  unfold quote
  split
  · rename_i hclosed
    obtain ⟨body, after, rfl, hbody⟩ := List.eq_append_cons_of_mem hclosed
    have hne {body : List Char} (hbody : '"' ∉ body) : ∀ d ∈ body, decide (d ≠ '"') := fun d hd =>
      decide_eq_true (ne_of_mem_of_not_mem hd hbody)
    have htake : (body ++ '"' :: after).takeWhile (· ≠ '"') = body :=
      takeWhile_append_stop (hne hbody) (by simp)
    rw [htake]
    refine ⟨after, by simp, .token (by simpa using hgap) (.string hbody) ?_⟩
    have htext : '"' :: body ++ ['"'] ++ after = '"' :: (body ++ '"' :: after) := by simp
    rw [htext]
    refine longest_of_shape fun kind cs hw hcs => ?_
    obtain ⟨body', rfl, hbody'⟩ := hshape kind cs hw
    have hle := length_le_takeWhile (hne hbody') ((List.prefix_append body' ['"']).trans hcs)
    rw [htake] at hle
    simpa using hle
  · rename_i hopen
    refine ⟨[], (List.append_nil _).symm, .unclosed (unmatched_of_shape fun kind cs hw hcs => ?_)⟩
    obtain ⟨body, rfl, -⟩ := hshape kind cs hw
    exact hopen (hcs.subset (by simp))

theorem leads_double {d : Char} {kind : TokenKind} (hgap : ¬OpensGap (c :: d :: rest))
    (hkind : kind.Matches [c, d]) (hplain : isWordStart c = false ∧ c.isDigit = false ∧ c ≠ '"') :
    Leads ⟨some kind, [c, d]⟩ rest := by
  refine .token hgap hkind (longest_of_shape fun kind cs hw _ => ?_)
  have hshape := hw.shape
  rw [if_neg (by simp [hplain]), if_neg (by simp [hplain]), if_neg hplain.2.2] at hshape
  rcases hshape with ⟨-, rfl⟩ | ⟨-, rfl⟩ <;> simp

theorem leads_symbol (hgap : ¬OpensGap (c :: rest)) (hword : ¬isWordStart c) (hdigit : ¬c.isDigit)
    (hquote : c ≠ '"') (hdouble : c = '=' ∨ c = '!' → rest.head? ≠ some '=') :
    Leads ⟨some (.ofSymbol c), [c]⟩ rest := by
  have hshape {kind : TokenKind} {cs : List Char} (hw : kind.Matches (c :: cs))
      (hcs : cs <+: rest) : (c, kind) ∈ TokenKind.symbols ∧ cs = [] := by
    have hshape := hw.shape
    rw [if_neg hword, if_neg hdigit, if_neg hquote] at hshape
    refine hshape.resolve_right fun ⟨hc, heq⟩ => hdouble hc ?_
    obtain ⟨more, rfl⟩ := hcs
    simp [heq]
  unfold TokenKind.ofSymbol
  cases hlookup : TokenKind.symbols.lookup c with
  | none =>
    refine .character hgap (unmatched_of_shape fun kind cs hw hcs => ?_) hquote
    simpa using List.lookup_eq_none_iff.1 hlookup _ (hshape hw hcs).1
  | some kind =>
    obtain ⟨before, after, heq, -⟩ := List.lookup_eq_some_iff.1 hlookup
    refine .token hgap (.symbol (by rw [heq]; simp)) (longest_of_shape fun kind cs hw hcs => ?_)
    simp [(hshape hw hcs).2]

theorem leads_comment (hhead : rest.head? = some '/') :
    ∃ after, '/' :: rest = '/' :: (rest.takeWhile fun d => !endsComment d) ++ after ∧
      Leads ⟨some .comment, '/' :: rest.takeWhile fun d => !endsComment d⟩ after := by
  obtain ⟨body, rfl⟩ : ∃ body, rest = '/' :: body := List.head?_eq_some_iff.1 hhead
  refine ⟨body.dropWhile fun d => !endsComment d, ?_, .gap (.inr (.inr rfl)) ?_⟩
  · simp [endsComment]
  · have hcomment : Gap ('/' :: '/' :: ((body.takeWhile fun d => !endsComment d) ++ []))
        (body.dropWhile fun d => !endsComment d) := by
      refine .comment (fun d hd => ?_) (fun d hd => ?_) .nil
      · simpa using List.all_eq_true.1 List.all_takeWhile d hd
      · have hstop := List.head?_dropWhile_not (fun d => !endsComment d) body
        rw [List.nil_append] at hd
        rw [hd] at hstop
        simpa using hstop
    rw [List.append_nil] at hcomment
    exact hcomment

theorem not_opensGap (hblank : ¬isBlank c) (hline : c ≠ '\n')
    (hcomment : c = '/' → rest.head? ≠ some '/') : ¬OpensGap (c :: rest) := by
  rintro (⟨d, hd, h⟩ | h)
  · obtain rfl : c = d := Option.some.inj hd
    exact h.elim hblank hline
  · obtain ⟨rfl, more, rfl⟩ := List.cons_prefix_cons.1 h
    exact hcomment rfl rfl

theorem first_leads (c : Char) (rest : List Char) :
    ∃ after, c :: rest = (first c rest).text ++ after ∧ (first c rest).Leads after := by
  unfold first
  split
  · rename_i hc
    refine ⟨rest.dropWhile isBlank, by simp [blanks], .gap (.inl rfl) (.blanks ?_)⟩
    exact List.forall_mem_cons.2 ⟨hc, fun d hd => List.all_eq_true.1 List.all_takeWhile d hd⟩
  rename_i hblank
  split
  · rename_i hc
    exact ⟨rest, rfl, .gap (.inr (.inl rfl)) (.blank (.inr hc) .nil)⟩
  rename_i hline
  split
  · rename_i hc
    have hgap : ¬OpensGap (c :: rest) :=
      not_opensGap hblank hline fun h => absurd hc (by rw [h]; decide)
    exact ⟨_, by simp [word], leads_word hgap hc⟩
  rename_i hword
  split
  · rename_i hc
    have hgap : ¬OpensGap (c :: rest) :=
      not_opensGap hblank hline fun h => absurd hc (by rw [h]; decide)
    exact ⟨_, by simp, leads_int hgap hword hc⟩
  rename_i hdigit
  split
  · rename_i hc
    subst hc
    exact leads_quote (not_opensGap hblank hline fun h => absurd h (by decide))
  rename_i hquote
  split
  · rename_i h
    obtain ⟨rfl, hhead⟩ := h
    exact leads_comment hhead
  rename_i hcomment
  have hgap : ¬OpensGap (c :: rest) := not_opensGap hblank hline fun h hhead => hcomment ⟨h, hhead⟩
  split
  · rename_i h
    obtain ⟨rfl, hhead⟩ := h
    obtain ⟨rest, rfl⟩ := List.head?_eq_some_iff.1 hhead
    exact ⟨rest, rfl, leads_double hgap .equal (by decide)⟩
  rename_i hequal
  split
  · rename_i h
    obtain ⟨rfl, hhead⟩ := h
    obtain ⟨rest, rfl⟩ := List.head?_eq_some_iff.1 hhead
    exact ⟨rest, rfl, leads_double hgap .notEqual (by decide)⟩
  rename_i hbang
  refine ⟨rest, rfl, leads_symbol hgap hword hdigit hquote ?_⟩
  rintro (h | h) hhead
  · exact hequal ⟨h, hhead⟩
  · exact hbang ⟨h, hhead⟩

end

end Lexeme

end Treewalk
