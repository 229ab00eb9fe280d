import Treewalk.Proofs.Parser.Seam
import Treewalk.Proofs.Parser.Spelling
import Treewalk.Proofs.Token.Lossless

/-!
# Texts laid out on one line

A text is scanned as the tokens that it is written from if none of them goes on with what stands
behind it. The law for a piece of text says what may not follow it, so that pieces can be put
together.
-/

namespace Treewalk

/-! ## What may follow a token -/

/-- The text does not begin with a character of the class. -/
def Outside (p : Char → Bool) (text : List Char) : Prop := ∀ c ∈ text.head?, p c = false

/-- The class of no characters: anything may follow. -/
def never (_ : Char) : Bool := false

/-- The characters that a token of the kind would take in as well. -/
def TokenKind.goesOn : TokenKind → Char → Bool
  | ident | function | letWord | trueWord | falseWord | ifWord | elseWord | returnWord => isWordChar
  | int => Char.isDigit
  | assign | bang => (· = '=')
  | slash => (· = '/')
  | _ => never

theorem TokenKind.goesOn_of_keyword {word : String} {kind : TokenKind}
    (h : (word, kind) ∈ keywords) : kind.goesOn = isWordChar := by
  simp only [keywords, List.mem_cons, Prod.mk.injEq, List.not_mem_nil, or_false] at h
  rcases h with ⟨-, rfl⟩ | ⟨-, rfl⟩ | ⟨-, rfl⟩ | ⟨-, rfl⟩ | ⟨-, rfl⟩ | ⟨-, rfl⟩ | ⟨-, rfl⟩ <;> rfl

theorem ne_of_class {p : Char → Bool} {c d : Char} (hc : p c) (hd : p d = false) : c ≠ d := by
  rintro rfl
  exact Bool.eq_false_iff.1 hd hc

namespace Lexeme

variable {kind : TokenKind} {c : Char} {cs rest : List Char}

theorem not_blank_of_class {p : Char → Bool} (hc : p c)
    (h : [' ', '\t', '\r', '\x0c', '\n'].all fun d => !p d) : ¬isBlank c ∧ c ≠ '\n' := by
  have hne (d : Char) (hd : d ∈ [' ', '\t', '\r', '\x0c', '\n']) : c ≠ d :=
    ne_of_class hc (by simpa using List.all_eq_true.1 h d hd)
  simp only [isBlank, Bool.or_eq_true, decide_eq_true_eq, not_or]
  exact ⟨⟨⟨⟨hne _ (by decide), hne _ (by decide)⟩, hne _ (by decide)⟩, hne _ (by decide)⟩,
    hne _ (by decide)⟩

theorem first_word (hc : isWordStart c) :
    first c rest = word (c :: rest.takeWhile isWordChar) := by
  obtain ⟨hblank, hline⟩ := not_blank_of_class hc rfl
  rw [first, if_neg hblank, if_neg hline, if_pos hc]

theorem first_digit (hc : c.isDigit) :
    first c rest = ⟨some .int, c :: rest.takeWhile Char.isDigit⟩ := by
  obtain ⟨hblank, hline⟩ := not_blank_of_class hc rfl
  rw [first, if_neg hblank, if_neg hline, if_neg (not_isWordStart_of_isDigit hc), if_pos hc]

theorem first_symbol (h : (c, kind) ∈ TokenKind.symbols) (hrest : Outside kind.goesOn rest) :
    first c rest = ⟨some kind, [c]⟩ := by
  have hplain : ∀ p ∈ TokenKind.symbols, isBlank p.1 = false ∧ p.1 ≠ '\n' ∧
      isWordStart p.1 = false ∧ p.1.isDigit = false ∧ p.1 ≠ '"' ∧ TokenKind.ofSymbol p.1 = p.2 := by
    decide
  have hdouble : ∀ p ∈ TokenKind.symbols, (p.1 = '/' → p.2.goesOn '/') ∧
      (p.1 = '=' ∨ p.1 = '!' → p.2.goesOn '=') := by decide
  obtain ⟨hblank, hline, hword, hdigit, hquote, hkind⟩ := hplain _ h
  obtain ⟨hslash, hequal⟩ := hdouble _ h
  have hcomment : ¬(c = '/' ∧ rest.head? = some '/') := fun ⟨hc, hhead⟩ =>
    absurd (hslash hc) (by simp [hrest _ hhead])
  have hassign : ¬(c = '=' ∧ rest.head? = some '=') := fun ⟨hc, hhead⟩ =>
    absurd (hequal (.inl hc)) (by simp [hrest _ hhead])
  have hbang : ¬(c = '!' ∧ rest.head? = some '=') := fun ⟨hc, hhead⟩ =>
    absurd (hequal (.inr hc)) (by simp [hrest _ hhead])
  simp only at hblank hline hword hdigit hquote hkind
  simp [first, hblank, hline, hword, hdigit, hquote, hcomment, hassign, hbang, hkind]

theorem first_quote {body : List Char} (h : '"' ∉ body) :
    first '"' (body ++ '"' :: rest) = ⟨some .string, '"' :: (body ++ ['"'])⟩ := by
  have hbody : (body ++ '"' :: rest).takeWhile (· ≠ '"') = body :=
    takeWhile_append_stop (fun d hd => decide_eq_true (ne_of_mem_of_not_mem hd h)) (by simp)
  have hclosed : '"' ∈ body ++ '"' :: rest := by simp
  rw [first, if_neg (by decide), if_neg (by decide), if_neg (by decide), if_neg (by decide),
    if_pos rfl, quote, if_pos hclosed, hbody]
  rfl

theorem ofWord_of_not_keyword {w : String} (h : w ∉ TokenKind.keywords.map (·.1)) :
    TokenKind.ofWord w = .ident := by
  have hlookup : TokenKind.keywords.lookup w = none := List.lookup_eq_none_iff.2 fun p hp =>
    bne_iff_ne.2 fun heq => h (heq ▸ List.mem_map_of_mem hp)
  rw [TokenKind.ofWord, hlookup]
  rfl

theorem first_of_matches (h : kind.Matches (c :: cs)) (hrest : Outside kind.goesOn rest) :
    first c (cs ++ rest) = ⟨some kind, c :: cs⟩ := by
  generalize hw : c :: cs = w at h
  cases h with
  | ident hc hcs hkeyword =>
    cases hw
    rw [first_word hc, takeWhile_append_stop hcs hrest, word, ofWord_of_not_keyword hkeyword]
  | @keyword keyword kind hmem =>
    obtain ⟨d, ds, hword, hd, hds⟩ := keyword_chars hmem
    have hall : ∀ p ∈ TokenKind.keywords, TokenKind.ofWord p.1 = p.2 := by decide
    cases hw.trans hword
    rw [TokenKind.goesOn_of_keyword hmem] at hrest
    rw [first_word hd, takeWhile_append_stop hds hrest, word, ← hword, String.ofList_toList,
      hall _ hmem]
  | int hc hcs =>
    cases hw
    rw [first_digit hc, takeWhile_append_stop hcs hrest]
  | string hbody =>
    cases hw
    rw [List.append_assoc]
    exact first_quote hbody
  | symbol hmem =>
    cases hw
    exact first_symbol hmem hrest
  | equal =>
    cases hw
    rfl
  | notEqual =>
    cases hw
    rfl

end Lexeme

/-! ## Tokens with a pattern -/

/-- The text of the token has the pattern of its kind. -/
def Token.Genuine (t : Token) : Prop := t.kind.Matches t.text.toList

theorem genuine_of_mem_scan {source : String} {t : Token} (ht : t ∈ scan source)
    (hkind : t.kind.Legal) : t.Genuine := by
  obtain ⟨pieces, last, line, hsplits⟩ := splitsInto_lexemes source.toList [] [] .nil
  have htokens : scan source = pieces.map (·.token) ++ [.eof line] := hsplits.tokens
  rw [htokens, List.mem_append, List.mem_singleton] at ht
  rcases ht with ht | rfl
  · obtain ⟨p, hp, rfl⟩ := List.mem_map.1 ht
    obtain ⟨left, right, hpieces⟩ := List.append_of_mem hp
    exact ((hsplits.fits left p right hpieces).legal hkind.2).1
  · exact absurd rfl hkind.1

/-- The text of a kind that has but one. -/
def TokenKind.text? : TokenKind → Option String
  | function => some "fn"
  | letWord => some "let"
  | trueWord => some "true"
  | falseWord => some "false"
  | ifWord => some "if"
  | elseWord => some "else"
  | returnWord => some "return"
  | illegal | eof | ident | int | string | comment | newline => none
  | kind => some kind.name

theorem TokenKind.Matches.eq_text {kind : TokenKind} {w : List Char} {text : String}
    (h : kind.Matches w) (htext : kind.text? = some text) : w = text.toList := by
  cases h with
  | ident | int | string => cases htext
  | keyword hmem =>
    have hall : ∀ p ∈ keywords, p.2.text? = some p.1 := by decide
    exact congrArg _ (Option.some.inj ((hall _ hmem).symm.trans htext))
  | symbol hmem =>
    have hall : ∀ p ∈ symbols, p.2.text? = some (String.ofList [p.1]) := by decide
    rw [← Option.some.inj ((hall _ hmem).symm.trans htext), String.toList_ofList]
  | equal | notEqual =>
    cases htext
    rfl

theorem TokenKind.Matches.one_line {kind : TokenKind} {w : List Char} (h : kind.Matches w)
    (hkind : kind ≠ .string) : '\n' ∉ w := by
  cases h with
  | ident hc hcs _ =>
    exact List.not_mem_cons_of_ne_of_not_mem (ne_of_class hc rfl).symm fun hmem =>
      ne_of_class (hcs _ hmem) rfl rfl
  | keyword hmem =>
    have hall : ∀ p ∈ keywords, '\n' ∉ p.1.toList := by decide
    exact hall _ hmem
  | int hc hcs =>
    exact List.not_mem_cons_of_ne_of_not_mem (ne_of_class hc rfl).symm fun hmem =>
      ne_of_class (hcs _ hmem) rfl rfl
  | string => exact absurd rfl hkind
  | symbol hmem =>
    have hall : ∀ p ∈ symbols, '\n' ∉ [p.1] := by decide
    exact hall _ hmem
  | equal | notEqual => decide

/-! ## Pieces of a line -/

theorem tokensFrom_blanks {bs : List Char} (h : ∀ c ∈ bs, isBlank c) (line : Nat)
    (ls : List Lexeme) : tokensFrom line (⟨none, bs⟩ :: ls) = tokensFrom line ls := by
  have hline : bs.count '\n' = 0 := List.count_eq_zero.2 fun hmem => absurd (h _ hmem) (by decide)
  simp [tokensFrom, Lexeme.token?, Lexeme.breaks, hline]

theorem tokensFrom_blank {c : Char} (hc : isBlank c) (line : Nat) (rest : List Char) :
    tokensFrom line (lexemes (c :: rest)) = tokensFrom line (lexemes rest) := by
  have hall (text : List Char) : ∀ d ∈ text.takeWhile isBlank, isBlank d :=
    fun d hd => List.all_eq_true.1 List.all_takeWhile d hd
  have hfirst (c : Char) (hc : isBlank c) (text : List Char) :
      lexemes (c :: text) = ⟨none, c :: text.takeWhile isBlank⟩ ::
        lexemes (text.drop (text.takeWhile isBlank).length) := by
    rw [lexemes_cons, Lexeme.first, if_pos hc]
    rfl
  rw [hfirst c hc, tokensFrom_blanks (List.forall_mem_cons.2 ⟨hc, hall rest⟩)]
  cases rest with
  | nil => rfl
  | cons d rest =>
    by_cases hd : isBlank d
    · -- the blanks that follow make up one lexeme with this one
      rw [hfirst d hd, tokensFrom_blanks (List.forall_mem_cons.2 ⟨hd, hall rest⟩),
        List.takeWhile_cons_of_pos hd]
      rfl
    · rw [List.takeWhile_cons_of_neg hd]
      rfl

theorem Token.literal_of_text (t : Token) :
    Lexeme.literal ⟨some t.kind, t.text.toList⟩ = t.literal := by
  by_cases h : t.kind = .string <;> simp [Lexeme.literal, Token.text, h]

theorem tokensFrom_token {t : Token} (h : t.Genuine) {rest : List Char}
    (hrest : Outside t.kind.goesOn rest) (line : Nat) :
    tokensFrom line (lexemes (t.text.toList ++ rest)) =
      t.on line :: tokensFrom (line + t.text.toList.count '\n') (lexemes rest) := by
  have hliteral := t.literal_of_text
  have hbreaks : Lexeme.breaks ⟨some t.kind, t.text.toList⟩ = t.text.toList.count '\n' := by
    simp [Lexeme.breaks, h.kind_ne.1]
  rw [Token.Genuine] at h
  obtain ⟨c, cs, heq⟩ := h.eq_cons
  rw [heq] at h hliteral hbreaks ⊢
  rw [List.cons_append, lexemes_cons, Lexeme.first_of_matches h hrest, tokensFrom,
    Lexeme.token?_of_matches h, hliteral, hbreaks]
  simp [Token.on]

/-- The text is scanned as these tokens, all on the first line, where nothing follows that goes on
with characters of the class. -/
def ScansTo (p : Char → Bool) (text : String) (ts : List Token) : Prop :=
  ∀ rest, Outside p rest →
    tokensFrom 1 (lexemes (text.toList ++ rest)) = ts ++ tokensFrom 1 (lexemes rest)

namespace ScansTo

variable {p q : Char → Bool} {a b : String} {ts us : List Token} {t : Token}

theorem append (ha : ScansTo p a ts) (hb : ScansTo q b us)
    (h : ∀ rest, Outside q rest → Outside p (b.toList ++ rest)) :
    ScansTo q (a ++ b) (ts ++ us) := by
  intro rest hrest
  rw [String.toList_append, List.append_assoc, ha _ (h rest hrest), hb rest hrest,
    List.append_assoc]

theorem free (ha : ScansTo never a ts) (hb : ScansTo q b us) : ScansTo q (a ++ b) (ts ++ us) :=
  ha.append hb fun _ _ _ _ => rfl

theorem before (ha : ScansTo p a ts) (hb : ScansTo q b us)
    (h : b.toList.head?.any (fun c => !p c) := by rfl) : ScansTo q (a ++ b) (ts ++ us) := by
  refine ha.append hb fun rest _ c hc => ?_
  cases htext : b.toList with
  | nil => simp [htext] at h
  | cons d ds =>
    rw [htext] at hc h
    cases hc
    simpa using h

theorem weaken (ha : ScansTo p a ts) (h : ∀ c, p c → q c) : ScansTo q a ts :=
  fun rest hrest => ha rest fun c hc => Bool.eq_false_iff.2 fun hp =>
    Bool.eq_false_iff.1 (hrest c hc) (h c hp)

theorem of_never (ha : ScansTo never a ts) : ScansTo p a ts := ha.weaken nofun

theorem empty : ScansTo p "" [] := fun _ _ => rfl

theorem blank : ScansTo never " " [] := fun rest _ => tokensFrom_blank rfl 1 rest

theorem token (h : t.Genuine) (hkind : t.kind ≠ .string) :
    ScansTo t.kind.goesOn t.literal [t.on 1] := by
  have htext : t.text = t.literal := if_neg hkind
  have hline : t.text.toList.count '\n' = 0 := List.count_eq_zero.2 (h.one_line hkind)
  intro rest hrest
  have htoken := tokensFrom_token h hrest 1
  rw [hline, htext] at htoken
  exact htoken

theorem fixed {kind : TokenKind} (h : t.Genuine) (hkind : t.kind = kind)
    (htext : kind.text? = some a) (hp : kind.goesOn = p) : ScansTo p a [t.on 1] := by
  subst hkind hp
  have hstring : t.kind ≠ .string := by
    intro hstring
    rw [hstring] at htext
    cases htext
  have hliteral : t.literal = a := by
    have hchars := h.eq_text htext
    rw [Token.text, if_neg hstring] at hchars
    exact String.toList_inj.1 hchars
  exact hliteral ▸ token h hstring

theorem mark (text : String) (kind : TokenKind) (htext : kind.name = text := by rfl)
    (hp : kind.goesOn = p := by rfl) (hkind : kind ∈ TokenKind.symbols.map (·.2) := by decide) :
    ScansTo p text [.mark kind] := by
  obtain ⟨x, hmem, rfl⟩ := List.mem_map.1 hkind
  have hall : ∀ x ∈ TokenKind.symbols, x.2.text? = some x.2.name ∧
      x.2.name.toList = [x.1] ∧ x.2 ≠ .string := by decide
  obtain ⟨hfixed, hchars, hstring⟩ := hall _ hmem
  have hgenuine : (Token.mark x.2).Genuine := by
    have hpattern := TokenKind.Matches.symbol hmem
    rw [Token.Genuine, Token.text, Token.mark, if_neg hstring]
    rwa [← hchars] at hpattern
  exact fixed hgenuine rfl (hfixed.trans (congrArg some htext)) hp

theorem scan (h : ScansTo p a ts) : Treewalk.scan a = ts ++ [.eof 1] := by
  have hscan := h [] (by simp [Outside])
  rwa [List.append_nil] at hscan

theorem head_ne (h : ScansTo p a (t :: ts)) (ht : t.kind ≠ .assign ∧ t.kind ≠ .equal) :
    a.toList.head?.any fun c => !(c = '=') := by
  have hscan := h.scan
  rw [Treewalk.scan] at hscan
  cases htext : a.toList with
  | nil =>
    rw [htext] at hscan
    simp [lexemes, lexemesAfter, tokensFrom] at hscan
  | cons c cs =>
    refine Decidable.byContradiction fun heq => ?_
    obtain rfl : c = '=' := by simpa using heq
    have hfirst : Lexeme.first '=' cs = ⟨some .equal, ['=', '=']⟩ ∨
        Lexeme.first '=' cs = ⟨some .assign, ['=']⟩ := by
      rw [Lexeme.first, if_neg (by decide), if_neg (by decide), if_neg (by decide),
        if_neg (by decide), if_neg (by decide), if_neg (by simp)]
      split
      · exact .inl rfl
      · exact .inr rfl
    rw [htext, lexemes_cons, tokensFrom] at hscan
    rcases hfirst with hfirst | hfirst <;> rw [hfirst] at hscan <;>
      obtain ⟨rfl, -⟩ := List.cons_eq_cons.1 hscan
    · exact ht.2 rfl
    · exact ht.1 rfl

end ScansTo

/-! ## Lists on a line -/

namespace ScansTo

variable {p : Char → Bool} {texts : List String} {tss : List (List Token)}

theorem commaSeparated (h : List.Forall₂ (ScansTo p) texts tss) (hp : p ',' = false) :
    ScansTo p (Treewalk.commaSeparated texts) (withCommas tss) := by
  have hcomma : ScansTo never ", " [Token.mark .comma] := (mark "," .comma).free blank
  induction h with
  | nil => exact empty
  | cons htext hrest ih =>
    cases hrest with
    | nil => simpa [Treewalk.commaSeparated, withCommas, List.intercalate] using htext
    | cons hnext hrest =>
      rw [Treewalk.commaSeparated, String.intercalate_cons_cons]
      have hcons := (htext.before hcomma (by simp [hp])).free ih
      simpa [Treewalk.commaSeparated, withCommas, List.intercalate] using hcons

theorem brackets {t : Token} (ho : ScansTo never "[" [t])
    (h : List.Forall₂ (ScansTo isWordChar) texts tss) :
    ScansTo never ("[" ++ Treewalk.commaSeparated texts ++ "]")
      (t :: (withCommas tss ++ [.mark .rightBracket])) := by
  have hclose : ScansTo never "]" [.mark .rightBracket] := mark _ _
  simpa using (ho.free (commaSeparated h rfl)).before hclose

theorem braces {t : Token} (ho : ScansTo never "\x7b" [t])
    (h : List.Forall₂ (ScansTo isWordChar) texts tss) :
    ScansTo never (braced (Treewalk.commaSeparated texts))
      (t :: (withCommas tss ++ [.mark .rightBrace])) := by
  have hclose : ScansTo never "\x7d" [.mark .rightBrace] := mark _ _
  simpa [braced] using (ho.free (commaSeparated h rfl)).before hclose

theorem pair {k v : String} {ts us : List Token} (hk : ScansTo isWordChar k ts)
    (hv : ScansTo p v us) : ScansTo p (k ++ ": " ++ v) (ts ++ .mark .colon :: us) := by
  have hcolon : ScansTo never ": " [.mark .colon] := (mark ":" .colon).free blank
  simpa using (hk.before hcolon).free hv

end ScansTo

end Treewalk
