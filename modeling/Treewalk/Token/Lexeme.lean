import Treewalk.Token.Basic

/-!
# Lexemes

A text splits into lexemes without a remainder: tokens, and the blanks, line ends and comments
between them. Each lexeme is the longest that its first character can begin.
-/

namespace Treewalk

/-- Blanks separate tokens and end no line. -/
def isBlank (c : Char) : Bool := c = ' ' || c = '\t' || c = '\r' || c = '\x0c'

def isWordStart (c : Char) : Bool := c.isAlpha || c = '_'

def isWordChar (c : Char) : Bool := c.isAlphanum || c = '_'

def endsComment (c : Char) : Bool := c = '\n' || c = '\r'

/-- A piece of text. A run of blanks has no kind. -/
structure Lexeme where
  kind : Option TokenKind
  text : List Char
deriving DecidableEq, Repr

namespace Lexeme

def blanks (text : List Char) : Lexeme := ⟨none, text⟩

def word (text : List Char) : Lexeme := ⟨some (.ofWord (String.ofList text)), text⟩

/-- What an opening quote begins. Without a closing quote the rest of the text is illegal. -/
def quote (rest : List Char) : Lexeme :=
  if '"' ∈ rest then ⟨some .string, '"' :: rest.takeWhile (· ≠ '"') ++ ['"']⟩
  else ⟨some .illegal, '"' :: rest⟩

/-- The longest lexeme at the head of `c :: rest`. -/
def first (c : Char) (rest : List Char) : Lexeme :=
  if isBlank c then blanks (c :: rest.takeWhile isBlank)
  else if c = '\n' then ⟨some .newline, [c]⟩
  else if isWordStart c then word (c :: rest.takeWhile isWordChar)
  else if c.isDigit then ⟨some .int, c :: rest.takeWhile Char.isDigit⟩
  else if c = '"' then quote rest
  else if c = '/' ∧ rest.head? = some '/' then
    ⟨some .comment, c :: rest.takeWhile fun d => !endsComment d⟩
  else if c = '=' ∧ rest.head? = some '=' then ⟨some .equal, ['=', '=']⟩
  else if c = '!' ∧ rest.head? = some '=' then ⟨some .notEqual, ['!', '=']⟩
  else ⟨some (.ofSymbol c), [c]⟩

/-- How many lines a lexeme ends. An unclosed string ends none. -/
def breaks (l : Lexeme) : Nat :=
  if l.kind = some .illegal then 0 else l.text.count '\n'

def literal (l : Lexeme) : String :=
  if l.kind = some .string then String.ofList (l.text.drop 1).dropLast else String.ofList l.text

/-- The token that a lexeme is, unless it only separates tokens. -/
def token? (line : Nat) (l : Lexeme) : Option Token :=
  match l.kind with
  | none | some .newline | some .comment => none
  | some kind => some ⟨kind, l.literal, line⟩

end Lexeme

/-- The lexemes of a text whose first `skip` characters belong to the lexeme before it. -/
def lexemesAfter : Nat → List Char → List Lexeme
  | _, [] => []
  | 0, c :: rest =>
    let lexeme := Lexeme.first c rest
    lexeme :: lexemesAfter (lexeme.text.length - 1) rest
  | skip + 1, _ :: rest => lexemesAfter skip rest

def lexemes (text : List Char) : List Lexeme := lexemesAfter 0 text

/-! ## Nothing is lost -/

theorem closed_prefix {rest : List Char} (h : '"' ∈ rest) :
    rest.takeWhile (· ≠ '"') ++ ['"'] <+: rest := by
  induction rest with
  | nil => simp at h
  | cons c cs ih =>
    by_cases hc : c = '"'
    · subst hc
      simp
    · have hcs : '"' ∈ cs := by simpa [Ne.symm hc] using h
      simpa [List.takeWhile_cons, hc] using ih hcs

namespace Lexeme

theorem quote_prefix (rest : List Char) : (quote rest).text <+: '"' :: rest := by
  unfold quote
  split
  · rename_i h
    simpa using closed_prefix h
  · exact List.prefix_refl _

theorem cons_prefix_of_head {c d : Char} {rest : List Char} (h : rest.head? = some d) :
    [c, d] <+: c :: rest := by
  cases rest with
  | nil => simp at h
  | cons x xs =>
    obtain rfl : x = d := by simpa using h
    exact ⟨xs, rfl⟩

theorem first_prefix (c : Char) (rest : List Char) : (first c rest).text <+: c :: rest := by
  unfold first
  split
  · simpa [blanks] using List.takeWhile_prefix _
  split
  · simp
  split
  · simpa [word] using List.takeWhile_prefix _
  split
  · simpa using List.takeWhile_prefix _
  split
  · rename_i h
    rw [h]
    exact quote_prefix rest
  split
  · simpa using List.takeWhile_prefix _
  split
  · rename_i h
    rw [h.1]
    exact cons_prefix_of_head h.2
  split
  · rename_i h
    rw [h.1]
    exact cons_prefix_of_head h.2
  · simp

theorem first_ne_nil (c : Char) (rest : List Char) : (first c rest).text ≠ [] := by
  unfold first blanks word quote
  repeat' split
  all_goals simp

end Lexeme

theorem lexemesAfter_eq (k : Nat) (text : List Char) :
    lexemesAfter k text = lexemes (text.drop k) := by
  induction text generalizing k with
  | nil => cases k <;> rfl
  | cons c rest ih =>
    cases k with
    | zero => rfl
    | succ k => exact ih k

theorem lexemes_cons (c : Char) (rest : List Char) :
    lexemes (c :: rest) =
      Lexeme.first c rest :: lexemes ((c :: rest).drop (Lexeme.first c rest).text.length) := by
  have h : 0 < (Lexeme.first c rest).text.length :=
    List.length_pos_iff.2 (Lexeme.first_ne_nil c rest)
  obtain ⟨n, hn⟩ := Nat.exists_eq_succ_of_ne_zero (Nat.ne_of_gt h)
  rw [lexemes, lexemesAfter, lexemesAfter_eq, hn]
  rfl

theorem flatMap_text_lexemes (text : List Char) : (lexemes text).flatMap (·.text) = text := by
  induction h : text.length using Nat.strongRecOn generalizing text with
  | ind n ih =>
    cases text with
    | nil => rfl
    | cons c rest =>
      have hlen : 0 < (Lexeme.first c rest).text.length :=
        List.length_pos_iff.2 (Lexeme.first_ne_nil c rest)
      rw [lexemes_cons, List.flatMap_cons, ih _ (by simp at h ⊢; omega) _ rfl]
      obtain ⟨tail, ht⟩ := Lexeme.first_prefix c rest
      conv => rhs; rw [← ht]
      rw [← ht, List.drop_left]

end Treewalk
