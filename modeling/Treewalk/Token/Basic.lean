/-!
# Tokens
-/

namespace Treewalk

inductive TokenKind
  | illegal | eof | ident | int | string
  | assign | plus | minus | bang | star | slash | less | greater | equal | notEqual
  | comma | semicolon | colon
  | leftParen | rightParen | leftBrace | rightBrace | leftBracket | rightBracket
  | function | letWord | trueWord | falseWord | ifWord | elseWord | returnWord
  | comment | newline
deriving DecidableEq, Repr

namespace TokenKind

/-- How messages name a kind. -/
def name : TokenKind → String
  | illegal => "ILLEGAL"
  | eof => "EOF"
  | ident => "IDENT"
  | int => "INT"
  | string => "STRING"
  | assign => "="
  | plus => "+"
  | minus => "-"
  | bang => "!"
  | star => "*"
  | slash => "/"
  | less => "<"
  | greater => ">"
  | equal => "=="
  | notEqual => "!="
  | comma => ","
  | semicolon => ";"
  | colon => ":"
  | leftParen => "("
  | rightParen => ")"
  | leftBrace => "\x7b"
  | rightBrace => "\x7d"
  | leftBracket => "["
  | rightBracket => "]"
  | function => "FUNCTION"
  | letWord => "LET"
  | trueWord => "TRUE"
  | falseWord => "FALSE"
  | ifWord => "IF"
  | elseWord => "ELSE"
  | returnWord => "RETURN"
  | comment => "COMMENT"
  | newline => "NEWLINE"

def all : List TokenKind :=
  [illegal, eof, ident, int, string, assign, plus, minus, bang, star, slash, less, greater, equal,
   notEqual, comma, semicolon, colon, leftParen, rightParen, leftBrace, rightBrace, leftBracket,
   rightBracket, function, letWord, trueWord, falseWord, ifWord, elseWord, returnWord, comment,
   newline]

theorem mem_all (k : TokenKind) : k ∈ all := by cases k <;> simp [all]

/-- The words that are no identifiers. -/
def keywords : List (String × TokenKind) :=
  [("fn", function), ("let", letWord), ("true", trueWord), ("false", falseWord), ("if", ifWord),
   ("else", elseWord), ("return", returnWord)]

def ofWord (word : String) : TokenKind := (keywords.lookup word).getD ident

/-- The tokens of one character. -/
def symbols : List (Char × TokenKind) :=
  [('=', assign), ('+', plus), ('-', minus), ('!', bang), ('*', star), ('/', slash), ('<', less),
   ('>', greater), (',', comma), (';', semicolon), (':', colon), ('(', leftParen),
   (')', rightParen), ('\x7b', leftBrace), ('\x7d', rightBrace), ('[', leftBracket),
   (']', rightBracket)]

def ofSymbol (c : Char) : TokenKind := (symbols.lookup c).getD illegal

end TokenKind

/-- A token on the line where it starts. A string's literal has no quotes. -/
structure Token where
  kind : TokenKind
  literal : String
  line : Nat
deriving DecidableEq, Repr

namespace Token

def eof (line : Nat) : Token := ⟨.eof, "", line⟩

/-- The token as it is written. -/
def text (t : Token) : String :=
  if t.kind = .string then "\"" ++ t.literal ++ "\"" else t.literal

end Token

end Treewalk
