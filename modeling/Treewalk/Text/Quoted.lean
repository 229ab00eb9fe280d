import Treewalk.Text.Unprintable

/-!
# Quoted text

A text between double quotes, every character on one line and visible.
-/

namespace Treewalk

def hexDigits (n : Nat) : String := String.ofList (Nat.toDigits 16 n)

/-- How a character stands inside quotes. A single quote needs no escape. -/
def escaped (c : Char) : String :=
  match c with
  | '"' => "\\\""
  | '\\' => "\\\\"
  | '\n' => "\\n"
  | '\r' => "\\r"
  | '\t' => "\\t"
  | '\x00' => "\\0"
  | c => if isUnprintable c then "\\u\x7b" ++ hexDigits c.toNat ++ "\x7d" else c.toString

def quoted (s : String) : String :=
  "\"" ++ String.join (s.toList.map escaped) ++ "\""

end Treewalk
