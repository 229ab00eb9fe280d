import Treewalk.Host.Interpret
import Treewalk.Text.Blank

/-!
# The prompt

Lines run one after another in one scope, and what a line binds stays. An error ends its line and
nothing else.
-/

namespace Treewalk

/-- What a run of the program leaves: its exit code and what it wrote. -/
structure Response where
  code : Nat
  stdout : String
  stderr : String
deriving DecidableEq

/-- A line end may have a carriage return before it; `reversed` starts with the last byte. -/
def withoutReturn : List UInt8 → List UInt8
  | 13 :: reversed => reversed
  | reversed => reversed

/-- The lines of bytes, after the `reversed` start of a line. Only a line end makes a last empty
line. -/
def linesAfter (reversed : List UInt8) : List UInt8 → List (List UInt8)
  | [] => if reversed = [] then [] else [reversed.reverse]
  | b :: bytes =>
    if b = 10 then (withoutReturn reversed).reverse :: linesAfter [] bytes
    else linesAfter (b :: reversed) bytes

def byteLines (bytes : List UInt8) : List (List UInt8) := linesAfter [] bytes

def decodeText (bytes : List UInt8) : Option String := String.fromUTF8? ⟨bytes.toArray⟩

namespace Prompt

def mark : String := ">> "

def start : Machine := Machine.fresh.print mark

/-- What a line prints besides the output of its program. -/
def reply : Except Failure Object → String
  | .ok .null => ""
  | .ok o => o.display ++ "\n"
  | .error f => f.message ++ "\n"

/-- Runs a line, unless it is blank, and prompts for the next. -/
def line (depth : Nat) (source : String) (m : Machine) : Option Machine :=
  if isBlankText source then some (m.print mark)
  else
    (interpret depth Machine.root source m).map fun (r, m') =>
      (m'.print (reply r)).print mark

def invalidText : String := "stream did not contain valid UTF-8\n"

/-- Runs lines from a machine that has prompted for the first. -/
def lines (depth : Nat) : List (List UInt8) → Machine → Option Response
  | [], m => some ⟨0, m.output ++ "\n", ""⟩
  | bytes :: rest, m =>
    match decodeText bytes with
    | none => some ⟨1, m.output, invalidText⟩
    | some source =>
      match line depth source m with
      | none => none
      | some m' => lines depth rest m'

def run (depth : Nat) (stdin : List UInt8) : Option Response :=
  lines depth (byteLines stdin) start

end Prompt

end Treewalk
