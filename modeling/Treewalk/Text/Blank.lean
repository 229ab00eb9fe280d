import Treewalk.Text.Ranges

/-!
# Blank text

Unicode's White_Space property, which decides whether a line holds anything.
-/

namespace Treewalk

/-- The ranges of the White_Space property. -/
def whiteSpace : List (Nat × Nat) :=
  [(0x9, 0xD), (0x20, 0x20), (0x85, 0x85), (0xA0, 0xA0), (0x1680, 0x1680), (0x2000, 0x200A),
   (0x2028, 0x2029), (0x202F, 0x202F), (0x205F, 0x205F), (0x3000, 0x3000)]

def isWhiteSpace (c : Char) : Bool := inRanges whiteSpace c.toNat

theorem isWhiteSpace_iff (c : Char) :
    isWhiteSpace c = true ↔ ∃ r ∈ whiteSpace, r.1 ≤ c.toNat ∧ c.toNat ≤ r.2 :=
  inRanges_iff whiteSpace c.toNat (by decide)

def isBlankText (s : String) : Bool := s.toList.all isWhiteSpace

end Treewalk
