import Treewalk.Token.Basic

/-!
# Precedence
-/

namespace Treewalk

/-- How tightly an operator binds, the loosest first. -/
inductive Precedence
  | lowest | equality | comparison | sum | product | prefixed | call
deriving DecidableEq, Repr

namespace Precedence

def rank : Precedence → Nat
  | lowest => 0
  | equality => 1
  | comparison => 2
  | sum => 3
  | product => 4
  | prefixed => 5
  | call => 6

instance : LT Precedence := ⟨fun p q => p.rank < q.rank⟩

instance (p q : Precedence) : Decidable (p < q) := inferInstanceAs (Decidable (p.rank < q.rank))

/-- How tightly a token binds to what stands before it. -/
def ofKind : TokenKind → Precedence
  | .equal | .notEqual => equality
  | .less | .greater => comparison
  | .plus | .minus => sum
  | .star | .slash => product
  | .leftParen | .leftBracket => call
  | _ => lowest

end Precedence

end Treewalk
