import Treewalk.Program.Basic

/-!
# Equality of programs

Two programs are equal node by node, tokens and their lines included.
-/

namespace Treewalk

mutual

def Expr.same : Expr → Expr → Bool
  | .identifier a, .identifier b => a = b
  | .integer t m, .integer u n => t = u && m = n
  | .boolean t b, .boolean u c => t = u && b = c
  | .string t, .string u => t = u
  | .prefixed t o a, .prefixed u p b => t = u && o = p && a.same b
  | .binary t o a c, .binary u p b d => t = u && o = p && a.same b && c.same d
  | .conditional t a c e, .conditional u b d f => t = u && a.same b && c.same d && sameElse e f
  | .function t ps a, .function u qs b => t = u && ps = qs && a.same b
  | .call t a as, .call u b bs => t = u && a.same b && sameAll as bs
  | .array t as, .array u bs => t = u && sameAll as bs
  | .hash t ps, .hash u qs => t = u && samePairs ps qs
  | .index t a c, .index u b d => t = u && a.same b && c.same d
  | _, _ => false

def sameAll : List Expr → List Expr → Bool
  | [], [] => true
  | a :: as, b :: bs => a.same b && sameAll as bs
  | _, _ => false

def samePairs : List (Expr × Expr) → List (Expr × Expr) → Bool
  | [], [] => true
  | (a, c) :: ps, (b, d) :: qs => a.same b && c.same d && samePairs ps qs
  | _, _ => false

def sameElse : Option Block → Option Block → Bool
  | none, none => true
  | some a, some b => a.same b
  | _, _ => false

def sameValue : Option Expr → Option Expr → Bool
  | none, none => true
  | some a, some b => a.same b
  | _, _ => false

def Statement.same : Statement → Statement → Bool
  | .binding t m a, .binding u n b => t = u && m = n && a.same b
  | .returning t a, .returning u b => t = u && sameValue a b
  | .expression t a, .expression u b => t = u && a.same b
  | _, _ => false

def sameStatements : List Statement → List Statement → Bool
  | [], [] => true
  | a :: as, b :: bs => a.same b && sameStatements as bs
  | _, _ => false

def Block.same : Block → Block → Bool
  | ⟨t, as⟩, ⟨u, bs⟩ => t = u && sameStatements as bs

end

mutual

theorem Expr.same_iff : ∀ a b : Expr, a.same b = true ↔ a = b
  | .identifier _, b => by cases b <;> simp [Expr.same]
  | .integer _ _, b => by cases b <;> simp [Expr.same]
  | .boolean _ _, b => by cases b <;> simp [Expr.same]
  | .string _, b => by cases b <;> simp [Expr.same]
  | .prefixed _ _ a, b => by cases b <;> simp [Expr.same, Expr.same_iff a, and_assoc]
  | .binary _ _ a c, b => by
    cases b <;> simp [Expr.same, Expr.same_iff a, Expr.same_iff c, and_assoc]
  | .conditional _ a c e, b => by
    cases b <;> simp [Expr.same, Expr.same_iff a, Block.same_iff c, sameElse_iff e, and_assoc]
  | .function _ _ a, b => by cases b <;> simp [Expr.same, Block.same_iff a, and_assoc]
  | .call _ a as, b => by
    cases b <;> simp [Expr.same, Expr.same_iff a, sameAll_iff as, and_assoc]
  | .array _ as, b => by cases b <;> simp [Expr.same, sameAll_iff as]
  | .hash _ ps, b => by cases b <;> simp [Expr.same, samePairs_iff ps]
  | .index _ a c, b => by
    cases b <;> simp [Expr.same, Expr.same_iff a, Expr.same_iff c, and_assoc]

theorem sameAll_iff : ∀ as bs : List Expr, sameAll as bs = true ↔ as = bs
  | [], bs => by cases bs <;> simp [sameAll]
  | a :: as, bs => by cases bs <;> simp [sameAll, Expr.same_iff a, sameAll_iff as]

theorem samePairs_iff : ∀ ps qs : List (Expr × Expr), samePairs ps qs = true ↔ ps = qs
  | [], qs => by cases qs <;> simp [samePairs]
  | (a, c) :: ps, qs => by
    rcases qs with _ | ⟨⟨b, d⟩, qs⟩
    · simp [samePairs]
    · simp [samePairs, Expr.same_iff a, Expr.same_iff c, samePairs_iff ps]

theorem sameElse_iff : ∀ a b : Option Block, sameElse a b = true ↔ a = b
  | none, b => by cases b <;> simp [sameElse]
  | some a, b => by cases b <;> simp [sameElse, Block.same_iff a]

theorem sameValue_iff : ∀ a b : Option Expr, sameValue a b = true ↔ a = b
  | none, b => by cases b <;> simp [sameValue]
  | some a, b => by cases b <;> simp [sameValue, Expr.same_iff a]

theorem Statement.same_iff : ∀ a b : Statement, a.same b = true ↔ a = b
  | .binding _ _ a, b => by cases b <;> simp [Statement.same, Expr.same_iff a, and_assoc]
  | .returning _ a, b => by cases b <;> simp [Statement.same, sameValue_iff a]
  | .expression _ a, b => by cases b <;> simp [Statement.same, Expr.same_iff a]

theorem sameStatements_iff : ∀ as bs : List Statement, sameStatements as bs = true ↔ as = bs
  | [], bs => by cases bs <;> simp [sameStatements]
  | a :: as, bs => by
    cases bs <;> simp [sameStatements, Statement.same_iff a, sameStatements_iff as]

theorem Block.same_iff : ∀ a b : Block, a.same b = true ↔ a = b
  | ⟨_, as⟩, ⟨_, _⟩ => by simp [Block.same, sameStatements_iff as]

end

instance : DecidableEq Expr := fun a b => decidable_of_iff _ (a.same_iff b)

instance : DecidableEq Statement := fun a b => decidable_of_iff _ (a.same_iff b)

instance : DecidableEq Block := fun a b => decidable_of_iff _ (a.same_iff b)

end Treewalk
