import Treewalk.Value.Object

/-!
# Equality of objects

Objects are equal by contents, functions by being one and the same.
-/

namespace Treewalk

mutual

def Object.same : Object → Object → Bool
  | .integer m, .integer n => m = n
  | .boolean a, .boolean b => a = b
  | .string s, .string t => s = t
  | .null, .null => true
  | .array as, .array bs => sameObjects as bs
  | .hash es, .hash fs => sameEntries es fs
  | .function c, .function d => c = d
  | .builtin a, .builtin b => a = b
  | .error a, .error b => a = b
  | .returning a, .returning b => a.same b
  | _, _ => false

def sameObjects : List Object → List Object → Bool
  | [], [] => true
  | a :: as, b :: bs => a.same b && sameObjects as bs
  | _, _ => false

def sameEntries : List (Entry Object) → List (Entry Object) → Bool
  | [], [] => true
  | ⟨i, a, c⟩ :: es, ⟨j, b, d⟩ :: fs => i = j && a.same b && c.same d && sameEntries es fs
  | _, _ => false

end

mutual

theorem Object.same_iff : ∀ a b : Object, a.same b = true ↔ a = b
  | .integer _, b => by cases b <;> simp [Object.same]
  | .boolean _, b => by cases b <;> simp [Object.same]
  | .string _, b => by cases b <;> simp [Object.same]
  | .null, b => by cases b <;> simp [Object.same]
  | .array as, b => by cases b <;> simp [Object.same, sameObjects_iff as]
  | .hash es, b => by cases b <;> simp [Object.same, sameEntries_iff es]
  | .function _, b => by cases b <;> simp [Object.same]
  | .builtin _, b => by cases b <;> simp [Object.same]
  | .error _, b => by cases b <;> simp [Object.same]
  | .returning a, b => by cases b <;> simp [Object.same, Object.same_iff a]

theorem sameObjects_iff : ∀ as bs : List Object, sameObjects as bs = true ↔ as = bs
  | [], bs => by cases bs <;> simp [sameObjects]
  | a :: as, bs => by cases bs <;> simp [sameObjects, Object.same_iff a, sameObjects_iff as]

theorem sameEntries_iff : ∀ es fs : List (Entry Object), sameEntries es fs = true ↔ es = fs
  | [], fs => by cases fs <;> simp [sameEntries]
  | ⟨i, a, c⟩ :: es, fs => by
    rcases fs with _ | ⟨⟨j, b, d⟩, fs⟩
    · simp [sameEntries]
    · simp [sameEntries, Object.same_iff a, Object.same_iff c, sameEntries_iff es, and_assoc]

end

instance : DecidableEq Object := fun a b => decidable_of_iff _ (a.same_iff b)

end Treewalk
