import Treewalk.Eval.Evaluate

/-!
# The objects inside an object
-/

namespace Treewalk

namespace Object

/-- Errors and return signals. -/
def isSignal : Object → Bool
  | error _ | returning _ => true
  | _ => false

end Object

mutual

/-- The object and all objects inside it, at any depth. -/
def Object.parts : Object → List Object
  | .array elements => .array elements :: partsAll elements
  | .hash entries => .hash entries :: partsEntries entries
  | .returning value => .returning value :: value.parts
  | .integer n => [.integer n]
  | .boolean b => [.boolean b]
  | .string s => [.string s]
  | .null => [.null]
  | .function c => [.function c]
  | .builtin b => [.builtin b]
  | .error e => [.error e]

def partsAll : List Object → List Object
  | [] => []
  | o :: os => o.parts ++ partsAll os

def partsEntries : List (Entry Object) → List Object
  | [] => []
  | ⟨_, key, value⟩ :: es => key.parts ++ value.parts ++ partsEntries es

end

theorem mem_partsAll {x : Object} {os : List Object} :
    x ∈ partsAll os ↔ ∃ o ∈ os, x ∈ o.parts := by
  induction os with
  | nil => simp [partsAll]
  | cons o os ih => simp [partsAll, ih]

theorem mem_partsEntries {x : Object} {es : List (Entry Object)} :
    x ∈ partsEntries es ↔ ∃ e ∈ es, x ∈ e.key.parts ∨ x ∈ e.value.parts := by
  induction es with
  | nil => simp [partsEntries]
  | cons e es ih => simp [partsEntries, ih, or_assoc]

namespace Object

/-- The property holds of the object and of all objects inside it. -/
def Every (p : Object → Prop) (o : Object) : Prop := ∀ x ∈ o.parts, p x

variable {p : Object → Prop}

theorem mem_parts_self (o : Object) : o ∈ o.parts := by cases o <;> simp [parts]

theorem Every.self {o : Object} (h : o.Every p) : p o := h o (mem_parts_self o)

theorem every_array {xs : List Object} :
    (array xs).Every p ↔ p (array xs) ∧ ∀ x ∈ xs, x.Every p := by
  simp only [Every, parts, List.forall_mem_cons, mem_partsAll]
  grind

theorem every_hash {es : List (Entry Object)} :
    (hash es).Every p ↔ p (hash es) ∧ ∀ e ∈ es, e.key.Every p ∧ e.value.Every p := by
  simp only [Every, parts, List.forall_mem_cons, mem_partsEntries]
  grind

theorem every_returning {o : Object} :
    (returning o).Every p ↔ p (returning o) ∧ o.Every p := by
  simp [Every, parts]

/-- Without errors and return signals inside. -/
def Clean (o : Object) : Prop := o.Every fun x => x.isSignal = false

end Object

end Treewalk
