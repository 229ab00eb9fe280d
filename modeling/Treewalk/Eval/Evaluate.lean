import Treewalk.Eval.Builtins
import Treewalk.Eval.Operators
import Treewalk.Eval.Signal

/-!
# Evaluation

Operands are evaluated from left to right, and the first signal stops everything. Depth bounds how
deep expressions, statements and calls nest, not how long evaluation takes.
-/

namespace Treewalk.Eval

/-! ## One after another, over any state -/

section Loops

variable {σ : Type}

def all (eval : Expr → Run σ Signal Object) : List Expr → Run σ Signal (List Object)
  | [] => return []
  | e :: es => do
    let o ← eval e
    return o :: (← all eval es)

/-- Files pairs into `entries`. A key is checked before its value is evaluated. -/
def pairs (eval : Expr → Run σ Signal Object) (entries : List (Entry Object)) :
    List (Expr × Expr) → Run σ Signal (List (Entry Object))
  | [] => return entries
  | (k, v) :: rest => do
    let key ← eval k
    match key.hashKey? with
    | none => fail (.unusableAsHashKey key.kind)
    | some hashKey =>
      let value ← eval v
      pairs eval (Entry.insert ⟨hashKey, key, value⟩ entries) rest

/-- The result of the last statement; `result` if there is none. -/
def sequence (eval : Statement → Run σ Signal Object) (result : Object) :
    List Statement → Run σ Signal Object
  | [] => return result
  | s :: ss => do sequence eval (← eval s) ss

theorem sequence_one (eval : Statement → Run σ Signal Object) (result : Object) (s : Statement) :
    sequence eval result [s] = eval s :=
  bind_pure (eval s)

theorem sequence_append (eval : Statement → Run σ Signal Object) (result : Object)
    (ss ss' : List Statement) :
    sequence eval result (ss ++ ss') =
      sequence eval result ss >>= fun o => sequence eval o ss' := by
  induction ss generalizing result with
  | nil => rfl
  | cons s ss ih =>
    rw [List.cons_append, sequence, sequence, bind_assoc]
    exact congrArg _ (funext ih)

end Loops

/-! ## The evaluator -/

mutual

def expression : Nat → ScopeId → Expr → Eval Object
  | 0, _, _ => Run.exhausted
  | n + 1, s, e =>
    match e with
    | .identifier name => named s name.literal
    | .integer _ value => return .integer value
    | .boolean _ value => return .boolean value
    | .string token => return .string token.literal
    | .prefixed _ op operand => do settleExcept (op.apply (← expression n s operand))
    | .binary _ op left right => do
      let l ← expression n s left
      let r ← expression n s right
      settleExcept (op.apply l r)
    | .conditional _ condition consequence alternative => do
      if (← expression n s condition).truthy then
        sequence (statement n s) .null consequence.statements
      else
        match alternative with
        | some block => sequence (statement n s) .null block.statements
        | none => return .null
    | .function _ parameters body => closure s parameters body
    | .call _ callee arguments => do
      let f ← expression n s callee
      let xs ← all (expression n s) arguments
      settle (← apply n f xs)
    | .array _ elements => return .array (← all (expression n s) elements)
    | .hash _ ps => return .hash (← pairs (expression n s) [] ps)
    | .index _ base position => do
      let b ← expression n s base
      let p ← expression n s position
      settleExcept (b.index p)

def statement : Nat → ScopeId → Statement → Eval Object
  | 0, _, _ => Run.exhausted
  | n + 1, s, st =>
    match st with
    | .binding _ name value => do
      bind s name.literal (← expression n s value)
      return .null
    | .returning _ none => Run.exit (.returning .null)
    | .returning _ (some value) => do Run.exit (.returning (← expression n s value))
    | .expression _ value => expression n s value

/-- Calls an object. What comes back may be a signal, as an object. -/
def apply : Nat → Object → List Object → Eval Object
  | 0, _, _ => Run.exhausted
  | n + 1, f, arguments =>
    match f with
    | .function c => do
      if arguments.length = c.parameters.length then
        let s ← enter c arguments
        concluded (sequence (statement n s) .null c.body.statements)
      else return .error (.wrongArgumentCount c.parameters.length arguments.length)
    | .builtin b => do
      print (b.printed arguments)
      return .ofExcept (b.result arguments)
    | o => return .error (.notAFunction o.kind)

end

/-- What a program in a scope ends with. -/
def program (depth : Nat) (s : ScopeId) (p : Program) (m : Machine) : Option (Object × Machine) :=
  outcome (sequence (statement depth s) .null p) m

/-- What a call ends with. -/
def call (depth : Nat) (f : Object) (arguments : List Object) (m : Machine) :
    Option (Object × Machine) :=
  outcome (apply depth f arguments) m

end Treewalk.Eval
