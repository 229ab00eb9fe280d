import Treewalk.Value.Equality

/-!
# Operators on objects
-/

namespace Treewalk

def PrefixOp.apply : PrefixOp → Object → Except RuntimeError Object
  | .not, o => .ok (.boolean !o.truthy)
  | .negate, .integer n => .ok (.integer (-n))
  | .negate, o => .error (.unknownPrefix .negate o.kind)

namespace InfixOp

/-- Arithmetic wraps, and a quotient is cut toward zero. -/
def onIntegers (op : InfixOp) (a b : Int64) : Except RuntimeError Object :=
  match op with
  | add => .ok (.integer (a + b))
  | sub => .ok (.integer (a - b))
  | mul => .ok (.integer (a * b))
  | div => if b = 0 then .error .divisionByZero else .ok (.integer (a / b))
  | less => .ok (.boolean (a < b))
  | greater => .ok (.boolean (b < a))
  | equal => .ok (.boolean (a = b))
  | notEqual => .ok (.boolean (a ≠ b))

def onStrings (op : InfixOp) (s t : String) : Except RuntimeError Object :=
  match op with
  | add => .ok (.string (s ++ t))
  | op => .error (.unknownInfix .string op .string)

/-- Booleans and null are compared with each other. -/
def comparable : Object → Bool
  | .boolean _ => true
  | .null => true
  | _ => false

def onOthers (op : InfixOp) (l r : Object) : Except RuntimeError Object :=
  if op = equal ∧ comparable l ∧ comparable r then .ok (.boolean (l = r))
  else if op = notEqual ∧ comparable l ∧ comparable r then .ok (.boolean (l ≠ r))
  else if l.kind ≠ r.kind then .error (.typeMismatch l.kind op r.kind)
  else .error (.unknownInfix l.kind op r.kind)

def apply (op : InfixOp) : Object → Object → Except RuntimeError Object
  | .integer a, .integer b => op.onIntegers a b
  | .string s, .string t => op.onStrings s t
  | l, r => op.onOthers l r

end InfixOp

/-- The element at a position, or null outside the array. -/
def elementAt (elements : List Object) (i : Int64) : Object :=
  if i < 0 then .null else elements[i.toInt.toNat]?.getD .null

/-- The object in a position of an array or under a key of a hash. -/
def Object.index : Object → Object → Except RuntimeError Object
  | .array elements, .integer i => .ok (elementAt elements i)
  | .array _, position => .error (.arrayIndexNotInteger position.kind)
  | .hash entries, key =>
    match key.hashKey? with
    | some k => .ok (((Entry.find? k entries).map (·.value)).getD .null)
    | none => .error (.unusableAsHashKey key.kind)
  | base, _ => .error (.indexNotSupported base.kind)

end Treewalk
