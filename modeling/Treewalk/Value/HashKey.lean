import Treewalk.Value.Digest
import Treewalk.Value.Kind

/-!
# Hash keys

Hashes file their pairs by hash key, in order: integers, booleans, strings, and among one kind by
the unsigned word.
-/

namespace Treewalk

inductive HashKey
  | integer (n : Int64)
  | boolean (b : Bool)
  | string (digest : UInt64)
deriving DecidableEq, Repr

namespace HashKey

def kind : HashKey → Kind
  | integer _ => .integer
  | boolean _ => .boolean
  | string _ => .string

def word : HashKey → UInt64
  | integer n => n.toUInt64
  | boolean b => b.toUInt64
  | string digest => digest

def rank : HashKey → Nat
  | integer _ => 0
  | boolean _ => 1
  | string _ => 2

/-- The order of the pairs of a hash. -/
def precedes (a b : HashKey) : Bool := a.rank < b.rank || a.rank = b.rank && a.word < b.word

end HashKey

/-- A pair of a hash under the hash key of its key. -/
structure Entry (α : Type) where
  hashKey : HashKey
  key : α
  value : α

namespace Entry

variable {α : Type}

/-- Files an entry. One with the same hash key gives way, key and all. -/
def insert (new : Entry α) : List (Entry α) → List (Entry α)
  | [] => [new]
  | e :: es =>
    if e.hashKey = new.hashKey then new :: es
    else if new.hashKey.precedes e.hashKey then new :: e :: es
    else e :: insert new es

def find? (k : HashKey) (es : List (Entry α)) : Option (Entry α) := es.find? (·.hashKey = k)

theorem find?_insert_self (new : Entry α) (es : List (Entry α)) :
    find? new.hashKey (insert new es) = some new := by
  induction es with
  | nil => simp [insert, find?]
  | cons e es ih =>
    unfold find? at ih
    rw [insert]
    split
    · simp [find?]
    split
    · simp [find?]
    · simp [find?, *]

theorem find?_insert_of_ne {k : HashKey} {new : Entry α} (h : new.hashKey ≠ k)
    (es : List (Entry α)) : find? k (insert new es) = find? k es := by
  induction es with
  | nil => simp [insert, find?, h]
  | cons e es ih =>
    unfold find? at ih
    rw [insert]
    split
    · rename_i he
      simp [find?, h, he]
    split
    · simp [find?, h]
    · simp [find?, List.find?_cons, ih]

end Entry

end Treewalk
