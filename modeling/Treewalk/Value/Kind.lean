/-!
# Kinds of objects
-/

namespace Treewalk

inductive Kind
  | integer | boolean | string | null | array | hash | function | builtin | error | returning
deriving DecidableEq, Repr

/-- How messages name a kind. -/
def Kind.name : Kind → String
  | integer => "INTEGER"
  | boolean => "BOOLEAN"
  | string => "STRING"
  | null => "NULL"
  | array => "ARRAY"
  | hash => "HASH"
  | function => "FUNCTION"
  | builtin => "BUILTIN"
  | error => "ERROR"
  | returning => "RETURN_VALUE"

end Treewalk
