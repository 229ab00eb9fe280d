/-!
# The built-in functions
-/

namespace Treewalk

inductive Builtin
  | len | first | last | rest | push | puts
deriving DecidableEq, Repr

inductive Arity
  | exactly (n : Nat)
  | any
deriving DecidableEq, Repr

namespace Builtin

def name : Builtin → String
  | len => "len"
  | first => "first"
  | last => "last"
  | rest => "rest"
  | push => "push"
  | puts => "puts"

def arity : Builtin → Arity
  | len | first | last | rest => .exactly 1
  | push => .exactly 2
  | puts => .any

def all : List Builtin := [len, first, last, rest, push, puts]

theorem mem_all (b : Builtin) : b ∈ all := by cases b <;> simp [all]

def named? (name : String) : Option Builtin := all.find? (·.name = name)

end Builtin

end Treewalk
