import Treewalk.Value.Object

/-!
# Scopes

A scope binds names and stands inside other scopes. Scopes are numbered in the order in which they
are made, and none is ever removed.
-/

namespace Treewalk

/-- Names with their objects, each name once. -/
abbrev Bindings := List (String × Object)

namespace Bindings

def set (name : String) (value : Object) : Bindings → Bindings
  | [] => [(name, value)]
  | (n, v) :: rest => if n = name then (name, value) :: rest else (n, v) :: set name value rest

def get? (name : String) (b : Bindings) : Option Object := b.lookup name

theorem get?_set_self (name : String) (value : Object) (b : Bindings) :
    (b.set name value).get? name = some value := by
  unfold get?
  induction b with
  | nil => simp [set]
  | cons p b ih =>
    obtain ⟨n, v⟩ := p
    rw [set]
    split
    · simp
    · rename_i h
      have h' : (name == n) = false := by simpa using Ne.symm h
      simp [List.lookup_cons, h', ih]

theorem get?_set_of_ne {name other : String} (h : other ≠ name) (value : Object) (b : Bindings) :
    (b.set name value).get? other = b.get? other := by
  have h' : (other == name) = false := by simpa using h
  unfold get?
  induction b with
  | nil => simpa [set] using h
  | cons p b ih =>
    obtain ⟨n, v⟩ := p
    rw [set]
    split
    · rename_i hp
      subst hp
      simp [List.lookup_cons, h']
    · simp [List.lookup_cons, ih]

end Bindings

/-- A scope with the scopes around it, the nearest first. -/
structure Scope where
  bindings : Bindings
  enclosing : List ScopeId

namespace Scope

def set (name : String) (value : Object) (s : Scope) : Scope :=
  { s with bindings := s.bindings.set name value }

end Scope

/-- All scopes, the identity of the next function, and what was printed. -/
structure Machine where
  scopes : Array Scope
  nextFunction : Nat
  output : String

namespace Machine

def empty : Machine := ⟨#[], 0, ""⟩

def bindings (m : Machine) (s : ScopeId) : Bindings := (m.scopes[s]?.map (·.bindings)).getD []

/-- The scopes around a scope, the nearest first. -/
def enclosing (m : Machine) (s : ScopeId) : List ScopeId :=
  (m.scopes[s]?.map (·.enclosing)).getD []

/-- Where a name is looked up from a scope, in this order. -/
def chain (m : Machine) (s : ScopeId) : List ScopeId := s :: m.enclosing s

/-- What the nearest scope that binds the name binds it to. -/
def get? (m : Machine) (s : ScopeId) (name : String) : Option Object :=
  (m.chain s).findSome? fun id => (m.bindings id).get? name

/-- Binds the name in this scope and no other. -/
def set (s : ScopeId) (name : String) (value : Object) (m : Machine) : Machine :=
  { m with scopes := m.scopes.modify s (Scope.set name value) }

def setAll (s : ScopeId) (bindings : List (String × Object)) (m : Machine) : Machine :=
  bindings.foldl (fun m (name, value) => m.set s name value) m

/-- The scope that comes next. -/
def nextScope (m : Machine) : ScopeId := m.scopes.size

/-- A new scope without any around it. -/
def newRoot (m : Machine) : Machine := { m with scopes := m.scopes.push ⟨[], []⟩ }

/-- A new scope inside `s`. -/
def newInside (s : ScopeId) (m : Machine) : Machine :=
  { m with scopes := m.scopes.push ⟨[], m.chain s⟩ }

def print (text : String) (m : Machine) : Machine := { m with output := m.output ++ text }

end Machine

end Treewalk
