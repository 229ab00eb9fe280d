import Treewalk.Scope.Basic

/-!
# Machines after a step

What binding a name and making a scope do to each scope of a machine.
-/

namespace Treewalk

namespace Bindings

theorem mem_set {name : String} {value : Object} {b : String × Object} {bs : Bindings}
    (h : b ∈ bs.set name value) : b = (name, value) ∨ b ∈ bs := by
  induction bs with
  | nil => simpa [set] using h
  | cons c bs ih =>
    obtain ⟨n, v⟩ := c
    rw [set] at h
    split at h <;> grind

theorem mem_of_get? {name : String} {value : Object} {bs : Bindings}
    (h : bs.get? name = some value) : (name, value) ∈ bs := by
  obtain ⟨before, after, rfl, -⟩ := List.lookup_eq_some_iff.1 h
  simp

end Bindings

namespace Machine

theorem scopes_set (m : Machine) (s k : ScopeId) (name : String) (value : Object) :
    (m.set s name value).scopes[k]? =
      if s = k then (m.scopes[k]?).map (Scope.set name value) else m.scopes[k]? := by
  simp [set, Array.getElem?_modify]

@[simp] theorem size_set (m : Machine) (s : ScopeId) (name : String) (value : Object) :
    (m.set s name value).scopes.size = m.scopes.size := by
  simp [set]

theorem bindings_set (m : Machine) (s k : ScopeId) (name : String) (value : Object) :
    (m.set s name value).bindings k =
      if s = k ∧ k < m.scopes.size then (m.bindings k).set name value else m.bindings k := by
  unfold bindings
  rw [scopes_set]
  by_cases hs : s = k
  · by_cases hk : k < m.scopes.size
    · simp [hs, hk, Scope.set]
    · simp [hk]
  · simp [hs]

@[simp] theorem enclosing_set (m : Machine) (s k : ScopeId) (name : String) (value : Object) :
    (m.set s name value).enclosing k = m.enclosing k := by
  unfold enclosing
  rw [scopes_set]
  split
  · cases m.scopes[k]? <;> rfl
  · rfl

@[simp] theorem size_newInside (m : Machine) (s : ScopeId) :
    (m.newInside s).scopes.size = m.scopes.size + 1 := by
  simp [newInside]

theorem scopes_newInside (m : Machine) (s k : ScopeId) :
    (m.newInside s).scopes[k]? =
      if k = m.scopes.size then some ⟨[], m.chain s⟩ else m.scopes[k]? := by
  rw [newInside, Array.getElem?_push]

@[simp] theorem bindings_newInside (m : Machine) (s k : ScopeId) :
    (m.newInside s).bindings k = m.bindings k := by
  unfold bindings
  rw [scopes_newInside]
  split
  · rename_i h
    simp [h]
  · rfl

theorem enclosing_newInside (m : Machine) (s k : ScopeId) :
    (m.newInside s).enclosing k = if k = m.scopes.size then m.chain s else m.enclosing k := by
  unfold enclosing
  rw [scopes_newInside]
  split <;> rfl

@[simp] theorem size_newRoot (m : Machine) : m.newRoot.scopes.size = m.scopes.size + 1 := by
  simp [newRoot]

theorem scopes_newRoot (m : Machine) (k : ScopeId) :
    m.newRoot.scopes[k]? = if k = m.scopes.size then some ⟨[], []⟩ else m.scopes[k]? := by
  rw [newRoot, Array.getElem?_push]

@[simp] theorem bindings_newRoot (m : Machine) (k : ScopeId) :
    m.newRoot.bindings k = m.bindings k := by
  unfold bindings
  rw [scopes_newRoot]
  split
  · rename_i h
    simp [h]
  · rfl

@[simp] theorem enclosing_newRoot (m : Machine) (k : ScopeId) :
    m.newRoot.enclosing k = m.enclosing k := by
  unfold enclosing
  rw [scopes_newRoot]
  split
  · rename_i h
    simp [h]
  · rfl

end Machine

end Treewalk
