import Treewalk.Proofs.Eval.Closures
import Treewalk.Proofs.Eval.Invariants
import Treewalk.Proofs.Program.Names

/-!
# Two machines abreast

A machine here and one there that run the same code under other names. The scopes here have their
counterparts there, and so have the functions. A world says of each scope here in which mode names
correspond in it, and of each function here what it is there. Worlds grow as the machines do.
-/

namespace Treewalk

namespace Bindings

theorem get?_set (name : String) (value : Object) (bs : Bindings) (other : String) :
    (bs.set name value).get? other = if other = name then some value else bs.get? other := by
  split
  · rename_i h
    rw [h, get?_set_self]
  · rename_i h
    exact get?_set_of_ne h value bs

/-- One binding after another. -/
def setAll (new : List (String × Object)) (bs : Bindings) : Bindings :=
  new.foldl (fun bs b => bs.set b.1 b.2) bs

theorem bound_set {name other : String} {value : Object} {bs : Bindings}
    (h : bs.get? other ≠ none) : (bs.set name value).get? other ≠ none := by
  rw [get?_set]
  split
  · exact nofun
  · exact h

theorem bound_setAll {new : List (String × Object)} {name : String} {bs : Bindings}
    (h : bs.get? name ≠ none ∨ name ∈ new.map (·.1)) : (setAll new bs).get? name ≠ none := by
  induction new generalizing bs with
  | nil => simpa [setAll] using h
  | cons b new ih =>
    refine ih ?_
    rcases h with h | h
    · exact .inl (bound_set h)
    · rcases List.mem_cons.1 h with rfl | h
      · exact .inl (by simp [get?_set])
      · exact .inr h

theorem get?_setAll_nil {new : List (String × Object)} {name : String}
    (h : name ∉ new.map (·.1)) : (setAll new []).get? name = none := by
  suffices ∀ bs : Bindings, bs.get? name = none → (setAll new bs).get? name = none from this [] rfl
  induction new with
  | nil => exact fun _ hbs => hbs
  | cons b new ih =>
    intro bs hbs
    rw [List.map_cons, List.mem_cons, not_or] at h
    exact ih h.2 _ (by rw [get?_set, if_neg h.1, hbs])

end Bindings

namespace Machine

theorem get?_eq (m : Machine) (k : ScopeId) (name : String) :
    m.get? k name = ((m.bindings k).get? name).or
      ((m.enclosing k).findSome? fun j => (m.bindings j).get? name) := by
  rw [get?, chain, List.findSome?_cons]
  cases (m.bindings k).get? name <;> rfl

theorem get?_inside {m : Machine} {k j : ScopeId} (h : m.enclosing k = m.chain j)
    (name : String) : m.get? k name = ((m.bindings k).get? name).or (m.get? j name) := by
  rw [get?_eq, h]
  rfl

theorem get?_set_other {m : Machine} {e : ScopeId} {name other : String} (h : other ≠ name)
    (value : Object) (k : ScopeId) : (m.set e name value).get? k other = m.get? k other := by
  have hchain : (m.set e name value).chain k = m.chain k := by
    rw [chain, chain, enclosing_set]
  have hbindings (j : ScopeId) : ((m.set e name value).bindings j).get? other =
      (m.bindings j).get? other := by
    rw [bindings_set]
    split
    · exact Bindings.get?_set_of_ne h value _
    · rfl
  simp only [get?, hchain, hbindings]

theorem get?_set_self {m : Machine} {e : ScopeId} (he : e < m.scopes.size) (name : String)
    (value : Object) : (m.set e name value).get? e name = some value := by
  simp [get?_eq, bindings_set, he, Bindings.get?_set_self]

theorem size_setAll (m : Machine) (s : ScopeId) (new : List (String × Object)) :
    (m.setAll s new).scopes.size = m.scopes.size := by
  induction new generalizing m with
  | nil => rfl
  | cons b new ih => exact (ih _).trans (size_set ..)

theorem enclosing_setAll (m : Machine) (s k : ScopeId) (new : List (String × Object)) :
    (m.setAll s new).enclosing k = m.enclosing k := by
  induction new generalizing m with
  | nil => rfl
  | cons b new ih => exact (ih _).trans (enclosing_set ..)

theorem bindings_setAll (m : Machine) (s k : ScopeId) (new : List (String × Object)) :
    (m.setAll s new).bindings k =
      if s = k ∧ k < m.scopes.size then (m.bindings k).setAll new else m.bindings k := by
  induction new generalizing m with
  | nil => simp [setAll, Bindings.setAll]
  | cons b new ih =>
    have hstep := ih (m.set s b.1 b.2)
    rw [size_set, bindings_set] at hstep
    refine hstep.trans ?_
    split <;> rfl

theorem setAll_others (m : Machine) (s : ScopeId) (new : List (String × Object)) :
    (m.setAll s new).nextFunction = m.nextFunction ∧ (m.setAll s new).output = m.output := by
  induction new generalizing m with
  | nil => exact ⟨rfl, rfl⟩
  | cons b new ih => exact ih (m.set s b.1 b.2)

/-- The machine with a new scope inside `s`, and with bindings in it. -/
def entered (s : ScopeId) (new : List (String × Object)) (m : Machine) : Machine :=
  (m.newInside s).setAll m.nextScope new

section Entered

variable (m : Machine) (s k : ScopeId) (new : List (String × Object))

@[simp] theorem size_entered : (m.entered s new).scopes.size = m.scopes.size + 1 := by
  rw [entered, size_setAll, size_newInside]

theorem enclosing_entered : (m.entered s new).enclosing k =
    if k = m.scopes.size then m.chain s else m.enclosing k := by
  rw [entered, enclosing_setAll, enclosing_newInside]

theorem bindings_entered : (m.entered s new).bindings k =
    if k = m.scopes.size then Bindings.setAll new [] else m.bindings k := by
  rw [entered, bindings_setAll, bindings_newInside, size_newInside, nextScope]
  by_cases hk : k = m.scopes.size
  · simp [hk, bindings]
  · rw [if_neg fun h => hk h.1.symm, if_neg hk]

theorem nextFunction_entered : (m.entered s new).nextFunction = m.nextFunction :=
  (setAll_others _ _ new).1

theorem output_entered : (m.entered s new).output = m.output := (setAll_others _ _ new).2

end Entered

end Machine

/-! ## Worlds -/

/-- Numbers there for those here, and the scopes that stand around the first one there. -/
structure Dictionary extends Naming where
  scope : ScopeId → ScopeId
  scope_injective : ∀ {k j}, scope k = scope j → k = j
  identity : Nat → Nat
  outer : List ScopeId
  outer_apart : ∀ k, scope k ∉ outer

/-- The function there is the one here under other names, made where the mode is `μ`. -/
structure Dictionary.Renames (D : Dictionary) (μ : D.Mode) (c c' : Closure) : Prop where
  identity : c'.identity = D.identity c.identity
  scope : c'.scope = D.scope c.scope
  token : c'.body.token = c.body.token
  inside : ∃ ν, D.Opens μ ν c.parameters ∧ List.Forall₂ (D.Name ν) c.parameters c'.parameters ∧
    D.Corresponds ν (.statements c.body.statements) (.statements c'.body.statements)

theorem Dictionary.Renames.back {D : Dictionary} {μ : D.Mode} {c c' : Closure} {f : String → String}
    (h : D.Renames μ c c') (hf : ∀ μ a a', D.names μ a a' → f a' = a) :
    c'.parameters.map (Token.rename f) = c.parameters ∧ c'.body.rename f = c.body := by
  obtain ⟨-, -, htoken, ν, -, hnames, hbody⟩ := h
  obtain ⟨identity, parameters, ⟨token, statements⟩, scope⟩ := c
  obtain ⟨identity', parameters', ⟨token', statements'⟩, scope'⟩ := c'
  obtain rfl : token' = token := htoken
  have hstatements := Code.statements.inj (hbody.back hf)
  exact ⟨Naming.names_back hf hnames, congrArg (Block.mk token') hstatements⟩

/-- The mode of each scope here, and the function there for each function here. -/
structure World (D : Dictionary) where
  modes : List D.Mode
  closures : List Closure

variable {D : Dictionary} {W W' : World D}

namespace World

/-- The world later has all that this one has. -/
structure Grows (W W' : World D) : Prop where
  modes : W.modes <+: W'.modes
  closures : W.closures <+: W'.closures

theorem Grows.refl (W : World D) : W.Grows W := ⟨List.prefix_refl _, List.prefix_refl _⟩

theorem Grows.trans {W'' : World D} (h : W.Grows W') (h' : W'.Grows W'') : W.Grows W'' :=
  ⟨h.modes.trans h'.modes, h.closures.trans h'.closures⟩

theorem getElem?_later {α : Type} {xs ys : List α} (h : xs <+: ys) {i : Nat} {x : α}
    (hx : xs[i]? = some x) : ys[i]? = some x := by
  obtain ⟨more, rfl⟩ := h
  rwa [List.getElem?_append_left (List.getElem?_eq_some_iff.1 hx).1]

theorem Grows.mode (h : W.Grows W') {k : ScopeId} {μ : D.Mode} (hk : W.modes[k]? = some μ) :
    W'.modes[k]? = some μ := getElem?_later h.modes hk

/-- With another scope. -/
def addScope (W : World D) (ν : D.Mode) : World D := { W with modes := W.modes ++ [ν] }

/-- With another function. -/
def addFunction (W : World D) (c : Closure) : World D := { W with closures := W.closures ++ [c] }

theorem grows_addScope (W : World D) (ν : D.Mode) : W.Grows (W.addScope ν) :=
  ⟨List.prefix_append _ _, List.prefix_refl _⟩

theorem grows_addFunction (W : World D) (c : Closure) : W.Grows (W.addFunction c) :=
  ⟨List.prefix_refl _, List.prefix_append _ _⟩

/-- The function has a counterpart. -/
def Knows (W : World D) (c : Closure) : Prop :=
  ∃ μ c', W.modes[c.scope]? = some μ ∧ W.closures[c.identity]? = some c' ∧ D.Renames μ c c'

theorem Knows.mono (hg : W.Grows W') {c : Closure} (h : W.Knows c) : W'.Knows c := by
  obtain ⟨μ, c', hμ, hc, hr⟩ := h
  exact ⟨μ, c', hg.mode hμ, getElem?_later hg.closures hc, hr⟩

def closure (W : World D) (c : Closure) : Closure := (W.closures[c.identity]?).getD c

theorem closure_eq {c c' : Closure} (h : W.closures[c.identity]? = some c') :
    W.closure c = c' := by
  rw [closure, h, Option.getD_some]

theorem closure_mono (hg : W.Grows W') {c : Closure} (h : W.Knows c) :
    W.closure c = W'.closure c := by
  obtain ⟨μ, c', -, hc, -⟩ := h
  rw [closure_eq hc, closure_eq (getElem?_later hg.closures hc)]

/-- The object there. -/
def object (W : World D) (o : Object) : Object := o.mapClosures W.closure

/-- All functions inside the object have counterparts. -/
def Holds (W : World D) (o : Object) : Prop := o.Every fun x => ∀ c, x = .function c → W.Knows c

theorem plain (W : World D) : Plain fun x => ∀ c, x = .function c → W.Knows c := by
  constructor <;> simp

theorem Holds.error (e : RuntimeError) : W.Holds (.error e) := by
  simp [Holds, Object.Every, Object.parts]

theorem Holds.function {c : Closure} (h : W.Knows c) : W.Holds (.function c) := by
  simpa [Holds, Object.Every, Object.parts] using h

theorem Holds.mono (hg : W.Grows W') {o : Object} (h : W.Holds o) : W'.Holds o :=
  fun x hx c hc => (h x hx c hc).mono hg

theorem object_mono (hg : W.Grows W') {o : Object} (h : W.Holds o) : W'.object o = W.object o :=
  o.mapClosures_congr fun c hc => (closure_mono hg (h _ hc c rfl)).symm

/-- The object there stands for the one here. -/
structure Stands (W : World D) (o o' : Object) : Prop where
  holds : W.Holds o
  eq : o' = W.object o

namespace Stands

variable {o o' : Object}

theorem mono (hg : W.Grows W') (h : W.Stands o o') : W'.Stands o o' :=
  ⟨h.holds.mono hg, h.eq.trans (object_mono hg h.holds).symm⟩

theorem bound_mono (hg : W.Grows W') {x x' : Option Object} (h : Option.Rel W.Stands x x') :
    Option.Rel W'.Stands x x' := by
  cases h with
  | some h => exact .some (h.mono hg)
  | none => exact .none

theorem null : W.Stands .null .null := ⟨W.plain.every_null, rfl⟩

theorem error (e : RuntimeError) : W.Stands (.error e) (.error e) := ⟨.error e, rfl⟩

end Stands

end World

/-! ## Machines -/

/-- Where a scope here and its counterpart are. They may be the first ones, where names are the same
here and there and nothing around the one there binds them. Or they are inside counterparts, whose
mode covers all names but those bound in the scope itself. -/
inductive Placed (W : World D) (m m' : Machine) (k : ScopeId) (μ : D.Mode) : Prop
  | first : m.enclosing k = [] → m'.enclosing (D.scope k) = D.outer →
    (∀ a a', D.names μ a a' → a' = a ∧ ∀ j ∈ D.outer, (m'.bindings j).get? a' = none) →
    Placed W m m' k μ
  | inside {j : ScopeId} {ν : D.Mode} : j < k → W.modes[j]? = some ν →
    m.enclosing k = m.chain j → m'.enclosing (D.scope k) = m'.chain (D.scope j) →
    (∀ a a', D.names μ a a' → D.names ν a a' ∨ (m.bindings k).get? a ≠ none) →
    Placed W m m' k μ

theorem Placed.mono {m m' m₁ m₁' : Machine} {k : ScopeId} {μ : D.Mode} (h : Placed W m m' k μ)
    (hg : W.Grows W') (henclosing : ∀ j ≤ k, m₁.enclosing j = m.enclosing j)
    (henclosing' : ∀ j ≤ k, m₁'.enclosing (D.scope j) = m'.enclosing (D.scope j))
    (houter : ∀ j ∈ D.outer, m₁'.bindings j = m'.bindings j)
    (hbound : ∀ a, (m.bindings k).get? a ≠ none → (m₁.bindings k).get? a ≠ none) :
    Placed W' m₁ m₁' k μ := by
  have hk := henclosing k (Nat.le_refl k)
  have hk' := henclosing' k (Nat.le_refl k)
  cases h with
  | first hnone hnone' hnames =>
    refine .first (hk.trans hnone) (hk'.trans hnone') fun a a' ha => ?_
    obtain ⟨hsame, hfree⟩ := hnames a a' ha
    exact ⟨hsame, fun j hj => (houter j hj).symm ▸ hfree j hj⟩
  | @inside j ν hj hν hchain hchain' hnames =>
    refine .inside hj (hg.mode hν) ?_ ?_ fun a a' ha => (hnames a a' ha).imp_right (hbound a)
    · rw [hk, hchain, Machine.chain, Machine.chain, henclosing j (Nat.le_of_lt hj)]
    · rw [hk', hchain', Machine.chain, Machine.chain, henclosing' j (Nat.le_of_lt hj)]

/-- The machine there is the one here under other names, as the world says. -/
structure World.Links (W : World D) (m m' : Machine) : Prop where
  modes : W.modes.length = m.scopes.size
  closures : W.closures.length = m.nextFunction
  nextScope : ∀ i, D.scope (m.nextScope + i) = m'.nextScope + i
  nextFunction : ∀ i, D.identity (m.nextFunction + i) = m'.nextFunction + i
  bindings : ∀ k μ, W.modes[k]? = some μ → ∀ a a', D.names μ a a' →
    Option.Rel W.Stands ((m.bindings k).get? a) ((m'.bindings (D.scope k)).get? a')
  placed : ∀ k μ, W.modes[k]? = some μ → Placed W m m' k μ

namespace World.Links

variable {m m' : Machine} {k : ScopeId} {μ : D.Mode}

theorem lt (h : W.Links m m') (hk : W.modes[k]? = some μ) : k < m.scopes.size :=
  h.modes ▸ (List.getElem?_eq_some_iff.1 hk).1

theorem scope_lt (h : W.Links m m') (hk : k < m.scopes.size) : D.scope k < m'.scopes.size := by
  by_contra hge
  have hnext := h.nextScope (D.scope k - m'.nextScope)
  rw [Machine.nextScope, Machine.nextScope, Nat.add_sub_cancel' (Nat.le_of_not_lt hge)] at hnext
  have hle : m.scopes.size ≤ k := D.scope_injective hnext ▸ Nat.le_add_right _ _
  exact absurd hk (Nat.not_lt.2 hle)

theorem mode_addScope (h : W.Links m m') (ν : D.Mode) :
    (W.addScope ν).modes[m.nextScope]? = some ν := by
  rw [addScope, Machine.nextScope, ← h.modes]
  exact List.getElem?_concat_length

theorem closure_addFunction (h : W.Links m m') (c : Closure) :
    (W.addFunction c).closures[m.nextFunction]? = some c := by
  rw [addFunction, ← h.closures]
  exact List.getElem?_concat_length

/-- Names that correspond are bound to objects that stand for each other. A name that is not bound
at all is the same on both sides. -/
theorem get? (h : W.Links m m') (hk : W.modes[k]? = some μ) {a a' : String}
    (ha : D.names μ a a') :
    Option.Rel W.Stands (m.get? k a) (m'.get? (D.scope k) a') ∧ (m.get? k a = none → a' = a) := by
  induction k using Nat.strongRecOn generalizing μ with
  | ind k ih =>
    have hhere := h.bindings k μ hk a a' ha
    cases h.placed k μ hk with
    | first henclosing henclosing' hnames =>
      obtain ⟨hsame, houter⟩ := hnames a a' ha
      have hnone : (D.outer.findSome? fun j => (m'.bindings j).get? a') = none :=
        List.findSome?_eq_none_iff.2 houter
      rw [Machine.get?_eq, Machine.get?_eq, henclosing, henclosing', hnone, Option.or_none]
      exact ⟨by simpa using hhere, fun _ => hsame⟩
    | @inside j ν hj hν henclosing henclosing' hnames =>
      have hname := hnames a a' ha
      rw [Machine.get?_inside henclosing, Machine.get?_inside henclosing']
      generalize (m.bindings k).get? a = x, (m'.bindings (D.scope k)).get? a' = x' at hhere hname
      cases hhere with
      | some hstands => exact ⟨.some hstands, nofun⟩
      | none =>
        rcases hname with hν' | hbound
        · exact ih j hj hν hν'
        · exact absurd rfl hbound

/-- Corresponding names bound to objects that stand for each other. -/
def Agree (W : World D) (μ : D.Mode) (bs bs' : Bindings) : Prop :=
  ∀ a a', D.names μ a a' → Option.Rel W.Stands (bs.get? a) (bs'.get? a')

theorem Agree.set {bs bs' : Bindings} (h : Agree W μ bs bs') {a a' : String}
    (ha : D.names μ a a') {v v' : Object} (hv : W.Stands v v') :
    Agree W μ (bs.set a v) (bs'.set a' v') := by
  intro b b' hb
  have hiff : b = a ↔ b' = a' := D.one_to_one hb ha
  rw [Bindings.get?_set, Bindings.get?_set]
  by_cases heq : b = a
  · rw [if_pos heq, if_pos (hiff.1 heq)]
    exact .some hv
  · rw [if_neg heq, if_neg fun h => heq (hiff.2 h)]
    exact h b b' hb

/-- Bindings to add on both sides. -/
abbrev Paired (W : World D) (μ : D.Mode) : List (String × Object) → List (String × Object) → Prop :=
  List.Forall₂ fun b b' => D.names μ b.1 b'.1 ∧ W.Stands b.2 b'.2

theorem Agree.setAll {new new' : List (String × Object)} (hnew : Paired W μ new new')
    {bs bs' : Bindings} (h : Agree W μ bs bs') :
    Agree W μ (bs.setAll new) (bs'.setAll new') := by
  induction hnew generalizing bs bs' with
  | nil => exact h
  | cons hb _ ih => exact ih (h.set hb.1 hb.2)

theorem set (h : W.Links m m') (hk : W.modes[k]? = some μ) {a a' : String} (ha : D.names μ a a')
    {v v' : Object} (hv : W.Stands v v') :
    W.Links (m.set k a v) (m'.set (D.scope k) a' v') where
  modes := by rw [Machine.size_set, h.modes]
  closures := h.closures
  nextScope i := by simpa [Machine.nextScope] using h.nextScope i
  nextFunction := h.nextFunction
  bindings j ν hj := by
    rw [Machine.bindings_set, Machine.bindings_set]
    by_cases hkj : k = j
    · subst hkj
      obtain rfl : μ = ν := Option.some.inj (hk.symm.trans hj)
      rw [if_pos ⟨rfl, h.lt hk⟩, if_pos ⟨rfl, h.scope_lt (h.lt hk)⟩]
      exact Agree.set (h.bindings k μ hk) ha hv
    · rw [if_neg fun hc => hkj hc.1, if_neg fun hc => hkj (D.scope_injective hc.1)]
      exact h.bindings j ν hj
  placed j ν hj := by
    refine (h.placed j ν hj).mono (.refl W) (by simp) (by simp) (fun o ho => ?_) fun b hb => ?_
    · rw [Machine.bindings_set, if_neg]
      rintro ⟨rfl, -⟩
      exact D.outer_apart k ho
    · rw [Machine.bindings_set]
      split
      · exact Bindings.bound_set hb
      · exact hb

/-- A call here and its counterpart there: the new scopes go over to the mode of the function. -/
theorem enter (h : W.Links m m') {s : ScopeId} (hs : W.modes[s]? = some μ) {ν : D.Mode}
    {ps : List Token} (hopens : D.Opens μ ν ps) {new new' : List (String × Object)}
    (hnew : Paired W ν new new') (hbound : ∀ a ∈ ps.map (·.literal), a ∈ new.map (·.1)) :
    (W.addScope ν).Links (m.entered s new) (m'.entered (D.scope s) new') := by
  have hg := W.grows_addScope ν
  have hlast : D.scope m.scopes.size = m'.scopes.size := h.nextScope 0
  have hne {k : ScopeId} (hk : k < m.scopes.size) :
      k ≠ m.scopes.size ∧ D.scope k ≠ m'.scopes.size :=
    ⟨Nat.ne_of_lt hk, Nat.ne_of_lt (h.scope_lt hk)⟩
  -- every scope is the new one or was there before
  have hcases {k : ScopeId} {κ : D.Mode} (hk : (W.modes ++ [ν])[k]? = some κ) :
      (k = m.scopes.size ∧ κ = ν) ∨ W.modes[k]? = some κ := by
    rw [List.getElem?_append, h.modes] at hk
    split at hk
    · exact .inr hk
    · rename_i hge
      obtain ⟨hlt, hκ⟩ := List.getElem?_eq_some_iff.1 hk
      rw [List.length_singleton, Nat.lt_one_iff, Nat.sub_eq_zero_iff_le] at hlt
      refine .inl ⟨Nat.le_antisymm hlt (Nat.le_of_not_lt hge), ?_⟩
      rw [← hκ, List.getElem_singleton]
  refine
    { modes := by simp [addScope, h.modes]
      closures := by rw [addScope, Machine.nextFunction_entered, h.closures]
      nextScope := fun i => ?_
      nextFunction := fun i => ?_
      bindings := fun k κ hk => ?_
      placed := fun k κ hk => ?_ }
  · have hnext := h.nextScope (i + 1)
    simp only [Machine.nextScope, Machine.size_entered] at hnext ⊢
    rw [Nat.add_assoc, Nat.add_assoc, Nat.add_comm 1 i]
    exact hnext
  · rw [Machine.nextFunction_entered, Machine.nextFunction_entered]
    exact h.nextFunction i
  · rw [Machine.bindings_entered, Machine.bindings_entered]
    rcases hcases hk with ⟨rfl, rfl⟩ | hk
    · rw [if_pos rfl, if_pos hlast]
      exact Agree.setAll (hnew.imp fun _ _ hb => ⟨hb.1, hb.2.mono hg⟩) fun _ _ _ => .none
    · rw [if_neg (hne (h.lt hk)).1, if_neg (hne (h.lt hk)).2]
      exact fun a a' ha => Stands.bound_mono hg (h.bindings k κ hk a a' ha)
  · rcases hcases hk with ⟨rfl, rfl⟩ | hk
    · refine .inside (h.lt hs) (hg.mode hs) ?_ ?_ fun a a' ha => ?_
      · rw [Machine.enclosing_entered, if_pos rfl, Machine.chain, Machine.chain,
          Machine.enclosing_entered, if_neg (hne (h.lt hs)).1]
      · rw [Machine.enclosing_entered, if_pos hlast, Machine.chain, Machine.chain,
          Machine.enclosing_entered, if_neg (hne (h.lt hs)).2]
      · refine (hopens a a' ha).imp_right fun hmem => ?_
        rw [Machine.bindings_entered, if_pos rfl]
        exact Bindings.bound_setAll (.inr (hbound a hmem))
    · have hold {j : ScopeId} (hj : j ≤ k) := hne (Nat.lt_of_le_of_lt hj (h.lt hk))
      refine (h.placed k κ hk).mono hg (fun j hj => ?_) (fun j hj => ?_) (fun o ho => ?_)
        fun a ha => ?_
      · rw [Machine.enclosing_entered, if_neg (hold hj).1]
      · rw [Machine.enclosing_entered, if_neg (hold hj).2]
      · rw [Machine.bindings_entered, if_neg]
        exact fun heq => D.outer_apart m.scopes.size (hlast ▸ heq ▸ ho)
      · rwa [Machine.bindings_entered, if_neg (hne (h.lt hk)).1]

theorem newFunction (h : W.Links m m') (c : Closure) :
    (W.addFunction c).Links { m with nextFunction := m.nextFunction + 1 }
      { m' with nextFunction := m'.nextFunction + 1 } := by
  have hg := W.grows_addFunction c
  exact {
    modes := h.modes
    closures := by simp [addFunction, h.closures]
    nextScope := h.nextScope
    nextFunction := fun i => by
      have hnext := h.nextFunction (i + 1)
      rw [Nat.add_assoc, Nat.add_assoc, Nat.add_comm 1 i]
      exact hnext
    bindings := fun k μ hk a a' ha => Stands.bound_mono hg (h.bindings k μ hk a a' ha)
    placed := fun k μ hk => (h.placed k μ hk).mono hg (fun _ _ => rfl) (fun _ _ => rfl)
      (fun _ _ => rfl) fun _ ha => ha }

theorem print (h : W.Links m m') (text text' : String) :
    W.Links (m.print text) (m'.print text') where
  modes := h.modes
  closures := h.closures
  nextScope := h.nextScope
  nextFunction := h.nextFunction
  bindings := h.bindings
  placed k μ hk := (h.placed k μ hk).mono (.refl W) (fun _ _ => rfl) (fun _ _ => rfl)
    (fun _ _ => rfl) fun _ ha => ha

end World.Links

end Treewalk
