import Treewalk.Proofs.Eval.Laws

/-!
# Scopes that there are

On a well scoped machine every function stands in a scope that there is, and every scope inside
earlier ones. Evaluation leaves such a machine well scoped, and gives only functions that it knows.
-/

namespace Treewalk

namespace Machine

/-- The scope and the identity of the function are in use. -/
def Knows (m : Machine) (c : Closure) : Prop :=
  c.scope < m.scopes.size ∧ c.identity < m.nextFunction

/-- Scopes and functions only come in addition. -/
structure Grows (m m' : Machine) : Prop where
  size : m.scopes.size ≤ m'.scopes.size
  functions : m.nextFunction ≤ m'.nextFunction

theorem Grows.refl (m : Machine) : m.Grows m := ⟨Nat.le_refl _, Nat.le_refl _⟩

theorem Grows.trans {m m' m'' : Machine} (h : m.Grows m') (h' : m'.Grows m'') : m.Grows m'' :=
  ⟨Nat.le_trans h.size h'.size, Nat.le_trans h.functions h'.functions⟩

theorem Knows.mono {m m' : Machine} {c : Closure} (h : m.Knows c) (hg : m.Grows m') : m'.Knows c :=
  ⟨Nat.lt_of_lt_of_le h.1 hg.size, Nat.lt_of_lt_of_le h.2 hg.functions⟩

end Machine

/-- All functions inside the object are known to the machine. -/
def Object.KnownTo (m : Machine) (o : Object) : Prop :=
  o.Every fun x => ∀ c, x = .function c → m.Knows c

namespace Object.KnownTo

variable {m m' : Machine}

theorem plain (m : Machine) : Plain fun x => ∀ c, x = .function c → m.Knows c := by
  constructor <;> simp

theorem mono {o : Object} (h : o.KnownTo m) (hg : m.Grows m') : o.KnownTo m' :=
  fun x hx c hc => (h x hx c hc).mono hg

theorem function {c : Closure} (h : m.Knows c) : (Object.function c).KnownTo m := by
  simpa [KnownTo, Every, parts] using h

theorem knows {c : Closure} (h : (Object.function c).KnownTo m) : m.Knows c := h.self c rfl

theorem of_mem {o : Object} (h : o.KnownTo m) {c : Closure} (hc : .function c ∈ o.parts) :
    m.Knows c := h _ hc c rfl

theorem error (e : RuntimeError) : (Object.error e).KnownTo m := by
  simp [KnownTo, Every, parts]

end Object.KnownTo

/-! ## Machines -/

namespace Machine

/-- What is bound is known, and each scope stands alone or inside an earlier one. -/
structure WellScoped (m : Machine) : Prop where
  bindings : ∀ k, ∀ b ∈ m.bindings k, b.2.KnownTo m
  enclosing : ∀ k < m.scopes.size, m.enclosing k = [] ∨ ∃ j < k, m.enclosing k = m.chain j

namespace WellScoped

variable {m : Machine}

theorem empty : Machine.empty.WellScoped where
  bindings k b hb := by simp [Machine.bindings, Machine.empty] at hb
  enclosing k hk := by simp [Machine.empty] at hk

theorem enclosing_lt (h : m.WellScoped) {k : ScopeId} (hk : k < m.scopes.size) :
    ∀ j ∈ m.enclosing k, j < k := by
  induction k using Nat.strongRecOn with
  | ind k ih =>
    intro i hi
    rcases h.enclosing k hk with hnone | ⟨j, hj, hchain⟩
    · simp [hnone] at hi
    · rw [hchain] at hi
      rcases List.mem_cons.1 hi with rfl | hi
      · exact hj
      · exact Nat.lt_trans (ih j hj (Nat.lt_trans hj hk) i hi) hj

theorem get? (h : m.WellScoped) {s : ScopeId} {name : String} {o : Object}
    (ho : m.get? s name = some o) : o.KnownTo m := by
  obtain ⟨k, -, hget⟩ := List.exists_of_findSome?_eq_some ho
  exact h.bindings k _ (Bindings.mem_of_get? hget)

theorem set (h : m.WellScoped) (s : ScopeId) (name : String) {value : Object}
    (hv : value.KnownTo m) : (m.set s name value).WellScoped where
  bindings k b hb := by
    have hg : m.Grows (m.set s name value) := ⟨by simp, Nat.le_refl _⟩
    rw [bindings_set] at hb
    split at hb
    · rcases Bindings.mem_set hb with rfl | hb
      · exact hv.mono hg
      · exact (h.bindings k b hb).mono hg
    · exact (h.bindings k b hb).mono hg
  enclosing k hk := by
    simpa [Machine.chain] using h.enclosing k (by simpa using hk)

theorem setAll (h : m.WellScoped) (s : ScopeId) {bs : List (String × Object)}
    (hb : ∀ b ∈ bs, b.2.KnownTo m) :
    (m.setAll s bs).WellScoped ∧ m.Grows (m.setAll s bs) := by
  induction bs generalizing m with
  | nil => exact ⟨h, .refl m⟩
  | cons b bs ih =>
    have hg : m.Grows (m.set s b.1 b.2) := ⟨by simp, Nat.le_refl _⟩
    have hset := h.set s b.1 (hb b List.mem_cons_self)
    obtain ⟨hall, hg'⟩ := ih hset fun c hc => (hb c (List.mem_cons_of_mem _ hc)).mono hg
    exact ⟨hall, hg.trans hg'⟩

theorem newRoot (h : m.WellScoped) : m.newRoot.WellScoped where
  bindings k b hb := by
    have hg : m.Grows m.newRoot := ⟨by simp, Nat.le_refl _⟩
    exact (h.bindings k b (by simpa using hb)).mono hg
  enclosing k hk := by
    by_cases hlast : k = m.scopes.size
    · left
      rw [enclosing_newRoot, hlast]
      simp [Machine.enclosing]
    · rw [size_newRoot] at hk
      have hk' : k < m.scopes.size := Nat.lt_of_le_of_ne (Nat.le_of_lt_succ hk) hlast
      simpa [Machine.chain] using h.enclosing k hk'

theorem newInside (h : m.WellScoped) {s : ScopeId} (hs : s < m.scopes.size) :
    (m.newInside s).WellScoped where
  bindings k b hb := by
    have hg : m.Grows (m.newInside s) := ⟨by simp, Nat.le_refl _⟩
    exact (h.bindings k b (by simpa using hb)).mono hg
  enclosing k hk := by
    have hchain : ∀ j < m.scopes.size, (m.newInside s).chain j = m.chain j := by
      intro j hj
      rw [Machine.chain, Machine.chain, enclosing_newInside, if_neg (Nat.ne_of_lt hj)]
    rw [enclosing_newInside]
    split
    · rename_i hlast
      exact .inr ⟨s, hlast ▸ hs, (hchain s hs).symm⟩
    · rename_i hne
      rw [size_newInside] at hk
      have hk' : k < m.scopes.size := Nat.lt_of_le_of_ne (Nat.le_of_lt_succ hk) hne
      refine (h.enclosing k hk').imp_right ?_
      rintro ⟨j, hj, hchain'⟩
      exact ⟨j, hj, hchain'.trans (hchain j (Nat.lt_trans hj hk')).symm⟩

theorem of_scopes (h : m.WellScoped) {m' : Machine} (hm : m'.scopes = m.scopes)
    (hg : m.Grows m') : m'.WellScoped where
  bindings k b hb := by
    refine (h.bindings k b ?_).mono hg
    simpa [Machine.bindings, hm] using hb
  enclosing k hk := by
    have henclosing : ∀ j, m'.enclosing j = m.enclosing j := by simp [Machine.enclosing, hm]
    simpa [Machine.chain, henclosing] using h.enclosing k (hm ▸ hk)

end WellScoped

end Machine

/-! ## Evaluation -/

/-- The law of well scoped machines, which know the functions that they meet. -/
abbrev Law.scoped : Law where
  lawful := Machine.WellScoped
  leads := Machine.Grows
  vouches m x := ∀ c, x = .function c → m.Knows c
  refl := .refl
  trans := .trans
  mono hg h c hc := (h c hc).mono hg
  plain := Object.KnownTo.plain
  error _ _ _ _ hc := by cases hc

namespace Eval

open Machine Law

/-- From a well scoped machine to a well scoped one that has grown, with a value as `P` says. -/
abbrev Scoped {α : Type} (m : Machine) (P : Machine → α → Prop) (x : Eval α) : Prop :=
  scoped.Keeps m P x

/-- The law of runs that give an object. -/
abbrev Gives (m : Machine) (x : Eval Object) : Prop := Scoped m (fun m' o => o.KnownTo m') x

variable {m : Machine}

theorem gives_named (s : ScopeId) (name : String) : Gives m (named s name) :=
  gives_bound (fun (hm : m.WellScoped) _ => hm.get?) fun _ _ => Object.KnownTo.error _

theorem scoped_bind {s : ScopeId} {name : String} {value : Object} (hv : value.KnownTo m) :
    Scoped m (fun _ _ => True) (bind s name value) := by
  have hg : m.Grows (m.set s name value) := ⟨by simp, Nat.le_refl _⟩
  exact .modify hg (fun (hm : m.WellScoped) => hm.set s name hv) trivial

theorem gives_closure {s : ScopeId} (hs : s < m.scopes.size) (parameters : List Token)
    (body : Block) : Gives m (closure s parameters body) := by
  intro hm r m' hr
  cases hr
  have hg : m.Grows { m with nextFunction := m.nextFunction + 1 } := ⟨Nat.le_refl _, Nat.le_succ _⟩
  exact ⟨hg, hm.of_scopes rfl hg, .function ⟨hs, Nat.lt_succ_self _⟩⟩

theorem scoped_enter {c : Closure} (hc : c.scope < m.scopes.size) {arguments : List Object}
    (ha : ∀ x ∈ arguments, x.KnownTo m) :
    Scoped m (fun m' s => s < m'.scopes.size) (enter c arguments) := by
  intro hm r m' hr
  cases hr
  have hg : m.Grows (m.newInside c.scope) := ⟨by simp, Nat.le_refl _⟩
  have hknown : ∀ b ∈ (c.parameters.map (·.literal)).zip arguments,
      b.2.KnownTo (m.newInside c.scope) := fun b hb => (ha b.2 (List.of_mem_zip hb).2).mono hg
  obtain ⟨hset, hg'⟩ := (hm.newInside hc).setAll m.nextScope hknown
  refine ⟨hg.trans hg', hset, ?_⟩
  have hsize := hg'.size
  rw [size_newInside] at hsize
  exact hsize

theorem scoped_print (text : String) : Scoped m (fun _ _ => True) (print text) := by
  have hg : m.Grows (m.print text) := ⟨Nat.le_refl _, Nat.le_refl _⟩
  have hsame : (m.print text).scopes = m.scopes := rfl
  exact .modify hg (fun (hm : m.WellScoped) => hm.of_scopes hsame hg) trivial

theorem scoped_upheld : scoped.Upheld fun m s => s < m.scopes.size where
  stays hg hs := Nat.lt_of_lt_of_le hs hg.size
  named _ name := gives_named _ name
  bind _ _ _ hv := scoped_bind hv
  closure hs parameters body := gives_closure hs parameters body
  enter hf ha := scoped_enter (Object.KnownTo.knows hf).1 ha
  print _ text := scoped_print text

theorem program_wellScoped (hm : m.WellScoped) {n : Nat} {s : ScopeId} (hs : s < m.scopes.size)
    {p : Program} {o : Object} {m' : Machine} (h : program n s p m = some (o, m')) :
    m.Grows m' ∧ m'.WellScoped ∧ o.KnownTo m' :=
  outcome_lawful ((giving scoped_upheld n).sequence scoped_upheld hs p) hm h

theorem call_wellScoped (hm : m.WellScoped) {n : Nat} {f : Object} {arguments : List Object}
    (hf : f.KnownTo m) (ha : ∀ x ∈ arguments, x.KnownTo m) {o : Object} {m' : Machine}
    (h : call n f arguments m = some (o, m')) : m.Grows m' ∧ m'.WellScoped ∧ o.KnownTo m' :=
  outcome_lawful ((giving scoped_upheld n).apply m f arguments hf ha) hm h

end Eval

end Treewalk
