import Treewalk.Proofs.Eval.Events
import Treewalk.Proofs.Eval.Frame
import Treewalk.Proofs.Eval.Laws
import Treewalk.Proofs.Eval.Worlds
import Treewalk.Proofs.Host.Scripts
import Treewalk.Proofs.Program.Resolved

/-!
# Names that are always found

What is bound in view of a scope stays bound there, however the run goes on. So the body of a
function finds all names that were in view where the function was made, from wherever and however
late it is called, and a program whose names are resolved never meets an unknown identifier.
-/

namespace Treewalk

namespace Machine

/-! ## What is in view -/

/-- All these names are bound in the scope or in one around it. -/
def InView (m : Machine) (s : ScopeId) (names : List String) : Prop :=
  ∀ x ∈ names, m.get? s x ≠ none

/-- Scopes stay where they are, and what is bound in them stays bound. -/
structure Retains (m m' : Machine) : Prop where
  size : m.scopes.size ≤ m'.scopes.size
  enclosing : ∀ k < m.scopes.size, m'.enclosing k = m.enclosing k
  bound : ∀ k name, (m.bindings k).get? name ≠ none → (m'.bindings k).get? name ≠ none

namespace Retains

variable {m m' m'' : Machine}

theorem of_recorded {es : List Event} (h : m.Recorded es m') : m.Retains m' :=
  ⟨h.size, h.enclosing, fun _ _ => h.bound⟩

theorem refl (m : Machine) : m.Retains m := of_recorded (recorded_refl m)

theorem of_scopes (h : m'.scopes = m.scopes) : m.Retains m' := of_recorded (recorded_of_scopes h)

theorem trans (h : m.Retains m') (h' : m'.Retains m'') : m.Retains m'' where
  size := Nat.le_trans h.size h'.size
  enclosing k hk :=
    (h'.enclosing k (Nat.lt_of_lt_of_le hk h.size)).trans (h.enclosing k hk)
  bound k name hname := h'.bound k name (h.bound k name hname)

theorem chain (h : m.Retains m') {k : ScopeId} (hk : k < m.scopes.size) :
    m'.chain k = m.chain k := by
  rw [Machine.chain, Machine.chain, h.enclosing k hk]

theorem inView (h : m.Retains m') {s : ScopeId} (hs : s < m.scopes.size) {names : List String}
    (hview : m.InView s names) : m'.InView s names := by
  intro x hx
  have hfound := hview x hx
  simp only [get?, h.chain hs, ne_eq, List.findSome?_eq_none_iff, not_forall] at hfound ⊢
  obtain ⟨k, hk, hbound⟩ := hfound
  exact ⟨k, hk, h.bound k x hbound⟩

end Retains

theorem InView.append {m : Machine} {s : ScopeId} {names others : List String}
    (h : m.InView s names) (h' : m.InView s others) : m.InView s (names ++ others) := by
  intro x hx
  rcases List.mem_append.1 hx with hx | hx
  · exact h x hx
  · exact h' x hx

theorem inView_set {m : Machine} {s : ScopeId} (hs : s < m.scopes.size) (name : String)
    (value : Object) : (m.set s name value).InView s [name] := by
  intro x hx
  obtain rfl := List.mem_singleton.1 hx
  rw [get?_set_self hs]
  exact Option.some_ne_none value

theorem inView_entered {m : Machine} {s : ScopeId} (hs : s < m.scopes.size)
    {names : List String} (h : m.InView s names) (new : List (String × Object)) :
    m.Retains (m.entered s new) ∧
      (m.entered s new).InView m.nextScope (new.map (·.1) ++ names) := by
  have hnext : m.nextScope < (m.newInside s).scopes.size := by simp [nextScope]
  have hretains : m.Retains (m.entered s new) :=
    .trans (.of_recorded (recorded_newInside m s)) (.of_recorded (recorded_setAll hnext new))
  have hinside : (m.entered s new).enclosing m.nextScope = (m.entered s new).chain s := by
    rw [enclosing_entered, nextScope, if_pos rfl, hretains.chain hs]
  refine ⟨hretains, fun x hx => ?_⟩
  rw [get?_inside hinside, ne_eq, Option.or_eq_none_iff, not_and_or]
  rcases List.mem_append.1 hx with hx | hx
  · left
    rw [bindings_entered, nextScope, if_pos rfl]
    exact Bindings.bound_setAll (.inr hx)
  · exact .inr (hretains.inView hs h x hx)

end Machine

/-! ## Functions that find their names -/

/-- The names that the body uses and does not bind itself are in view where the function was
made. -/
def Closure.Supplied (m : Machine) (c : Closure) : Prop :=
  c.scope < m.scopes.size ∧
    ∃ names, m.InView c.scope names ∧ c.body.resolved (c.parameters.map (·.literal) ++ names)

theorem Closure.Supplied.mono {m m' : Machine} {c : Closure} (h : c.Supplied m)
    (hm : m.Retains m') : c.Supplied m' := by
  obtain ⟨hscope, names, hview, hbody⟩ := h
  exact ⟨Nat.lt_of_lt_of_le hscope hm.size, names, hm.inView hscope hview, hbody⟩

/-- All functions inside find their names, and no error inside is that of an unknown one. -/
def Object.Supplied (m : Machine) (o : Object) : Prop :=
  o.Every fun x => (∀ c, x = .function c → c.Supplied m) ∧
    ∀ name, x ≠ .error (.unknownIdentifier name)

namespace Object.Supplied

variable {m m' : Machine}

theorem plain (m : Machine) : Treewalk.Plain fun x =>
    (∀ c, x = .function c → c.Supplied m) ∧ ∀ name, x ≠ .error (.unknownIdentifier name) := by
  constructor <;> simp

theorem mono {o : Object} (h : o.Supplied m) (hm : m.Retains m') : o.Supplied m' :=
  fun x hx => ⟨fun c hc => ((h x hx).1 c hc).mono hm, (h x hx).2⟩

theorem function {c : Closure} (h : c.Supplied m) : (Object.function c).Supplied m := by
  simpa [Supplied, Every, parts] using h

theorem closure {c : Closure} (h : (Object.function c).Supplied m) : c.Supplied m := h.self.1 c rfl

theorem error {e : RuntimeError} (h : ∀ name, e ≠ .unknownIdentifier name) :
    (Object.error e).Supplied m := by
  simpa [Supplied, Every, parts] using h

theorem ne_unknown {o : Object} (h : o.Supplied m) (name : String) :
    o ≠ .error (.unknownIdentifier name) := h.self.2 name

end Object.Supplied

/-- All that is bound is so supplied. -/
def Machine.Supplied (m : Machine) : Prop := ∀ k, ∀ b ∈ m.bindings k, b.2.Supplied m

namespace Machine.Supplied

variable {m : Machine}

theorem fresh : Machine.fresh.Supplied := by
  intro k b hb
  rw [Machine.fresh, Machine.bindings_newRoot] at hb
  simp [Machine.bindings, Machine.empty] at hb

theorem get? (h : m.Supplied) {s : ScopeId} {name : String} {o : Object}
    (ho : m.get? s name = some o) : o.Supplied m := by
  obtain ⟨k, -, hget⟩ := List.exists_of_findSome?_eq_some ho
  exact h k _ (Bindings.mem_of_get? hget)

theorem of_bindings (h : m.Supplied) {m' : Machine} (hm : m.Retains m')
    (hb : ∀ k, ∀ b ∈ m'.bindings k, b ∈ m.bindings k ∨ b.2.Supplied m) : m'.Supplied := by
  intro k b hmem
  rcases hb k b hmem with hold | hnew
  · exact (h k b hold).mono hm
  · exact hnew.mono hm

theorem of_scopes (h : m.Supplied) {m' : Machine} (hm : m'.scopes = m.scopes) : m'.Supplied :=
  h.of_bindings (.of_scopes hm) fun k b hb => .inl (by simpa [Machine.bindings, hm] using hb)

theorem set (h : m.Supplied) {s : ScopeId} (hs : s < m.scopes.size) (name : String)
    {value : Object} (hv : value.Supplied m) : (m.set s name value).Supplied := by
  refine h.of_bindings (.of_recorded (recorded_set hs name value)) fun k b hb => ?_
  rw [bindings_set] at hb
  split at hb
  · rcases Bindings.mem_set hb with rfl | hb
    · exact .inr hv
    · exact .inl hb
  · exact .inl hb

end Machine.Supplied

theorem Bindings.mem_setAll {new : List (String × Object)} {bs : Bindings} {b : String × Object}
    (h : b ∈ setAll new bs) : b ∈ new ∨ b ∈ bs := by
  induction new generalizing bs with
  | nil => exact .inr h
  | cons c new ih =>
    rcases ih h with h | h
    · exact .inl (List.mem_cons_of_mem _ h)
    · rcases mem_set h with rfl | h
      · exact .inl List.mem_cons_self
      · exact .inr h

theorem Machine.Supplied.entered {m : Machine} (h : m.Supplied) {s : ScopeId}
    {new : List (String × Object)} (hm : m.Retains (m.entered s new))
    (hnew : ∀ b ∈ new, b.2.Supplied m) : (m.entered s new).Supplied := by
  refine h.of_bindings hm fun k b hb => ?_
  rw [bindings_entered] at hb
  split at hb
  · rcases Bindings.mem_setAll hb with hb | hb
    · exact .inr (hnew b hb)
    · cases hb
  · exact .inl hb

/-! ## Evaluation -/

/-- The law of supplied machines, which go on to supply what they supply. -/
abbrev Law.supplied : Law where
  lawful := Machine.Supplied
  leads := Machine.Retains
  vouches m x := (∀ c, x = .function c → c.Supplied m) ∧
    ∀ name, x ≠ .error (.unknownIdentifier name)
  refl := .refl
  trans := .trans
  mono hm h := ⟨fun c hc => (h.1 c hc).mono hm, h.2⟩
  plain := Object.Supplied.plain
  error _ e he := ⟨by simp, fun name h => he.ne_unknown name (Object.error.inj h)⟩

namespace Eval

open Machine Law

/-- From a supplied machine to a supplied one that retains it, with a value as `P` says and without
errors of unknown identifiers. -/
abbrev Provides {α : Type} (m : Machine) (P : Machine → α → Prop) (x : Eval α) : Prop :=
  supplied.Keeps m P x

/-- The law of runs that give an object. -/
abbrev Supplies (m : Machine) (x : Eval Object) : Prop := Provides m (fun m' o => o.Supplied m') x

variable {m : Machine}

theorem supplies_named {s : ScopeId} {view : List String} (hview : m.InView s view)
    {name : Token} (h : (Expr.identifier name).resolved view) :
    Supplies m (named s name.literal) := by
  refine gives_bound (fun (hm : m.Supplied) _ => hm.get?) fun hnone hbuiltin => ?_
  -- The name is in view, or there is a built-in function of that name.
  rw [Expr.resolved, hbuiltin, Option.isSome_none, Bool.or_false] at h
  exact absurd hnone (hview _ (List.contains_iff_mem.1 h))

theorem provides_bind {s : ScopeId} (hs : s < m.scopes.size) (name : String) {value : Object}
    (hv : value.Supplied m) : Provides m (fun m' _ => m'.InView s [name]) (bind s name value) := by
  have hretains : m.Retains (m.set s name value) := .of_recorded (recorded_set hs name value)
  exact .modify hretains (fun (hm : m.Supplied) => hm.set hs name hv) (inView_set hs name value)

theorem supplies_closure {s : ScopeId} (hs : s < m.scopes.size) {view : List String}
    (hview : m.InView s view) {parameters : List Token} {body : Block}
    (h : body.resolved (parameters.map (·.literal) ++ view)) :
    Supplies m (closure s parameters body) := by
  intro hm r m' hr
  cases hr
  exact ⟨.of_scopes rfl, hm.of_scopes rfl, .function ⟨hs, view, hview, h⟩⟩

theorem provides_enter {c : Closure} (hc : c.Supplied m) {arguments : List Object}
    (hlength : arguments.length = c.parameters.length) (ha : ∀ x ∈ arguments, x.Supplied m) :
    Provides m (fun m' s => s < m'.scopes.size ∧
      ∃ view, m'.InView s view ∧ c.body.resolved view) (enter c arguments) := by
  intro hm r m' hr
  cases hr
  obtain ⟨hscope, names, hview, hbody⟩ := hc
  have hparameters : ((c.parameters.map (·.literal)).zip arguments).map (·.1) =
      c.parameters.map (·.literal) := List.map_fst_zip (by simp [hlength])
  obtain ⟨hretains, hinView⟩ :=
    inView_entered hscope hview ((c.parameters.map (·.literal)).zip arguments)
  rw [hparameters] at hinView
  refine ⟨hretains, hm.entered hretains fun b hb => ha b.2 (List.of_mem_zip hb).2, ?_, _,
    hinView, hbody⟩
  have hsize := size_entered m c.scope ((c.parameters.map (·.literal)).zip arguments)
  exact hsize ▸ Nat.lt_succ_self _

theorem provides_print (text : String) : Provides m (fun _ _ => True) (print text) := by
  have hsame : (m.print text).scopes = m.scopes := rfl
  have hretains : m.Retains (m.print text) := .of_scopes hsame
  exact .modify hretains (fun (hm : m.Supplied) => hm.of_scopes hsame) trivial

structure Supplying (n : Nat) : Prop where
  expression : ∀ (m : Machine) (view : List String), ∀ s < m.scopes.size, m.InView s view →
    ∀ e, e.resolved view → Supplies m (expression n s e)
  statement : ∀ (m : Machine) (view : List String), ∀ s < m.scopes.size, m.InView s view →
    ∀ st, st.resolved view →
      Provides m (fun m' o => o.Supplied m' ∧ m'.InView s st.declared) (statement n s st)
  apply : ∀ (m : Machine) (f : Object) (arguments : List Object), f.Supplied m →
    (∀ x ∈ arguments, x.Supplied m) → Supplies m (apply n f arguments)

theorem Supplying.sequence {n : Nat} (ih : Supplying n) {s : ScopeId} (hs : s < m.scopes.size)
    {view : List String} (hview : m.InView s view) {ss : List Statement}
    (h : resolvedStatements view ss) :
    Supplies m (sequence (Eval.statement n s) .null ss) := by
  refine gives_sequence (I := fun m' ss' => s < m'.scopes.size ∧
    ∃ view, m'.InView s view ∧ resolvedStatements view ss') ?_ ⟨hs, view, hview, h⟩
    (Object.Supplied.plain m).every_null
  rintro m' st ss' ⟨hs', view', hview', h'⟩
  rw [resolvedStatements, Bool.and_eq_true] at h'
  obtain ⟨hst, hrest⟩ := h'
  refine (ih.statement m' view' s hs' hview' st hst).mono fun m'' o hm ho => ?_
  refine ⟨ho.1, ?_, _, ?_, hrest⟩
  · exact Nat.lt_of_lt_of_le hs' hm.size
  · exact ho.2.append (hm.inView hs' hview')

section Cases

variable {n : Nat} (ih : Supplying n) {view : List String} {s : ScopeId}
  (hs : s < m.scopes.size) (hview : m.InView s view)

include ih hs hview

theorem supplying_expression (e : Expr) (h : e.resolved view) :
    Supplies m (expression (n + 1) s e) := by
  have plain := Object.Supplied.plain
  -- parts run later in the same scope, where at least the same names are in view
  have part (m' : Machine) (hm : m.Retains m') (x : Expr) (hx : x.resolved view) :=
    ih.expression m' view s (Nat.lt_of_lt_of_le hs hm.size) (hm.inView hs hview) x hx
  have branch (m' : Machine) (hm : m.Retains m') (b : Block) (hb : b.resolved view) :=
    ih.sequence (Nat.lt_of_lt_of_le hs hm.size) (hm.inView hs hview) (b.resolved_eq view ▸ hb)
  have here := Retains.refl m
  cases e with
  | identifier name => exact supplies_named hview h
  | integer token value => exact .pure ((plain m).every_integer _)
  | boolean token value => exact .pure ((plain m).every_boolean _)
  | string token => exact .pure ((plain m).every_string _)
  | prefixed token op operand =>
    rw [Expr.resolved] at h
    rw [expression]
    exact .bind (part m here operand h) fun m₁ o _ _ => gives_prefix op o
  | binary token op left right =>
    rw [Expr.resolved, Bool.and_eq_true] at h
    rw [expression]
    refine .bind (part m here left h.1) fun m₁ l hm₁ _ => ?_
    exact .bind (part m₁ hm₁ right h.2) fun m₂ r _ _ => gives_infix op l r
  | conditional token condition consequence alternative =>
    rw [Expr.resolved, Bool.and_eq_true, Bool.and_eq_true] at h
    obtain ⟨⟨hcondition, hconsequence⟩, halternative⟩ := h
    unfold expression
    refine .bind (part m here condition hcondition) fun m₁ o hm₁ _ => ?_
    split
    · exact branch m₁ hm₁ _ hconsequence
    · cases alternative with
      | none => exact .pure (plain m₁).every_null
      | some block => exact branch m₁ hm₁ block (by simpa only [resolvedElse] using halternative)
  | function token parameters body =>
    rw [Expr.resolved] at h
    exact supplies_closure hs hview h
  | call token callee arguments =>
    rw [Expr.resolved, Bool.and_eq_true, resolvedAll_iff] at h
    rw [expression]
    refine .bind (part m here callee h.1) fun m₁ f hm₁ hf => ?_
    refine .bind (keeps_all arguments fun m' hm' x hx =>
      part m' (hm₁.trans hm') x (h.2 x hx)) fun m₂ xs hm₂ hxs => ?_
    exact .bind (ih.apply m₂ f xs (hf.mono hm₂) hxs) fun m₃ o _ ho => gives_settle ho
  | array token elements =>
    rw [Expr.resolved, resolvedAll_iff] at h
    rw [expression]
    refine .bind (keeps_all elements fun m' hm' x hx => part m' hm' x (h x hx)) ?_
    exact fun m₁ xs _ hxs => .pure ((plain m₁).every_array hxs)
  | hash token ps =>
    rw [Expr.resolved, resolvedPairs_iff] at h
    rw [expression]
    refine .bind (keeps_pairs ps (fun m' hm' p hp => ?_) .nil) ?_
    · exact ⟨part m' hm' p.1 (h p hp).1, part m' hm' p.2 (h p hp).2⟩
    · exact fun m₁ es _ hes => .pure (hes.every_hash (plain m₁))
  | index token base position =>
    rw [Expr.resolved, Bool.and_eq_true] at h
    rw [expression]
    refine .bind (part m here base h.1) fun m₁ b hm₁ hb => ?_
    exact .bind (part m₁ hm₁ position h.2) fun m₂ i hm₂ _ => gives_index (hb.mono hm₂)

theorem supplying_statement (st : Statement) (h : st.resolved view) :
    Provides m (fun m' o => o.Supplied m' ∧ m'.InView s st.declared)
      (statement (n + 1) s st) := by
  cases st with
  | binding token name value =>
    rw [Statement.resolved] at h
    rw [statement]
    refine .bind (ih.expression m view s hs hview value h) fun m₁ o hm₁ ho => ?_
    refine .bind (provides_bind (Nat.lt_of_lt_of_le hs hm₁.size) name.literal ho) ?_
    exact fun m₂ _ _ hname => .pure ⟨(Object.Supplied.plain m₂).every_null, hname⟩
  | returning token value =>
    cases value with
    | none => exact .exit (Object.Supplied.plain m).every_null
    | some value =>
      rw [Statement.resolved, resolvedValue] at h
      rw [statement]
      exact .bind (ih.expression m view s hs hview value h) fun m₁ o _ ho => .exit ho
  | expression token value =>
    rw [Statement.resolved] at h
    refine (ih.expression m view s hs hview value h).mono fun m' o _ ho => ⟨ho, fun x hx => ?_⟩
    exact absurd hx List.not_mem_nil

end Cases

theorem supplying_apply {n : Nat} (ih : Supplying n) (f : Object) (arguments : List Object)
    (hf : f.Supplied m) (ha : ∀ x ∈ arguments, x.Supplied m) :
    Supplies m (apply (n + 1) f arguments) := by
  cases f with
  | function c =>
    rw [Eval.apply]
    split
    · rename_i hlength
      refine .bind (provides_enter hf.closure hlength ha) fun m₁ s _ hs => ?_
      obtain ⟨hs, view, hview, hbody⟩ := hs
      exact gives_concluded (ih.sequence hs hview (c.body.resolved_eq view ▸ hbody))
    · exact .pure (.error (by simp))
  | builtin b =>
    rw [Eval.apply]
    refine .bind (provides_print _) fun m₁ _ hm₁ _ => gives_result fun x hx => ?_
    exact (ha x hx).mono hm₁
  | _ => exact .pure (.error (by simp))

theorem supplying (n : Nat) : Supplying n := by
  induction n with
  | zero =>
    exact ⟨fun _ _ _ _ _ _ _ => .exhausted, fun _ _ _ _ _ _ _ => .exhausted,
      fun _ _ _ _ _ => .exhausted⟩
  | succ n ih =>
    exact ⟨fun _ _ _ hs hview => supplying_expression ih hs hview,
      fun _ _ _ hs hview => supplying_statement ih hs hview, fun _ => supplying_apply ih⟩

theorem program_supplied {p : Program} (h : p.resolved) {n : Nat} {o : Object} {m' : Machine}
    (hs : root < m.scopes.size) (hm : m.Supplied) (ho : program n root p m = some (o, m')) :
    m.Retains m' ∧ m'.Supplied ∧ o.Supplied m' :=
  outcome_lawful ((supplying n).sequence hs (fun _ hx => absurd hx List.not_mem_nil) h) hm ho

end Eval

/-- No run of a program whose names are resolved ends with an unknown identifier, however late and
from wherever its functions are called; nor does such a text. -/
theorem resolved_names_found {p : Program} (h : p.resolved) :
    (∀ n o m, Eval.program n Machine.root p .fresh = some (o, m) →
      ∀ name, o ≠ .error (.unknownIdentifier name)) ∧
    ∀ source, (parse source).errors = [] → (parse source).program = p →
      ∀ n r m, interpret n Machine.root source .fresh = some (r, m) →
        ∀ name, r ≠ .error (.runtime (.unknownIdentifier name)) := by
  have hfound : ∀ n o m, Eval.program n Machine.root p .fresh = some (o, m) →
      ∀ name, o ≠ .error (.unknownIdentifier name) := by
    intro n o m ho
    have hroot : Machine.root < Machine.fresh.scopes.size := by decide
    exact (Eval.program_supplied h hroot .fresh ho).2.2.ne_unknown
  refine ⟨hfound, ?_⟩
  rintro source hsource rfl n r m hr name rfl
  rw [interpret_of_errors_nil hsource] at hr
  obtain ⟨⟨o, m'⟩, ho, heq⟩ := Option.map_eq_some_iff.1 hr
  cases o with
  | error e =>
    cases heq
    exact hfound n _ m ho name rfl
  | _ => cases heq

theorem resolved_names_found_escaping :
    let source :=
      "let f = fn(x) \x7b let y = x; fn(z) \x7b if (z < y) \x7b return y \x7d; z \x7d \x7d; " ++
        "let g = f(3); g(1) + g(7)"
    (parse source).errors = [] ∧ (parse source).program.resolved ∧
      (interpret 12 Machine.root source .fresh).map (·.1) = some (.ok (.integer 10)) ∧
      ∀ n r m, interpret n Machine.root source .fresh = some (r, m) →
        ∀ name, r ≠ .error (.runtime (.unknownIdentifier name)) := by
  intro source
  have herrors : (parse source).errors = [] := by decide +kernel
  have hresolved : (parse source).program.resolved := by decide +kernel
  exact ⟨herrors, hresolved, by decide +kernel,
    (resolved_names_found hresolved).2 source herrors rfl⟩

end Treewalk
