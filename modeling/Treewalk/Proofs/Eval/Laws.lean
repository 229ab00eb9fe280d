import Treewalk.Proofs.Eval.Invariants

/-!
# Laws of machines that only move on

Lawful machines, the ways they may move on, and a property of objects that a machine has to vouch
for: what a machine vouches for, those that come after it do too. All such laws have the same rules,
and a law of names, bindings, new functions, calls and printing is one of all evaluation.
-/

namespace Treewalk

/-- What operators, calls and built-in functions report: no unknown identifier, and the counts of
arguments that built-in functions take. -/
def RuntimeError.Operational : RuntimeError → Prop
  | unknownIdentifier _ => False
  | builtinArity builtin want => builtin.arity = .exactly want
  | _ => True

theorem RuntimeError.Operational.ne_unknown {e : RuntimeError} (h : e.Operational) (name : String) :
    e ≠ .unknownIdentifier name := by
  rintro rfl
  exact h

structure Law where
  lawful : Machine → Prop
  leads : Machine → Machine → Prop
  vouches : Machine → Object → Prop
  refl : ∀ m, leads m m
  trans : ∀ {m m' m''}, leads m m' → leads m' m'' → leads m m''
  mono : ∀ {m m' o}, leads m m' → vouches m o → vouches m' o
  plain : ∀ m, Plain (vouches m)
  /-- Errors hold no functions. An unknown identifier only comes from looking a name up. -/
  error : ∀ m e, e.Operational → vouches m (.error e)

/-! ## Errors of operators and built-in functions -/

theorem prefix_operational {op : PrefixOp} {o : Object} {e : RuntimeError}
    (h : op.apply o = .error e) : e.Operational := by
  unfold PrefixOp.apply at h
  split at h <;> cases h
  trivial

theorem infix_operational {op : InfixOp} {l r : Object} {e : RuntimeError}
    (h : op.apply l r = .error e) : e.Operational := by
  unfold InfixOp.apply at h
  split at h
  · unfold InfixOp.onIntegers at h
    repeat' split at h
    all_goals cases h
    trivial
  · unfold InfixOp.onStrings at h
    split at h <;> cases h
    trivial
  · unfold InfixOp.onOthers at h
    repeat' split at h
    all_goals cases h
    all_goals trivial

theorem index_operational {b i : Object} {e : RuntimeError} (h : b.index i = .error e) :
    e.Operational := by
  unfold Object.index at h
  repeat' split at h
  all_goals cases h
  all_goals trivial

theorem elements_operational {b : Builtin} {o : Object} {f : List Object → Object}
    {e : RuntimeError} (h : (b.elements o).map f = .error e) : e.Operational := by
  unfold Builtin.elements at h
  split at h <;> cases h
  trivial

theorem builtin_operational {b : Builtin} {arguments : List Object} {e : RuntimeError}
    (h : b.result arguments = .error e) : e.Operational := by
  unfold Builtin.result at h
  split at h
  · unfold Builtin.length at h
    split at h <;> cases h
    trivial
  · exact elements_operational h
  · exact elements_operational h
  · exact elements_operational h
  · exact elements_operational h
  · cases h
  · split at h
    · rename_i n harity
      cases h
      exact harity
    · cases h

namespace Law

open Run Eval

variable (law : Law)

/-- The machine vouches for all objects inside. -/
abbrev Good (m : Machine) (o : Object) : Prop := o.Every (law.vouches m)

/-- From a lawful machine to a lawful one that it leads to, with a value as `P` says. -/
def Keeps {α : Type} (m : Machine) (P : Machine → α → Prop) (x : Eval α) : Prop :=
  law.lawful m → x.Meets m fun r m' => law.leads m m' ∧ law.lawful m' ∧ match r with
    | .ok a => P m' a
    | .error s => law.Good m' s.taken

/-- The law of runs that give an object. -/
abbrev Gives (m : Machine) (x : Eval Object) : Prop := law.Keeps m law.Good x

variable {law}
variable {α β : Type} {m m' : Machine} {P : Machine → α → Prop} {Q : Machine → β → Prop}

theorem Good.mono {o : Object} (h : law.Good m o) (hm : law.leads m m') : law.Good m' o :=
  fun x hx => law.mono hm (h x hx)

theorem good_error {e : RuntimeError} (h : e.Operational) : law.Good m (.error e) := by
  simpa [Object.Every, Object.parts] using law.error m e h

/-! ## Steps -/

namespace Keeps

theorem pure {a : α} (h : P m a) : law.Keeps m P (Pure.pure a) := by
  intro hm r m' hr
  cases hr
  exact ⟨law.refl m, hm, h⟩

theorem exit {s : Signal} (h : law.Good m s.taken) : law.Keeps m P (Run.exit s) := by
  intro hm r m' hr
  cases hr
  exact ⟨law.refl m, hm, h⟩

theorem exhausted : law.Keeps m P Run.exhausted := by
  intro _ r m' hr
  cases hr

theorem get_bind {f : Machine → Eval β} (h : law.Keeps m Q (f m)) :
    law.Keeps m Q (Run.get >>= f) := h

theorem modify {f : Machine → Machine} (hf : law.leads m (f m))
    (h : law.lawful m → law.lawful (f m)) {P : Machine → Unit → Prop} (hP : P (f m) ()) :
    law.Keeps m P (Run.modify f) := by
  intro hm r m' hr
  cases hr
  exact ⟨hf, h hm, hP⟩

theorem bind {x : Eval α} {f : α → Eval β} (hx : law.Keeps m P x)
    (hf : ∀ m' a, law.leads m m' → P m' a → law.Keeps m' Q (f a)) : law.Keeps m Q (x >>= f) := by
  intro hm r m' hr
  rcases bind_ends hr with ⟨s, hs, rfl⟩ | ⟨a, m₁, ha, hfa⟩
  · exact hx hm _ _ hs
  · obtain ⟨hm₁, hlawful, hP⟩ := hx hm _ _ ha
    obtain ⟨hm', hlawful', hQ⟩ := hf m₁ a hm₁ hP hlawful r m' hfa
    exact ⟨law.trans hm₁ hm', hlawful', hQ⟩

theorem mono {x : Eval α} {P' : Machine → α → Prop} (h : law.Keeps m P x)
    (hP : ∀ m' a, law.leads m m' → P m' a → P' m' a) : law.Keeps m P' x := by
  intro hm r m' hr
  obtain ⟨hm', hlawful, hr'⟩ := h hm r m' hr
  refine ⟨hm', hlawful, ?_⟩
  cases r with
  | ok a => exact hP m' a hm' hr'
  | error s => exact hr'

end Keeps

/-! ## Operators and built-in functions -/

theorem gives_settle {o : Object} (h : law.Good m o) : law.Gives m (settle o) := by
  cases o with
  | error e => exact .exit h
  | returning v => exact .exit (Object.every_returning.1 h).2
  | _ => exact .pure h

theorem gives_settleExcept {x : Except RuntimeError Object} (ho : ∀ o, x = .ok o → law.Good m o)
    (he : ∀ e, x = .error e → e.Operational) : law.Gives m (settleExcept x) := by
  cases x with
  | ok o => exact gives_settle (ho o rfl)
  | error e => exact .exit (good_error (he e rfl))

theorem gives_prefix (op : PrefixOp) (o : Object) : law.Gives m (settleExcept (op.apply o)) :=
  gives_settleExcept (fun _ => every_prefix (law.plain m)) fun _ => prefix_operational

theorem gives_infix (op : InfixOp) (l r : Object) : law.Gives m (settleExcept (op.apply l r)) :=
  gives_settleExcept (fun _ => every_infix (law.plain m)) fun _ => infix_operational

theorem gives_index {b i : Object} (hb : law.Good m b) : law.Gives m (settleExcept (b.index i)) :=
  gives_settleExcept (fun _ => every_index (law.plain m) hb) fun _ => index_operational

theorem gives_result {b : Builtin} {arguments : List Object} (h : ∀ x ∈ arguments, law.Good m x) :
    law.Gives m (Pure.pure (.ofExcept (b.result arguments))) := by
  refine .pure ?_
  cases hr : b.result arguments with
  | ok o => exact every_result (law.plain m) h hr
  | error e => exact good_error (builtin_operational hr)

theorem gives_bound {s : ScopeId} {name : String}
    (hbound : law.lawful m → ∀ o, m.get? s name = some o → law.Good m o)
    (hunknown : m.get? s name = none → Builtin.named? name = none →
      law.Good m (.error (.unknownIdentifier name))) : law.Gives m (named s name) := by
  intro hm
  have hnamed : law.Gives m (named s name) := by
    refine .get_bind ?_
    split
    · exact gives_settle (hbound hm _ (by assumption))
    · split
      · exact .pure ((law.plain m).every_builtin _)
      · exact .exit (hunknown (by assumption) (by assumption))
  exact hnamed hm

/-! ## One after another -/

theorem keeps_all {eval : Expr → Eval Object} (es : List Expr)
    (h : ∀ m', law.leads m m' → ∀ e ∈ es, law.Gives m' (eval e)) :
    law.Keeps m (fun m' xs => ∀ x ∈ xs, law.Good m' x) (Eval.all eval es) := by
  induction es generalizing m with
  | nil => exact .pure (by simp)
  | cons e es ih =>
    rw [Eval.all]
    refine .bind (h m (law.refl m) e List.mem_cons_self) fun m₁ o hm₁ ho => ?_
    have hrest := ih fun m' hm' x hx => h m' (law.trans hm₁ hm') x (List.mem_cons_of_mem _ hx)
    refine .bind hrest fun m₂ xs hm₂ hxs => .pure ?_
    exact List.forall_mem_cons.2 ⟨ho.mono hm₂, hxs⟩

theorem keeps_pairs {eval : Expr → Eval Object} (ps : List (Expr × Expr))
    (h : ∀ m', law.leads m m' → ∀ p ∈ ps, law.Gives m' (eval p.1) ∧ law.Gives m' (eval p.2))
    {entries : List (Entry Object)} (he : EntriesHold (law.vouches m) entries) :
    law.Keeps m (fun m' => EntriesHold (law.vouches m')) (Eval.pairs eval entries ps) := by
  induction ps generalizing m entries with
  | nil => exact .pure he
  | cons p ps ih =>
    refine .bind (h m (law.refl m) p List.mem_cons_self).1 fun m₁ key hm₁ hkey => ?_
    split
    · exact .exit (good_error trivial)
    · rename_i k hk
      refine .bind (h m₁ hm₁ p List.mem_cons_self).2 fun m₂ value hm₂ hvalue => ?_
      have hm := law.trans hm₁ hm₂
      refine ih (fun m' hm' q hq => h m' (law.trans hm hm') q (List.mem_cons_of_mem _ hq)) ?_
      have hentries := he.mono fun _ (h : law.Good m _) => h.mono hm
      exact hentries.insert hk (hkey.mono hm₂) hvalue

/-- `I` is what the statements to come rely on. -/
theorem gives_sequence {eval : Statement → Eval Object} {I : Machine → List Statement → Prop}
    (h : ∀ m st ss, I m (st :: ss) →
      law.Keeps m (fun m' o => law.Good m' o ∧ I m' ss) (eval st))
    {ss : List Statement} (hss : I m ss) {result : Object} (hr : law.Good m result) :
    law.Gives m (Eval.sequence eval result ss) := by
  induction ss generalizing m result with
  | nil => exact .pure hr
  | cons st ss ih =>
    rw [Eval.sequence]
    exact .bind (h m st ss hss) fun m₁ o _ ho => ih ho.2 ho.1

/-! ## Ends of runs -/

theorem outcome_lawful {x : Eval Object} (h : law.Gives m x) (hm : law.lawful m) {o : Object}
    (ho : outcome x m = some (o, m')) : law.leads m m' ∧ law.lawful m' ∧ law.Good m' o := by
  unfold outcome at ho
  split at ho
  all_goals cases ho
  all_goals exact h hm _ _ (by assumption)

theorem gives_concluded {x : Eval Object} (h : law.Gives m x) : law.Gives m (concluded x) := by
  intro hm r m' hr
  obtain ⟨⟨o, m₁⟩, ho, heq⟩ := Option.map_eq_some_iff.1 hr
  cases heq
  exact outcome_lawful h hm ho

/-! ## Evaluation -/

/-- The law holds of all that evaluation does in scopes that stand. -/
structure Upheld (law : Law) (stands : Machine → ScopeId → Prop) : Prop where
  stays : ∀ {m m' s}, law.leads m m' → stands m s → stands m' s
  named : ∀ {m s}, stands m s → ∀ name, law.Gives m (named s name)
  bind : ∀ {m s}, stands m s → ∀ name value, law.Good m value →
    law.Keeps m (fun _ _ => True) (Eval.bind s name value)
  closure : ∀ {m s}, stands m s → ∀ parameters body, law.Gives m (closure s parameters body)
  enter : ∀ {m c arguments}, law.Good m (.function c) → (∀ x ∈ arguments, law.Good m x) →
    law.Keeps m stands (enter c arguments)
  print : ∀ m text, law.Keeps m (fun _ _ => True) (print text)

/-- And so, up to a depth, of whole expressions, statements and calls. -/
structure Giving (law : Law) (stands : Machine → ScopeId → Prop) (n : Nat) : Prop where
  expression : ∀ m s, stands m s → ∀ e, law.Gives m (expression n s e)
  statement : ∀ m s, stands m s → ∀ st, law.Gives m (statement n s st)
  apply : ∀ m f arguments, law.Good m f → (∀ x ∈ arguments, law.Good m x) →
    law.Gives m (apply n f arguments)

section Upheld

variable {stands : Machine → ScopeId → Prop} (hlaw : law.Upheld stands)

include hlaw

theorem Giving.sequence {n : Nat} (h : law.Giving stands n) {s : ScopeId} (hs : stands m s)
    (ss : List Statement) : law.Gives m (sequence (Eval.statement n s) .null ss) := by
  refine gives_sequence (I := fun m' _ => stands m' s) (fun m' st _ hs' => ?_) hs
    (law.plain m).every_null
  exact (h.statement m' s hs' st).mono fun _ _ hm ho => ⟨ho, hlaw.stays hm hs'⟩

theorem giving_expression {n : Nat} (ih : law.Giving stands n) (m : Machine) (s : ScopeId)
    (hs : stands m s) (e : Expr) : law.Gives m (expression (n + 1) s e) := by
  have plain := law.plain
  have part (m' : Machine) (hm : law.leads m m') (x : Expr) :=
    ih.expression m' s (hlaw.stays hm hs) x
  have branch (m' : Machine) (hm : law.leads m m') (ss : List Statement) :=
    ih.sequence hlaw (hlaw.stays hm hs) ss
  have here := law.refl m
  cases e with
  | identifier name => exact hlaw.named hs name.literal
  | integer token value => exact .pure ((plain m).every_integer _)
  | boolean token value => exact .pure ((plain m).every_boolean _)
  | string token => exact .pure ((plain m).every_string _)
  | prefixed token op operand =>
    rw [expression]
    exact .bind (part m here operand) fun m₁ o _ _ => gives_prefix op o
  | binary token op left right =>
    rw [expression]
    refine .bind (part m here left) fun m₁ l hm _ => ?_
    exact .bind (part m₁ hm right) fun m₂ r _ _ => gives_infix op l r
  | conditional token condition consequence alternative =>
    unfold expression
    refine .bind (part m here condition) fun m₁ o hm _ => ?_
    split
    · exact branch m₁ hm _
    · cases alternative with
      | none => exact .pure (plain m₁).every_null
      | some block => exact branch m₁ hm _
  | function token parameters body => exact hlaw.closure hs parameters body
  | call token callee arguments =>
    rw [expression]
    refine .bind (part m here callee) fun m₁ f hm hf => ?_
    refine .bind (keeps_all arguments fun m' hm' x _ => part m' (law.trans hm hm') x) ?_
    intro m₂ xs hm' hxs
    exact .bind (ih.apply m₂ f xs (hf.mono hm') hxs) fun m₃ o _ ho => gives_settle ho
  | array token elements =>
    rw [expression]
    refine .bind (keeps_all elements fun m' hm x _ => part m' hm x) fun m₁ xs _ hxs => .pure ?_
    exact (plain m₁).every_array hxs
  | hash token ps =>
    rw [expression]
    refine .bind (keeps_pairs ps (fun m' hm p _ => ⟨part m' hm p.1, part m' hm p.2⟩) .nil) ?_
    exact fun m₁ es _ hes => .pure (hes.every_hash (plain m₁))
  | index token base position =>
    rw [expression]
    refine .bind (part m here base) fun m₁ b hm hb => ?_
    exact .bind (part m₁ hm position) fun m₂ i hm' _ => gives_index (hb.mono hm')

theorem giving_statement {n : Nat} (ih : law.Giving stands n) (m : Machine) (s : ScopeId)
    (hs : stands m s) (st : Statement) : law.Gives m (statement (n + 1) s st) := by
  have hvalue := ih.expression m s hs
  cases st with
  | binding token name value =>
    rw [statement]
    refine .bind (hvalue value) fun m₁ o hm ho => ?_
    refine .bind (hlaw.bind (hlaw.stays hm hs) name.literal o ho) fun m₂ _ _ _ => ?_
    exact .pure (law.plain m₂).every_null
  | returning token value =>
    cases value with
    | none => exact .exit (law.plain m).every_null
    | some value =>
      rw [statement]
      exact .bind (hvalue value) fun m₁ o _ ho => .exit ho
  | expression token value => exact hvalue value

theorem giving_apply {n : Nat} (ih : law.Giving stands n) (m : Machine) (f : Object)
    (arguments : List Object) (hf : law.Good m f) (ha : ∀ x ∈ arguments, law.Good m x) :
    law.Gives m (apply (n + 1) f arguments) := by
  cases f with
  | function c =>
    rw [Eval.apply]
    split
    · refine .bind (hlaw.enter hf ha) fun m₁ s _ hs => ?_
      exact gives_concluded (ih.sequence hlaw hs c.body.statements)
    · exact .pure (good_error trivial)
  | builtin b =>
    rw [Eval.apply]
    refine .bind (hlaw.print m _) fun m₁ _ hm _ => gives_result fun x hx => ?_
    exact (ha x hx).mono hm
  | _ => exact .pure (good_error trivial)

theorem giving (n : Nat) : law.Giving stands n := by
  induction n with
  | zero =>
    exact ⟨fun _ _ _ _ => .exhausted, fun _ _ _ _ => .exhausted, fun _ _ _ _ _ => .exhausted⟩
  | succ n ih => exact ⟨giving_expression hlaw ih, giving_statement hlaw ih, giving_apply hlaw ih⟩

end Upheld

end Law

end Treewalk
