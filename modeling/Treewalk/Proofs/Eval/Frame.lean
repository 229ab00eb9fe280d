import Treewalk.Eval.Evaluate
import Treewalk.Proofs.Runs
import Treewalk.Proofs.Eval.Scopes

/-!
# What evaluation leaves alone

A call changes no scope that there was before it. Evaluation in a scope changes no other one, and
in that one only what `let` statements of the code bind.
-/

namespace Treewalk

/-! ## Names bound by `let` -/

mutual

/-- The names of the `let` statements in an expression, those inside its function literals left
out. -/
def Expr.letNames : Expr → List String
  | .identifier _ | .integer _ _ | .boolean _ _ | .string _ | .function _ _ _ => []
  | .prefixed _ _ operand => operand.letNames
  | .binary _ _ left right => left.letNames ++ right.letNames
  | .conditional _ condition consequence alternative =>
    condition.letNames ++ consequence.letNames ++ letNamesElse alternative
  | .call _ callee arguments => callee.letNames ++ letNamesAll arguments
  | .array _ elements => letNamesAll elements
  | .hash _ pairs => letNamesPairs pairs
  | .index _ base position => base.letNames ++ position.letNames

def letNamesAll : List Expr → List String
  | [] => []
  | e :: es => e.letNames ++ letNamesAll es

def letNamesPairs : List (Expr × Expr) → List String
  | [] => []
  | (key, value) :: pairs => key.letNames ++ value.letNames ++ letNamesPairs pairs

def letNamesElse : Option Block → List String
  | none => []
  | some block => block.letNames

def letNamesValue : Option Expr → List String
  | none => []
  | some value => value.letNames

def Statement.letNames : Statement → List String
  | .binding _ name value => name.literal :: value.letNames
  | .returning _ value => letNamesValue value
  | .expression _ value => value.letNames

def letNamesStatements : List Statement → List String
  | [] => []
  | s :: ss => s.letNames ++ letNamesStatements ss

def Block.letNames : Block → List String
  | ⟨_, statements⟩ => letNamesStatements statements

end

theorem letNames_subset_all {e : Expr} {es : List Expr} (h : e ∈ es) :
    e.letNames ⊆ letNamesAll es := by
  induction es with
  | nil => simp at h
  | cons x xs ih =>
    rw [letNamesAll]
    rcases List.mem_cons.1 h with rfl | h
    · exact List.subset_append_left _ _
    · exact fun _ hy => List.mem_append_right _ (ih h hy)

theorem letNames_subset_pairs {p : Expr × Expr} {ps : List (Expr × Expr)} (h : p ∈ ps) :
    p.1.letNames ⊆ letNamesPairs ps ∧ p.2.letNames ⊆ letNamesPairs ps := by
  induction ps with
  | nil => simp at h
  | cons q qs ih =>
    obtain ⟨k, v⟩ := q
    rw [letNamesPairs]
    rcases List.mem_cons.1 h with rfl | h
    · exact ⟨fun _ hy => by simp [hy], fun _ hy => by simp [hy]⟩
    · exact ⟨fun _ hy => by simp [(ih h).1 hy], fun _ hy => by simp [(ih h).2 hy]⟩

theorem letNames_subset_statements {s : Statement} {ss : List Statement} (h : s ∈ ss) :
    s.letNames ⊆ letNamesStatements ss := by
  induction ss with
  | nil => simp at h
  | cons x xs ih =>
    rw [letNamesStatements]
    rcases List.mem_cons.1 h with rfl | h
    · exact List.subset_append_left _ _
    · exact fun _ hy => List.mem_append_right _ (ih h hy)

/-! ## Scopes that stay -/

namespace Machine

/-- All scopes that there were are there unchanged. -/
structure Extends (m m' : Machine) : Prop where
  size : m.scopes.size ≤ m'.scopes.size
  same : ∀ k < m.scopes.size, m'.scopes[k]? = m.scopes[k]?

/-- Of the scopes that there were, only `s` has changed, and only what it binds `names` to. -/
structure ChangesOnly (s : ScopeId) (names : List String) (m m' : Machine) : Prop where
  size : m.scopes.size ≤ m'.scopes.size
  others : ∀ k < m.scopes.size, k ≠ s → m'.scopes[k]? = m.scopes[k]?
  enclosing : s < m.scopes.size → m'.enclosing s = m.enclosing s
  bindings : s < m.scopes.size → ∀ y ∉ names, (m'.bindings s).get? y = (m.bindings s).get? y

theorem Extends.refl (m : Machine) : m.Extends m := ⟨Nat.le_refl _, fun _ _ => rfl⟩

theorem Extends.of_scopes {m m' : Machine} (h : m'.scopes = m.scopes) : m.Extends m' := by
  constructor <;> simp [h]

namespace ChangesOnly

variable {s : ScopeId} {names : List String} {m m' m'' : Machine}

theorem of_extends (h : m.Extends m') : m.ChangesOnly s names m' where
  size := h.size
  others k hk _ := h.same k hk
  enclosing hs := by simp [Machine.enclosing, h.same s hs]
  bindings hs y _ := by simp [Machine.bindings, h.same s hs]

theorem refl (m : Machine) : m.ChangesOnly s names m := of_extends (.refl m)

theorem trans (h : m.ChangesOnly s names m') (h' : m'.ChangesOnly s names m'') :
    m.ChangesOnly s names m'' where
  size := Nat.le_trans h.size h'.size
  others k hk hne := (h'.others k (Nat.lt_of_lt_of_le hk h.size) hne).trans (h.others k hk hne)
  enclosing hs := (h'.enclosing (Nat.lt_of_lt_of_le hs h.size)).trans (h.enclosing hs)
  bindings hs y hy :=
    (h'.bindings (Nat.lt_of_lt_of_le hs h.size) y hy).trans (h.bindings hs y hy)

theorem mono {names' : List String} (h : m.ChangesOnly s names m') (hn : names ⊆ names') :
    m.ChangesOnly s names' m' where
  size := h.size
  others := h.others
  enclosing := h.enclosing
  bindings hs y hy := h.bindings hs y fun hmem => hy (hn hmem)

end ChangesOnly

theorem changesOnly_set {names : List String} {name : String} (h : name ∈ names) (m : Machine)
    (s : ScopeId) (value : Object) : m.ChangesOnly s names (m.set s name value) where
  size := by simp
  others k _ hne := by simp [scopes_set, hne.symm]
  enclosing _ := by simp
  bindings hs y hy := by
    have hne : y ≠ name := fun heq => hy (heq ▸ h)
    simp [bindings_set, hs, Bindings.get?_set_of_ne hne]

theorem changesOnly_setAll (s : ScopeId) (bs : List (String × Object)) (m : Machine) :
    m.ChangesOnly s (bs.map (·.1)) (m.setAll s bs) := by
  induction bs generalizing m with
  | nil => exact .refl m
  | cons b bs ih =>
    have hset : m.ChangesOnly s (b.1 :: bs.map (·.1)) _ :=
      changesOnly_set List.mem_cons_self m s b.2
    exact hset.trans ((ih (m.set s b.1 b.2)).mono (List.subset_cons_self _ _))

theorem extends_newInside (m : Machine) (s : ScopeId) : m.Extends (m.newInside s) where
  size := by simp
  same k hk := by simp [scopes_newInside, Nat.ne_of_lt hk]

theorem Extends.trans_later {m m' m'' : Machine} {s : ScopeId} {names : List String}
    (h : m.Extends m') (h' : m'.ChangesOnly s names m'') (hs : m.scopes.size ≤ s) :
    m.Extends m'' where
  size := Nat.le_trans h.size h'.size
  same k hk := by
    have hne : k ≠ s := by omega
    exact (h'.others k (Nat.lt_of_lt_of_le hk h.size) hne).trans (h.same k hk)

theorem composes_changesOnly (s : ScopeId) (names : List String) :
    Run.Composes (ChangesOnly s names) := ⟨.refl, .trans⟩

theorem composes_extends : Run.Composes Extends where
  refl := .refl
  trans h h' :=
    { size := Nat.le_trans h.size h'.size
      same := fun k hk => (h'.same k (Nat.lt_of_lt_of_le hk h.size)).trans (h.same k hk) }

end Machine

/-! ## Evaluation -/

namespace Eval

open Run Machine

section Loops

variable {R : Machine → Machine → Prop} (hR : Composes R)

include hR

theorem relates_all {eval : Expr → Eval Object} {es : List Expr}
    (h : ∀ e ∈ es, Relates R (eval e)) : Relates R (all eval es) := by
  induction es with
  | nil => exact .pure hR
  | cons e es ih =>
    have hfirst := h e List.mem_cons_self
    have hrest := ih fun x hx => h x (List.mem_cons_of_mem _ hx)
    rw [all]
    exact .bind hR hfirst fun _ => .bind hR hrest fun _ => .pure hR

theorem relates_pairs {eval : Expr → Eval Object} {ps : List (Expr × Expr)}
    (h : ∀ p ∈ ps, Relates R (eval p.1) ∧ Relates R (eval p.2)) (entries : List (Entry Object)) :
    Relates R (pairs eval entries ps) := by
  induction ps generalizing entries with
  | nil => exact .pure hR
  | cons p ps ih =>
    obtain ⟨hkey, hvalue⟩ := h p List.mem_cons_self
    have hrest := ih fun q hq => h q (List.mem_cons_of_mem _ hq)
    refine .bind hR hkey fun key => ?_
    split
    · exact .exit hR
    · exact .bind hR hvalue fun _ => hrest _

theorem relates_sequence {eval : Statement → Eval Object} {ss : List Statement}
    (h : ∀ st ∈ ss, Relates R (eval st)) (result : Object) :
    Relates R (sequence eval result ss) := by
  induction ss generalizing result with
  | nil => exact .pure hR
  | cons st ss ih =>
    have hfirst := h st List.mem_cons_self
    have hrest := ih fun x hx => h x (List.mem_cons_of_mem _ hx)
    rw [sequence]
    exact .bind hR hfirst fun o => hrest o

theorem relates_settle (o : Object) : Relates R (settle o) := by
  unfold settle
  split
  · exact .exit hR
  · exact .exit hR
  · exact .pure hR

theorem relates_settleExcept (x : Except RuntimeError Object) : Relates R (settleExcept x) := by
  unfold settleExcept
  split
  · exact relates_settle hR _
  · exact .exit hR

theorem relates_named (s : ScopeId) (name : String) : Relates R (named s name) := by
  unfold named
  refine .bind hR (.get hR) fun m => ?_
  split
  · exact relates_settle hR _
  · split
    · exact .pure hR
    · exact .exit hR

end Loops

theorem ends_of_outcome {x : Eval Object} {m m' : Machine} {o : Object}
    (h : outcome x m = some (o, m')) : ∃ r, x m = some (r, m') := by
  unfold outcome at h
  split at h
  · cases h
    exact ⟨_, by assumption⟩
  · cases h
    exact ⟨_, by assumption⟩
  · cases h

theorem relates_concluded {R : Machine → Machine → Prop} {x : Eval Object}
    (hx : Relates R x) : Relates R (concluded x) := by
  intro m r m' h
  obtain ⟨⟨o, m₁⟩, ho, heq⟩ := Option.map_eq_some_iff.1 h
  cases heq
  obtain ⟨r', hr⟩ := ends_of_outcome ho
  exact hx m r' m' hr

theorem extends_closure (s : ScopeId) (parameters : List Token) (body : Block) :
    Relates Extends (closure s parameters body) := by
  have hR := composes_extends
  unfold closure
  refine .bind hR (.get hR) fun m => .bind hR (.modify fun m' => ?_) fun _ => .pure hR
  exact .of_scopes rfl

theorem extends_print (text : String) : Relates Extends (print text) :=
  .modify fun _ => .of_scopes rfl

theorem extends_enter {c : Closure} {arguments : List Object} {m m' : Machine}
    {r : Except Signal ScopeId} (h : enter c arguments m = some (r, m')) :
    r = .ok m.scopes.size ∧ m.Extends m' := by
  cases h
  exact ⟨rfl, (extends_newInside m c.scope).trans_later (changesOnly_setAll _ _ _) (Nat.le_refl _)⟩

theorem extends_body {c : Closure} {arguments : List Object} {names : List String}
    {body : ScopeId → Eval Object} (h : ∀ s, Relates (ChangesOnly s names) (body s)) :
    Relates Extends (enter c arguments >>= fun s => concluded (body s)) := by
  intro m r m' hr
  rcases bind_ends hr with ⟨e, he, -⟩ | ⟨s, m₁, hs, hbody⟩
  · exact (extends_enter he).2
  · obtain ⟨hsize, hm⟩ := extends_enter hs
    cases hsize
    exact hm.trans_later (relates_concluded (h _) m₁ _ _ hbody) (Nat.le_refl _)

structure Framed (n : Nat) : Prop where
  expression : ∀ s e, Relates (ChangesOnly s e.letNames) (expression n s e)
  statement : ∀ s st, Relates (ChangesOnly s st.letNames) (statement n s st)
  apply : ∀ f arguments, Relates Extends (apply n f arguments)

theorem Framed.block {n : Nat} (h : Framed n) (s : ScopeId) (b : Block) :
    Relates (ChangesOnly s b.letNames) (sequence (Eval.statement n s) .null b.statements) := by
  obtain ⟨t, ss⟩ := b
  refine relates_sequence (composes_changesOnly _ _) (fun st hst => ?_) _
  exact (h.statement s st).mono fun _ _ hm => hm.mono (letNames_subset_statements hst)

theorem framed_expression {n : Nat} (ih : Framed n) (s : ScopeId) (e : Expr) :
    Relates (ChangesOnly s e.letNames) (expression (n + 1) s e) := by
  have hR := composes_changesOnly s e.letNames
  -- every part of `e` binds only names that `e` binds
  have part : ∀ x : Expr, x.letNames ⊆ e.letNames →
      Relates (ChangesOnly s e.letNames) (expression n s x) :=
    fun x hx => (ih.expression s x).mono fun _ _ hm => hm.mono hx
  have branch : ∀ b : Block, b.letNames ⊆ e.letNames →
      Relates (ChangesOnly s e.letNames) (sequence (statement n s) .null b.statements) :=
    fun b hb => (ih.block s b).mono fun _ _ hm => hm.mono hb
  cases e with
  | identifier name => exact relates_named hR s name.literal
  | integer token value => exact .pure hR
  | boolean token value => exact .pure hR
  | string token => exact .pure hR
  | prefixed token op operand =>
    have hoperand := part operand (by simp [Expr.letNames])
    rw [expression]
    exact .bind hR hoperand fun _ => relates_settleExcept hR _
  | binary token op left right =>
    have hleft := part left (by simp [Expr.letNames])
    have hright := part right (by simp [Expr.letNames])
    rw [expression]
    exact .bind hR hleft fun _ => .bind hR hright fun _ => relates_settleExcept hR _
  | conditional token condition consequence alternative =>
    have hcondition := part condition (by simp [Expr.letNames])
    unfold expression
    refine .bind hR hcondition fun o => ?_
    split
    · exact branch consequence (by simp [Expr.letNames])
    · cases alternative with
      | none => exact .pure hR
      | some block => exact branch block (by simp [Expr.letNames, letNamesElse])
  | function token parameters body =>
    exact (extends_closure s parameters body).mono fun _ _ => .of_extends
  | call token callee arguments =>
    have hcallee := part callee (by simp [Expr.letNames])
    have harguments := relates_all hR fun x (hx : x ∈ arguments) =>
      part x fun _ hy => List.mem_append_right _ (letNames_subset_all hx hy)
    rw [expression]
    refine .bind hR hcallee fun f => .bind hR harguments fun xs => ?_
    exact .bind hR ((ih.apply f xs).mono fun _ _ => .of_extends) fun _ => relates_settle hR _
  | array token elements =>
    have helements := relates_all hR fun x (hx : x ∈ elements) => part x (letNames_subset_all hx)
    rw [expression]
    exact .bind hR helements fun _ => .pure hR
  | hash token ps =>
    rw [expression]
    refine .bind hR (relates_pairs hR (fun p hp => ?_) []) fun _ => .pure hR
    obtain ⟨hkey, hvalue⟩ := letNames_subset_pairs hp
    exact ⟨part p.1 hkey, part p.2 hvalue⟩
  | index token base position =>
    have hbase := part base (by simp [Expr.letNames])
    have hposition := part position (by simp [Expr.letNames])
    rw [expression]
    exact .bind hR hbase fun _ => .bind hR hposition fun _ => relates_settleExcept hR _

theorem framed_statement {n : Nat} (ih : Framed n) (s : ScopeId) (st : Statement) :
    Relates (ChangesOnly s st.letNames) (statement (n + 1) s st) := by
  have hR := composes_changesOnly s st.letNames
  cases st with
  | binding token name value =>
    have hvalue := (ih.expression s value).mono fun _ _ hm =>
      hm.mono (List.subset_cons_self name.literal value.letNames)
    have hbind (o : Object) :
        Relates (ChangesOnly s (name.literal :: value.letNames)) (bind s name.literal o) :=
      .modify fun m => changesOnly_set List.mem_cons_self m s o
    rw [statement]
    exact .bind hR hvalue fun o => .bind hR (hbind o) fun _ => .pure hR
  | returning token value =>
    cases value with
    | none => exact .exit hR
    | some value =>
      rw [statement]
      exact .bind hR (ih.expression s value) fun _ => .exit hR
  | expression token value => exact ih.expression s value

theorem framed_apply {n : Nat} (ih : Framed n) (f : Object) (arguments : List Object) :
    Relates Extends (apply (n + 1) f arguments) := by
  cases f with
  | function c =>
    rw [Eval.apply]
    split
    · exact extends_body fun s => ih.block s c.body
    · exact .pure composes_extends
  | builtin b =>
    rw [Eval.apply]
    exact .bind composes_extends (extends_print _) fun _ => .pure composes_extends
  | _ => exact .pure composes_extends

theorem framed (n : Nat) : Framed n := by
  induction n with
  | zero =>
    exact ⟨fun _ _ => .exhausted, fun _ _ => .exhausted, fun _ _ => .exhausted⟩
  | succ n ih => exact ⟨framed_expression ih, framed_statement ih, framed_apply ih⟩

/-- A call leaves every scope that there was as it was. Evaluation in a scope leaves all others so,
and this one keeps the scopes around it and what it binds to names that no `let` of the evaluated
code binds, those inside function literals not counted. -/
theorem evaluation_frame (n : Nat) (m m' : Machine) :
    (∀ f arguments r, apply n f arguments m = some (r, m') → m.Extends m') ∧
    (∀ f arguments o, call n f arguments m = some (o, m') → m.Extends m') ∧
    (∀ s e r, expression n s e m = some (r, m') → m.ChangesOnly s e.letNames m') ∧
    (∀ s st r, statement n s st m = some (r, m') → m.ChangesOnly s st.letNames m') ∧
    ∀ s (b : Block) r, sequence (statement n s) .null b.statements m = some (r, m') →
      m.ChangesOnly s b.letNames m' := by
  have h := framed n
  refine ⟨fun f xs r hr => h.apply f xs m r m' hr, fun f xs o ho => ?_,
    fun s e r hr => h.expression s e m r m' hr, fun s st r hr => h.statement s st m r m' hr,
    fun s b r hr => h.block s b m r m' hr⟩
  obtain ⟨r, hr⟩ := ends_of_outcome ho
  exact h.apply f xs m r m' hr

/-- A function with a local `x`, called where `x` is bound, in a block that binds `y` to it. -/
theorem evaluation_frame_shadowing :
    let name (s : String) : Token := ⟨.ident, s, 1⟩
    let token : Token := ⟨.letWord, "let", 1⟩
    let body : Block := ⟨token, [.binding token (name "x") (.identifier (name "a")),
      .expression token (.identifier (name "x"))]⟩
    let f : Object := .function ⟨0, [name "a"], body, 0⟩
    let m : Machine := ⟨#[⟨[("x", .integer 1), ("f", f)], []⟩], 1, ""⟩
    let e : Expr := .call token (.identifier (name "f")) [.integer token 5]
    let st : Statement := .binding token (name "y") e
    (∃ m', apply 4 f [.integer 5] m = some (.ok (.integer 5), m') ∧ m.Extends m') ∧
    (∃ m', call 4 f [.integer 5] m = some (.integer 5, m') ∧ m.Extends m') ∧
    (∃ m', expression 5 0 e m = some (.ok (.integer 5), m') ∧ m.ChangesOnly 0 [] m') ∧
    (∃ m', statement 6 0 st m = some (.ok .null, m') ∧ m.ChangesOnly 0 ["y"] m') ∧
    ∃ m', sequence (statement 6 0) .null [st] m = some (.ok .null, m') ∧
      m.ChangesOnly 0 ["y"] m' := by
  intro name token body f m e st
  refine ⟨⟨_, rfl, ?_⟩, ⟨_, rfl, ?_⟩, ⟨_, rfl, ?_⟩, ⟨_, rfl, ?_⟩, ⟨_, rfl, ?_⟩⟩
  · exact (evaluation_frame 4 m _).1 f [.integer 5] _ rfl
  · exact (evaluation_frame 4 m _).2.1 f [.integer 5] _ rfl
  · exact (evaluation_frame 5 m _).2.2.1 0 e _ rfl
  · exact (evaluation_frame 6 m _).2.2.2.1 0 st _ rfl
  · exact (evaluation_frame 6 m _).2.2.2.2 0 ⟨token, [st]⟩ _ rfl

end Eval

end Treewalk
