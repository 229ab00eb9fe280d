import Treewalk.Proofs.Eval.Closures
import Treewalk.Proofs.Eval.Scopes
import Treewalk.Proofs.Program.Tokens
import Treewalk.Proofs.Runs

/-!
# Evaluation under other labels

The numbers of scopes and of functions are labels, and so are the lines of tokens. Evaluation on a
machine that is the same under other labels ends just if it ends here, with the same under other
labels.
-/

namespace Treewalk

/-- Other numbers for scopes and functions, and other tokens with the same literals. -/
structure Relabelling where
  token : Token → Token
  /-- For the tokens that expression statements keep of their expression. -/
  lead : Token → Token
  literal : ∀ t, (token t).literal = t.literal
  scope : ScopeId → ScopeId
  scope_injective : ∀ {k j}, scope k = scope j → k = j
  identity : Nat → Nat

namespace Relabelling

variable (L : Relabelling)

def expr (e : Expr) : Expr := e.mapTokens L.token L.lead

def statement (s : Statement) : Statement := s.mapTokens L.token L.lead

def closure (c : Closure) : Closure :=
  ⟨L.identity c.identity, c.parameters.map L.token, c.body.mapTokens L.token L.lead,
    L.scope c.scope⟩

def object (o : Object) : Object := o.mapClosures L.closure

def bindings (bs : Bindings) : Bindings := bs.map fun b => (b.1, L.object b.2)

def contents (s : Scope) : Scope := ⟨L.bindings s.bindings, s.enclosing.map L.scope⟩

def signal : Signal → Signal
  | .error e => .error e
  | .returning value => .returning (L.object value)

theorem literals (ps : List Token) : (ps.map L.token).map (·.literal) = ps.map (·.literal) := by
  rw [List.map_map]
  exact List.map_congr_left fun t _ => L.literal t

theorem display_closure (c : Closure) : (L.closure c).display = c.display := by
  unfold Closure.display closure
  rw [literals, Block.render_mapTokens L.literal]

theorem looksLike_object (o : Object) : (L.object o).LooksLike o :=
  Object.looksLike_mapClosures (fun c => L.literals c.parameters)
    (fun c => c.body.render_mapTokens L.literal) o

theorem truthy_object (o : Object) : (L.object o).truthy = o.truthy :=
  Object.truthy_mapClosures L.closure o

theorem taken_signal (s : Signal) : (L.signal s).taken = L.object s.taken := by
  cases s <;> rfl

theorem bindings_set (name : String) (value : Object) (bs : Bindings) :
    L.bindings (bs.set name value) = (L.bindings bs).set name (L.object value) := by
  induction bs with
  | nil => rfl
  | cons b bs ih =>
    obtain ⟨n, v⟩ := b
    have hcons : L.bindings ((n, v) :: bs) = (n, L.object v) :: L.bindings bs := rfl
    rw [hcons, Bindings.set, Bindings.set]
    split
    · rfl
    · rw [← ih]
      rfl

theorem bindings_get? (name : String) (bs : Bindings) :
    (L.bindings bs).get? name = (bs.get? name).map L.object := by
  unfold Bindings.get?
  induction bs with
  | nil => rfl
  | cons b bs ih =>
    obtain ⟨n, v⟩ := b
    have hcons : L.bindings ((n, v) :: bs) = (n, L.object v) :: L.bindings bs := rfl
    rw [hcons, List.lookup_cons, List.lookup_cons]
    split
    · rfl
    · exact ih

theorem bindings_zip (c : Closure) (arguments : List Object) :
    L.bindings ((c.parameters.map (·.literal)).zip arguments) =
      ((L.closure c).parameters.map (·.literal)).zip (arguments.map L.object) := by
  rw [show (L.closure c).parameters = c.parameters.map L.token from rfl, L.literals,
    List.zip_map_right]
  rfl

end Relabelling

/-! ## Machines -/

/-- `m'` has the scopes of `m` under other labels, and maybe more; what either makes next is the
same under other labels. Since then the same was printed, after `a` here and after `b` there. -/
structure Machine.Matches (L : Relabelling) (a b : String) (m m' : Machine) : Prop where
  scopes : ∀ k, m'.scopes[L.scope k]? = m.scopes[k]?.map L.contents
  nextScope : ∀ i, L.scope (m.nextScope + i) = m'.nextScope + i
  nextFunction : ∀ i, L.identity (m.nextFunction + i) = m'.nextFunction + i
  output : ∃ text, m.output = a ++ text ∧ m'.output = b ++ text

namespace Machine

namespace Matches

variable {L : Relabelling} {a b : String} {m m' : Machine}

theorem bindings (h : m.Matches L a b m') (k : ScopeId) :
    m'.bindings (L.scope k) = L.bindings (m.bindings k) := by
  rw [Machine.bindings, Machine.bindings, h.scopes]
  cases m.scopes[k]? <;> rfl

theorem chain (h : m.Matches L a b m') (k : ScopeId) :
    m'.chain (L.scope k) = (m.chain k).map L.scope := by
  rw [Machine.chain, Machine.chain, Machine.enclosing, Machine.enclosing, h.scopes]
  cases m.scopes[k]? <;> rfl

theorem get? (h : m.Matches L a b m') (k : ScopeId) (name : String) :
    m'.get? (L.scope k) name = (m.get? k name).map L.object := by
  unfold Machine.get?
  rw [h.chain, List.findSome?_map]
  induction m.chain k with
  | nil => rfl
  | cons j js ih =>
    rw [List.findSome?_cons, List.findSome?_cons, Function.comp_apply, h.bindings,
      L.bindings_get?, ih]
    cases (m.bindings j).get? name <;> rfl

theorem set (h : m.Matches L a b m') (k : ScopeId) (name : String) (value : Object) :
    (m.set k name value).Matches L a b (m'.set (L.scope k) name (L.object value)) where
  scopes j := by
    rw [scopes_set, scopes_set, h.scopes]
    by_cases hj : k = j
    · subst hj
      rw [if_pos rfl, if_pos rfl]
      cases m.scopes[k]? with
      | none => rfl
      | some s =>
        refine congrArg some ?_
        simp only [Scope.set, Relabelling.contents, L.bindings_set]
    · rw [if_neg hj, if_neg fun heq => hj (L.scope_injective heq)]
  nextScope i := by
    have hnext := h.nextScope i
    simpa [Machine.nextScope] using hnext
  nextFunction := h.nextFunction
  output := h.output

theorem setAll (h : m.Matches L a b m') (k : ScopeId) (bs : List (String × Object)) :
    (m.setAll k bs).Matches L a b (m'.setAll (L.scope k) (L.bindings bs)) := by
  induction bs generalizing m m' with
  | nil => exact h
  | cons c bs ih => exact ih (h.set k c.1 c.2)

theorem newInside (h : m.Matches L a b m') (k : ScopeId) :
    (m.newInside k).Matches L a b (m'.newInside (L.scope k)) where
  scopes j := by
    have hnext : L.scope m.scopes.size = m'.scopes.size := h.nextScope 0
    rw [scopes_newInside, scopes_newInside, h.scopes, h.chain]
    by_cases hj : j = m.scopes.size
    · subst hj
      rw [if_pos rfl, if_pos hnext]
      rfl
    · rw [if_neg hj, if_neg fun heq => hj (L.scope_injective (heq.trans hnext.symm))]
  nextScope i := by
    have hnext := h.nextScope (i + 1)
    simp only [Machine.nextScope, size_newInside] at hnext ⊢
    rw [Nat.add_assoc, Nat.add_assoc, Nat.add_comm 1 i]
    exact hnext
  nextFunction := h.nextFunction
  output := h.output

theorem newFunction (h : m.Matches L a b m') :
    Matches L a b { m with nextFunction := m.nextFunction + 1 }
      { m' with nextFunction := m'.nextFunction + 1 } where
  scopes := h.scopes
  nextScope := h.nextScope
  nextFunction i := by
    have hnext := h.nextFunction (i + 1)
    rw [Nat.add_assoc, Nat.add_assoc, Nat.add_comm 1 i]
    exact hnext
  output := h.output

theorem print (h : m.Matches L a b m') (text : String) :
    (m.print text).Matches L a b (m'.print text) where
  scopes := h.scopes
  nextScope := h.nextScope
  nextFunction := h.nextFunction
  output := by
    obtain ⟨before, hm, hm'⟩ := h.output
    exact ⟨before ++ text, by simp [Machine.print, hm, String.append_assoc],
      by simp [Machine.print, hm', String.append_assoc]⟩

end Matches

end Machine

/-! ## Evaluation -/

namespace Eval

open Run Machine

variable {L : Relabelling} {a b : String}

/-- Runs that do the same under other labels, with results related by `P`. -/
abbrev Follows (L : Relabelling) (a b : String) {α β : Type} (P : α → β → Prop) (x : Eval α)
    (y : Eval β) : Prop :=
  Alike (Matches L a b) (fun s s' => s' = L.signal s) P x y

/-- The object is the same under other labels. -/
abbrev Renamed (L : Relabelling) (o o' : Object) : Prop := o' = L.object o

theorem follows_settle (o : Object) :
    Follows L a b (Renamed L) (settle o) (settle (L.object o)) := by
  cases o with
  | error e => exact .exit rfl
  | returning v => exact .exit rfl
  | _ => exact .pure rfl

theorem follows_settleExcept (x : Except RuntimeError Object) :
    Follows L a b (Renamed L) (settleExcept x) (settleExcept (x.map L.object)) := by
  cases x with
  | ok o => exact follows_settle o
  | error e => exact .exit rfl

theorem follows_all {eval eval' : Expr → Eval Object}
    (h : ∀ e, Follows L a b (Renamed L) (eval e) (eval' (L.expr e))) (es : List Expr) :
    Follows L a b (fun xs ys => ys = xs.map L.object) (all eval es)
      (all eval' (es.map L.expr)) := by
  induction es with
  | nil => exact .pure rfl
  | cons e es ih =>
    rw [List.map_cons, all, all]
    refine .bind (h e) fun o o' ho => .bind ih fun xs ys hys => .pure ?_
    rw [ho, hys, List.map_cons]

theorem follows_pairs {eval eval' : Expr → Eval Object}
    (h : ∀ e, Follows L a b (Renamed L) (eval e) (eval' (L.expr e))) (ps : List (Expr × Expr))
    (entries : List (Entry Object)) :
    Follows L a b (fun es fs => fs = es.map (Entry.mapClosures L.closure)) (pairs eval entries ps)
      (pairs eval' (entries.map (Entry.mapClosures L.closure))
        (ps.map fun p => (L.expr p.1, L.expr p.2))) := by
  induction ps generalizing entries with
  | nil => exact .pure rfl
  | cons p ps ih =>
    rw [List.map_cons]
    refine .bind (h p.1) fun key key' hkey => ?_
    subst hkey
    simp only [Relabelling.object, Object.hashKey?_mapClosures, Object.kind_mapClosures]
    cases key.hashKey? with
    | none => exact .exit rfl
    | some k =>
      refine .bind (h p.2) fun value value' hvalue => ?_
      subst hvalue
      have hrest := ih (Entry.insert ⟨k, key, value⟩ entries)
      rw [← Entry.insert_mapClosures] at hrest
      exact hrest

theorem follows_sequence {eval eval' : Statement → Eval Object}
    (h : ∀ st, Follows L a b (Renamed L) (eval st) (eval' (L.statement st)))
    (ss : List Statement) (result : Object) :
    Follows L a b (Renamed L) (sequence eval result ss)
      (sequence eval' (L.object result) (ss.map L.statement)) := by
  induction ss generalizing result with
  | nil => exact .pure rfl
  | cons st ss ih =>
    rw [List.map_cons, sequence, sequence]
    refine .bind (h st) fun o o' ho => ?_
    rw [ho]
    exact ih o

theorem follows_named (s : ScopeId) (name : String) :
    Follows L a b (Renamed L) (named s name) (named (L.scope s) name) := by
  unfold named
  refine .bind .get fun m m' hm => ?_
  rw [hm.get? s name]
  cases m.get? s name with
  | some o => exact follows_settle o
  | none =>
    dsimp only [Option.map_none]
    cases Builtin.named? name with
    | some f => exact .pure rfl
    | none => exact .exit rfl

theorem follows_bind (s : ScopeId) (name : String) (value : Object) :
    Follows L a b (fun _ _ => True) (bind s name value)
      (bind (L.scope s) name (L.object value)) :=
  .modify fun _ _ hm => hm.set s name value

theorem follows_closure (s : ScopeId) (parameters : List Token) (body : Block) :
    Follows L a b (Renamed L) (closure s parameters body)
      (closure (L.scope s) (parameters.map L.token) (body.mapTokens L.token L.lead)) := by
  unfold closure
  refine .bind .get fun m m' hm => .bind (.modify fun _ _ hm => hm.newFunction) fun _ _ _ => ?_
  refine .pure ?_
  rw [Renamed, ← show L.identity m.nextFunction = m'.nextFunction from hm.nextFunction 0]
  rfl

theorem follows_enter {E : Signal → Signal → Prop} (c : Closure) (arguments : List Object) :
    Alike (Matches L a b) E (fun s s' => s' = L.scope s) (enter c arguments)
      (enter (L.closure c) (arguments.map L.object)) := by
  unfold enter
  refine .bind .get fun m m' hm => ?_
  have hscope : m'.nextScope = L.scope m.nextScope := (hm.nextScope 0).symm
  refine .bind (.modify fun m₁ m₁' hm₁ => ?_) fun _ _ _ => .pure hscope
  rw [hscope, ← L.bindings_zip]
  exact (hm₁.newInside c.scope).setAll _ _

theorem follows_print {E : Signal → Signal → Prop} (text : String) :
    Alike (Matches L a b) E (fun _ _ => True) (print text) (print text) :=
  .modify fun _ _ hm => hm.print text

theorem follows_outcome {x y : Eval Object} (h : Follows L a b (Renamed L) x y) {m m' : Machine}
    (hm : m.Matches L a b m') :
    Option.Rel (fun u u' => Renamed L u.1 u'.1 ∧ u.2.Matches L a b u'.2) (outcome x m)
      (outcome y m') := by
  unfold outcome
  have hends := h m m' hm
  generalize x m = u, y m' = u' at hends
  cases hends with
  | none => exact .none
  | @some u u' h =>
    obtain ⟨r, m₁⟩ := u
    obtain ⟨r', m₁'⟩ := u'
    obtain ⟨hr, hm₁⟩ := h
    cases r <;> cases r'
    · rename_i s s'
      have hs : s' = L.signal s := hr
      exact .some ⟨by rw [hs, Renamed, L.taken_signal], hm₁⟩
    · exact hr.elim
    · exact hr.elim
    · exact .some ⟨hr, hm₁⟩

theorem follows_concluded {x y : Eval Object} (h : Follows L a b (Renamed L) x y)
    {E : Signal → Signal → Prop} :
    Alike (Matches L a b) E (Renamed L) (concluded x) (concluded y) := by
  intro m m' hm
  unfold concluded
  have hends := follows_outcome h hm
  generalize outcome x m = u, outcome y m' = u' at hends
  cases hends with
  | none => exact .none
  | some h => exact .some h

structure Follow (L : Relabelling) (a b : String) (n : Nat) : Prop where
  expression : ∀ s e,
    Follows L a b (Renamed L) (expression n s e) (expression n (L.scope s) (L.expr e))
  statement : ∀ s st,
    Follows L a b (Renamed L) (statement n s st) (statement n (L.scope s) (L.statement st))
  apply : ∀ f arguments, Follows L a b (Renamed L) (apply n f arguments)
    (apply n (L.object f) (arguments.map L.object))

theorem Follow.sequence {n : Nat} (h : Follow L a b n) (s : ScopeId) (ss : List Statement) :
    Follows L a b (Renamed L) (sequence (Eval.statement n s) .null ss)
      (sequence (Eval.statement n (L.scope s)) .null (ss.map L.statement)) :=
  follows_sequence (h.statement s) ss .null

theorem follow_expression {n : Nat} (ih : Follow L a b n) (s : ScopeId) (e : Expr) :
    Follows L a b (Renamed L) (expression (n + 1) s e)
      (expression (n + 1) (L.scope s) (L.expr e)) := by
  have part := ih.expression s
  have branch (c : Block) : Follows L a b (Renamed L) (sequence (statement n s) .null c.statements)
      (sequence (statement n (L.scope s)) .null (c.mapTokens L.token L.lead).statements) := by
    rw [Block.mapTokens_statements]
    exact ih.sequence s c.statements
  cases e with
  | identifier name =>
    show Follows L a b (Renamed L) (named s name.literal)
      (named (L.scope s) (L.token name).literal)
    rw [L.literal]
    exact follows_named s name.literal
  | integer token value => exact .pure rfl
  | boolean token value => exact .pure rfl
  | string token =>
    refine .pure ?_
    rw [L.literal]
    rfl
  | prefixed token op operand =>
    refine .bind (part operand) fun o o' ho => ?_
    rw [ho, Relabelling.object, PrefixOp.apply_mapClosures]
    exact follows_settleExcept _
  | binary token op left right =>
    refine .bind (part left) fun l l' hl => .bind (part right) fun r r' hr => ?_
    rw [hl, hr, Relabelling.object, Relabelling.object, InfixOp.apply_mapClosures]
    exact follows_settleExcept _
  | conditional token condition consequence alternative =>
    refine .bind (part condition) fun o o' ho => ?_
    rw [ho, L.truthy_object]
    split
    · exact branch consequence
    · cases alternative with
      | none => exact .pure rfl
      | some block => exact branch block
  | function token parameters body => exact follows_closure s parameters body
  | call token callee arguments =>
    refine .bind (part callee) fun f f' hf => ?_
    rw [hf, mapTokensAll_eq_map]
    refine .bind (follows_all part arguments) fun xs ys hxs => ?_
    rw [hxs]
    refine .bind (ih.apply f xs) fun o o' ho => ?_
    rw [ho]
    exact follows_settle o
  | array token elements =>
    show Follows L a b (Renamed L) _ (all _ (mapTokensAll L.token L.lead elements) >>= _)
    rw [mapTokensAll_eq_map]
    refine .bind (follows_all part elements) fun xs ys hxs => .pure ?_
    rw [hxs, Renamed, Relabelling.object, Object.mapClosures_array]
    rfl
  | hash token ps =>
    show Follows L a b (Renamed L) _ (pairs _ [] (mapTokensPairs L.token L.lead ps) >>= _)
    rw [mapTokensPairs_eq_map]
    refine .bind (follows_pairs part ps []) fun es fs hes => .pure ?_
    rw [hes, Renamed, Relabelling.object, Object.mapClosures_hash]
  | index token base position =>
    refine .bind (part base) fun x x' hx => .bind (part position) fun i i' hi => ?_
    rw [hx, hi, Relabelling.object, Relabelling.object, Object.index_mapClosures]
    exact follows_settleExcept _

theorem follow_statement {n : Nat} (ih : Follow L a b n) (s : ScopeId) (st : Statement) :
    Follows L a b (Renamed L) (statement (n + 1) s st)
      (statement (n + 1) (L.scope s) (L.statement st)) := by
  have hvalue := ih.expression s
  cases st with
  | binding token name value =>
    refine .bind (hvalue value) fun o o' ho => ?_
    rw [ho, L.literal]
    exact .bind (follows_bind s name.literal o) fun _ _ _ => .pure rfl
  | returning token value =>
    cases value with
    | none => exact .exit rfl
    | some value =>
      refine .bind (hvalue value) fun o o' ho => .exit ?_
      rw [ho]
      rfl
  | expression token value => exact hvalue value

theorem follow_apply {n : Nat} (ih : Follow L a b n) (f : Object) (arguments : List Object) :
    Follows L a b (Renamed L) (apply (n + 1) f arguments)
      (apply (n + 1) (L.object f) (arguments.map L.object)) := by
  cases f with
  | function c =>
    show Follows L a b (Renamed L) (apply (n + 1) (.function c) arguments)
      (apply (n + 1) (.function (L.closure c)) (arguments.map L.object))
    have hparameters : (L.closure c).parameters.length = c.parameters.length := List.length_map _
    rw [Eval.apply, Eval.apply, hparameters, List.length_map]
    split
    · refine .bind (follows_enter c arguments) fun s s' hs => ?_
      rw [hs, Relabelling.closure, Block.mapTokens_statements]
      exact follows_concluded (ih.sequence s c.body.statements)
    · exact .pure rfl
  | builtin f =>
    show Follows L a b (Renamed L) (apply (n + 1) (.builtin f) arguments)
      (apply (n + 1) (.builtin f) (arguments.map L.object))
    have hprinted : f.printed (arguments.map L.object) = f.printed arguments :=
      f.printed_mapClosures L.closure L.display_closure arguments
    have hresult : f.result (arguments.map L.object) = (f.result arguments).map L.object :=
      f.result_mapClosures L.closure arguments
    rw [Eval.apply, Eval.apply, hprinted, hresult]
    exact .bind (follows_print _) fun _ _ _ => .pure (Object.ofExcept_map L.closure _)
  | _ => exact .pure rfl

theorem follow (L : Relabelling) (a b : String) (n : Nat) : Follow L a b n := by
  induction n with
  | zero => exact ⟨fun _ _ => .exhausted, fun _ _ => .exhausted, fun _ _ => .exhausted⟩
  | succ n ih => exact ⟨follow_expression ih, follow_statement ih, follow_apply ih⟩

theorem program_follows (n : Nat) (s : ScopeId) (p : Program) {m m' : Machine}
    (hm : m.Matches L a b m') :
    Option.Rel (fun u u' => Renamed L u.1 u'.1 ∧ u.2.Matches L a b u'.2) (program n s p m)
      (program n (L.scope s) (p.map L.statement) m') :=
  follows_outcome ((follow L a b n).sequence s p) hm

theorem call_follows (n : Nat) (f : Object) (arguments : List Object) {m m' : Machine}
    (hm : m.Matches L a b m') :
    Option.Rel (fun u u' => Renamed L u.1 u'.1 ∧ u.2.Matches L a b u'.2) (call n f arguments m)
      (call n (L.object f) (arguments.map L.object) m') :=
  follows_outcome ((follow L a b n).apply f arguments) hm

end Eval

end Treewalk
