import Treewalk.Proofs.Eval.Parts
import Treewalk.Proofs.Runs
import Treewalk.Proofs.Eval.Scopes
import Treewalk.Proofs.Value.Filing

/-!
# What all objects of a run have in common

A property of objects that holds of whatever evaluation makes holds of all that a run meets, in
every region of scopes that functions do not leave.
-/

namespace Treewalk

/-- The property holds of all objects that evaluation makes; functions have it if their scope is in
the region. -/
structure Sturdy (R : ScopeId → Prop) (p : Object → Prop) : Prop where
  integer : ∀ n, p (.integer n)
  boolean : ∀ b, p (.boolean b)
  string : ∀ s, p (.string s)
  null : p .null
  builtin : ∀ b, p (.builtin b)
  array : ∀ xs, p (.array xs)
  hash : ∀ es : List (Entry Object), Entry.InPlace es → p (.hash es)
  function : ∀ c, p (.function c) ↔ R c.scope

/-- The property holds of all objects but functions and signals. -/
structure Plain (p : Object → Prop) : Prop where
  integer : ∀ n, p (.integer n)
  boolean : ∀ b, p (.boolean b)
  string : ∀ s, p (.string s)
  null : p .null
  builtin : ∀ b, p (.builtin b)
  array : ∀ xs, p (.array xs)
  hash : ∀ es : List (Entry Object), Entry.InPlace es → p (.hash es)

theorem Sturdy.plain {R : ScopeId → Prop} {p : Object → Prop} (hp : Sturdy R p) : Plain p where
  integer := hp.integer
  boolean := hp.boolean
  string := hp.string
  null := hp.null
  builtin := hp.builtin
  array := hp.array
  hash := hp.hash

theorem Sturdy.every_function {R : ScopeId → Prop} {p : Object → Prop} (hp : Sturdy R p)
    {c : Closure} (h : R c.scope) : (Object.function c).Every p := by
  simpa [Object.Every, Object.parts] using (hp.function c).2 h

namespace Plain

variable {p : Object → Prop} (hp : Plain p)

include hp

theorem every_integer (n : Int64) : (Object.integer n).Every p := by
  simpa [Object.Every, Object.parts] using hp.integer n

theorem every_boolean (b : Bool) : (Object.boolean b).Every p := by
  simpa [Object.Every, Object.parts] using hp.boolean b

theorem every_string (s : String) : (Object.string s).Every p := by
  simpa [Object.Every, Object.parts] using hp.string s

theorem every_null : Object.null.Every p := by
  simpa [Object.Every, Object.parts] using hp.null

theorem every_builtin (b : Builtin) : (Object.builtin b).Every p := by
  simpa [Object.Every, Object.parts] using hp.builtin b

theorem every_array {xs : List Object} (h : ∀ x ∈ xs, x.Every p) : (Object.array xs).Every p :=
  Object.every_array.2 ⟨hp.array xs, h⟩

end Plain

/-! ## Machines -/

/-- Every name in the region is bound to an object with the property, and neither enclosing scopes
nor new ones are outside the region. -/
structure Machine.Holds (R : ScopeId → Prop) (p : Object → Prop) (m : Machine) : Prop where
  bindings : ∀ k, R k → ∀ b ∈ m.bindings k, b.2.Every p
  enclosing : ∀ k, R k → ∀ j ∈ m.enclosing k, R j
  later : ∀ k, m.scopes.size ≤ k → R k

namespace Machine

namespace Holds

variable {R : ScopeId → Prop} {p : Object → Prop} {m : Machine}

theorem chain (h : m.Holds R p) {s : ScopeId} (hs : R s) : ∀ k ∈ m.chain s, R k := by
  intro k hk
  rcases List.mem_cons.1 hk with rfl | hk
  · exact hs
  · exact h.enclosing s hs k hk

theorem get? (h : m.Holds R p) {s : ScopeId} (hs : R s) {name : String} {o : Object}
    (ho : m.get? s name = some o) : o.Every p := by
  obtain ⟨k, hk, hget⟩ := List.exists_of_findSome?_eq_some ho
  exact h.bindings k (h.chain hs k hk) _ (Bindings.mem_of_get? hget)

theorem set (h : m.Holds R p) (s : ScopeId) (name : String) {value : Object}
    (hv : value.Every p) : (m.set s name value).Holds R p where
  bindings k hk b hb := by
    rw [bindings_set] at hb
    split at hb
    · rcases Bindings.mem_set hb with rfl | hb
      · exact hv
      · exact h.bindings k hk b hb
    · exact h.bindings k hk b hb
  enclosing k hk j hj := h.enclosing k hk j (by simpa using hj)
  later k hk := h.later k (by simpa using hk)

theorem setAll (h : m.Holds R p) (s : ScopeId) {bs : List (String × Object)}
    (hb : ∀ b ∈ bs, b.2.Every p) : (m.setAll s bs).Holds R p := by
  induction bs generalizing m with
  | nil => exact h
  | cons b bs ih =>
    have hset := h.set s b.1 (hb b List.mem_cons_self)
    exact ih hset fun b' hb' => hb b' (List.mem_cons_of_mem _ hb')

theorem newInside (h : m.Holds R p) {s : ScopeId} (hs : R s) : (m.newInside s).Holds R p where
  bindings k hk b hb := h.bindings k hk b (by simpa using hb)
  enclosing k hk j hj := by
    rw [enclosing_newInside] at hj
    split at hj
    · exact h.chain hs j hj
    · exact h.enclosing k hk j hj
  later k hk := h.later k (by simp at hk; omega)

theorem empty : Machine.empty.Holds (fun _ => True) p where
  bindings k _ b hb := by simp [Machine.bindings, Machine.empty] at hb
  enclosing _ _ _ _ := trivial
  later _ _ := trivial

theorem newRoot (h : m.Holds (fun _ => True) p) : m.newRoot.Holds (fun _ => True) p where
  bindings k hk b hb := h.bindings k hk b (by simpa using hb)
  enclosing _ _ _ _ := trivial
  later _ _ := trivial

theorem of_scopes (h : m.Holds R p) {m' : Machine} (hm : m'.scopes = m.scopes) : m'.Holds R p := by
  constructor
  · simpa [Machine.bindings, hm] using h.bindings
  · simpa [Machine.enclosing, hm] using h.enclosing
  · simpa [hm] using h.later

end Holds

end Machine

/-! ## Evaluation -/

namespace Eval

open Run

def SignalHolds (p : Object → Prop) : Signal → Prop
  | .error _ => True
  | .returning value => value.Every p

/-- What a call gives: an object with the property, or an error. -/
def ReplyHolds (p : Object → Prop) (o : Object) : Prop := o.Every p ∨ ∃ e, o = .error e

variable {R : ScopeId → Prop} {p : Object → Prop}

/-- Runs that keep the property, with values that satisfy `P`. -/
abbrev Sound {α : Type} (R : ScopeId → Prop) (p : Object → Prop) (P : α → Prop) (x : Eval α) :
    Prop :=
  Keeps (Machine.Holds R p) (SignalHolds p) P x

theorem sound_settle {o : Object} (h : ReplyHolds p o) : Sound R p (Object.Every p) (settle o) := by
  unfold settle
  split
  · exact .exit trivial
  · rcases h with h | ⟨e, he⟩
    · exact .exit (Object.every_returning.1 h).2
    · cases he
  · rename_i hne _
    rcases h with h | ⟨e, rfl⟩
    · exact .pure h
    · exact absurd rfl (hne e)

theorem sound_settleExcept {x : Except RuntimeError Object} (h : ∀ o, x = .ok o → o.Every p) :
    Sound R p (Object.Every p) (settleExcept x) := by
  unfold settleExcept
  split
  · exact sound_settle (.inl (h _ rfl))
  · exact .exit trivial

theorem sound_all {eval : Expr → Eval Object} {es : List Expr}
    (h : ∀ e ∈ es, Sound R p (Object.Every p) (eval e)) :
    Sound R p (fun xs => ∀ x ∈ xs, x.Every p) (all eval es) := by
  induction es with
  | nil => exact .pure (by simp)
  | cons e es ih =>
    have hfirst := h e List.mem_cons_self
    have hrest := ih fun x hx => h x (List.mem_cons_of_mem _ hx)
    rw [all]
    refine .bind hfirst fun o ho => .bind hrest fun xs hxs => .pure ?_
    exact List.forall_mem_cons.2 ⟨ho, hxs⟩

theorem sound_sequence {eval : Statement → Eval Object} {ss : List Statement}
    (h : ∀ st ∈ ss, Sound R p (Object.Every p) (eval st)) {result : Object}
    (hr : result.Every p) : Sound R p (Object.Every p) (sequence eval result ss) := by
  induction ss generalizing result with
  | nil => exact .pure hr
  | cons st ss ih =>
    have hfirst := h st List.mem_cons_self
    rw [sequence]
    refine .bind hfirst fun o ho => ih (fun x hx => ?_) ho
    exact h x (List.mem_cons_of_mem _ hx)

/-- Entries in place, with the property. -/
structure EntriesHold (p : Object → Prop) (es : List (Entry Object)) : Prop where
  inPlace : Entry.InPlace es
  contents : ∀ e ∈ es, e.key.Every p ∧ e.value.Every p

namespace EntriesHold

variable {es : List (Entry Object)}

theorem nil : EntriesHold p [] := ⟨.nil, by simp⟩

theorem insert (h : EntriesHold p es) {key value : Object} {k : HashKey}
    (hk : key.hashKey? = some k) (hkey : key.Every p) (hvalue : value.Every p) :
    EntriesHold p (Entry.insert ⟨k, key, value⟩ es) where
  inPlace := h.inPlace.insert hk
  contents e hmem := by
    rcases Entry.mem_insert hmem with rfl | hmem
    · exact ⟨hkey, hvalue⟩
    · exact h.contents e hmem

theorem mono (h : EntriesHold p es) {q : Object → Prop} (hq : ∀ o : Object, o.Every p → o.Every q) :
    EntriesHold q es where
  inPlace := h.inPlace
  contents e he := (h.contents e he).imp (hq _) (hq _)

theorem every_hash (h : EntriesHold p es) (hp : Plain p) : (Object.hash es).Every p :=
  Object.every_hash.2 ⟨hp.hash es h.inPlace, h.contents⟩

end EntriesHold

theorem sound_pairs {eval : Expr → Eval Object} {ps : List (Expr × Expr)}
    (h : ∀ q ∈ ps, Sound R p (Object.Every p) (eval q.1) ∧ Sound R p (Object.Every p) (eval q.2))
    {entries : List (Entry Object)} (he : EntriesHold p entries) :
    Sound R p (EntriesHold p) (pairs eval entries ps) := by
  induction ps generalizing entries with
  | nil => exact .pure he
  | cons q ps ih =>
    obtain ⟨hk, hv⟩ := h q List.mem_cons_self
    refine .bind hk fun key hkey => ?_
    split
    · exact .exit trivial
    · rename_i k hk
      refine .bind hv fun value hvalue => ih (fun q hq => h q (List.mem_cons_of_mem _ hq)) ?_
      exact he.insert hk hkey hvalue

abbrev SoundCall (R : ScopeId → Prop) (p : Object → Prop) {α : Type} (P : α → Prop) (x : Eval α) :
    Prop :=
  Keeps (Machine.Holds R p) (fun _ => False) P x

theorem outcome_holds {x : Eval Object} (h : Sound R p (Object.Every p) x) {m m' : Machine}
    (hm : m.Holds R p) {o : Object} (ho : outcome x m = some (o, m')) :
    m'.Holds R p ∧ ReplyHolds p o := by
  unfold outcome at ho
  split at ho
  · cases ho
    obtain ⟨hm', ho⟩ := h m hm _ _ (by assumption)
    exact ⟨hm', .inl ho⟩
  · rename_i s _ _
    cases ho
    obtain ⟨hm', hs⟩ := h m hm _ _ (by assumption)
    cases s with
    | error e => exact ⟨hm', .inr ⟨e, rfl⟩⟩
    | returning v => exact ⟨hm', .inl hs⟩
  · cases ho

theorem sound_concluded {x : Eval Object} (h : Sound R p (Object.Every p) x) :
    SoundCall R p (ReplyHolds p) (concluded x) := by
  intro m hm r m' hr
  obtain ⟨⟨o, m₁⟩, ho, heq⟩ := Option.map_eq_some_iff.1 hr
  cases heq
  exact outcome_holds h hm ho

theorem sound_print {E : Signal → Prop} (text : String) :
    Keeps (Machine.Holds R p) E (fun _ => True) (print text) :=
  .modify fun _ hm => hm.of_scopes rfl

theorem sound_bind {s : ScopeId} {name : String} {value : Object} (hv : value.Every p) :
    Sound R p (fun _ => True) (bind s name value) :=
  .modify fun _ hm => hm.set s name hv

theorem every_elements {b : Builtin} {o r : Object} {f : List Object → Object} (ho : o.Every p)
    (hf : ∀ xs : List Object, (∀ x ∈ xs, x.Every p) → (f xs).Every p)
    (h : (Builtin.elements b o).map f = .ok r) : r.Every p := by
  unfold Builtin.elements at h
  split at h
  · cases h
    exact hf _ (Object.every_array.1 ho).2
  · cases h

theorem sound_enter {E : Signal → Prop} {c : Closure} (hc : R c.scope) {arguments : List Object}
    (ha : ∀ x ∈ arguments, x.Every p) : Keeps (Machine.Holds R p) E R (enter c arguments) := by
  unfold enter
  refine .bind .get fun m hm => .bind (.modify fun m' hm' => ?_) fun _ _ => .pure ?_
  · exact (hm'.newInside hc).setAll _ fun b hb => ha b.2 (List.of_mem_zip hb).2
  · exact hm.later _ (Nat.le_refl _)

section Plain

variable (hp : Plain p)

include hp

theorem every_index {b i o : Object} (hb : b.Every p) (h : b.index i = .ok o) : o.Every p := by
  cases b with
  | array xs =>
    cases i with
    | integer n =>
      cases h
      unfold elementAt
      split
      · exact hp.every_null
      · cases hx : xs[n.toInt.toNat]? with
        | none => exact hp.every_null
        | some x => exact (Object.every_array.1 hb).2 x (List.mem_of_getElem? hx)
    | _ => cases h
  | hash es =>
    simp only [Object.index] at h
    split at h
    · rename_i k _
      cases h
      cases he : Entry.find? k es with
      | none => exact hp.every_null
      | some e => exact ((Object.every_hash.1 hb).2 e (List.mem_of_find?_eq_some he)).2
    · cases h
  | _ => cases h

theorem every_prefix {op : PrefixOp} {a o : Object} (h : op.apply a = .ok o) : o.Every p := by
  unfold PrefixOp.apply at h
  split at h
  · cases h
    exact hp.every_boolean _
  · cases h
    exact hp.every_integer _
  · cases h

theorem every_infix {op : InfixOp} {l r o : Object} (h : op.apply l r = .ok o) : o.Every p := by
  unfold InfixOp.apply at h
  split at h
  · unfold InfixOp.onIntegers at h
    split at h
    all_goals first
      | (cases h; first | exact hp.every_integer _ | exact hp.every_boolean _)
      | (split at h <;> cases h; exact hp.every_integer _)
  · unfold InfixOp.onStrings at h
    split at h
    · cases h
      exact hp.every_string _
    · cases h
  · unfold InfixOp.onOthers at h
    repeat' split at h
    all_goals cases h
    all_goals exact hp.every_boolean _

theorem every_result {b : Builtin} {arguments : List Object} {o : Object}
    (ha : ∀ x ∈ arguments, x.Every p) (h : b.result arguments = .ok o) : o.Every p := by
  unfold Builtin.result at h
  split at h
  · unfold Builtin.length at h
    split at h
    · cases h
      exact hp.every_integer _
    · cases h
      exact hp.every_integer _
    · cases h
  · refine every_elements (ha _ (by simp)) (fun xs hxs => ?_) h
    cases xs with
    | nil => exact hp.every_null
    | cons x xs => exact hxs x (by simp)
  · refine every_elements (ha _ (by simp)) (fun xs hxs => ?_) h
    cases hlast : xs.getLast? with
    | none => exact hp.every_null
    | some x => exact hxs x (List.mem_of_getLast? hlast)
  · refine every_elements (ha _ (by simp)) (fun xs hxs => ?_) h
    cases xs with
    | nil => exact hp.every_null
    | cons x xs => exact hp.every_array fun y hy => hxs y (by simp [hy])
  · rename_i l x
    refine every_elements (ha l (by simp)) (fun xs hxs => hp.every_array fun y hy => ?_) h
    rcases List.mem_append.1 hy with hy | hy
    · exact hxs y hy
    · exact ha y (by simp_all)
  · cases h
    exact hp.every_null
  · split at h
    · cases h
    · cases h
      exact hp.every_null

theorem reply_builtin {b : Builtin} {arguments : List Object}
    (ha : ∀ x ∈ arguments, x.Every p) : ReplyHolds p (.ofExcept (b.result arguments)) := by
  cases h : b.result arguments with
  | ok o => exact .inl (every_result hp ha h)
  | error e => exact .inr ⟨e, rfl⟩

end Plain

section Sturdy

variable (hp : Sturdy R p)

include hp

theorem sound_named {s : ScopeId} (hs : R s) (name : String) :
    Sound R p (Object.Every p) (named s name) := by
  unfold named
  refine .bind .get fun m hm => ?_
  split
  · exact sound_settle (.inl (hm.get? hs (by assumption)))
  · split
    · exact .pure (hp.plain.every_builtin _)
    · exact .exit trivial

theorem sound_closure {s : ScopeId} (hs : R s) (parameters : List Token) (body : Block) :
    Sound R p (Object.Every p) (closure s parameters body) := by
  unfold closure
  refine .bind .get fun m _ => .bind (.modify fun _ hm => hm.of_scopes rfl) fun _ _ => ?_
  exact .pure (hp.every_function hs)

end Sturdy

structure Steady (R : ScopeId → Prop) (p : Object → Prop) (n : Nat) : Prop where
  expression : ∀ s e, R s → Sound R p (Object.Every p) (expression n s e)
  statement : ∀ s st, R s → Sound R p (Object.Every p) (statement n s st)
  apply : ∀ f arguments, f.Every p → (∀ x ∈ arguments, x.Every p) →
    SoundCall R p (ReplyHolds p) (apply n f arguments)

theorem Steady.sequence {n : Nat} (h : Steady R p n) (hp : Sturdy R p) {s : ScopeId} (hs : R s)
    (ss : List Statement) : Sound R p (Object.Every p) (sequence (Eval.statement n s) .null ss) :=
  sound_sequence (fun st _ => h.statement s st hs) hp.plain.every_null

theorem steady_expression (hp : Sturdy R p) {n : Nat} (ih : Steady R p n) (s : ScopeId) (e : Expr)
    (hs : R s) : Sound R p (Object.Every p) (expression (n + 1) s e) := by
  have part (x : Expr) := ih.expression s x hs
  cases e with
  | identifier name => exact sound_named hp hs name.literal
  | integer token value => exact .pure (hp.plain.every_integer _)
  | boolean token value => exact .pure (hp.plain.every_boolean _)
  | string token => exact .pure (hp.plain.every_string _)
  | prefixed token op operand =>
    rw [expression]
    refine .bind (part operand) fun o _ => sound_settleExcept fun o' h => ?_
    exact every_prefix hp.plain h
  | binary token op left right =>
    rw [expression]
    refine .bind (part left) fun l _ => .bind (part right) fun r _ => ?_
    exact sound_settleExcept fun o h => every_infix hp.plain h
  | conditional token condition consequence alternative =>
    unfold expression
    refine .bind (part condition) fun o _ => ?_
    split
    · exact ih.sequence hp hs _
    · cases alternative with
      | none => exact .pure hp.plain.every_null
      | some block => exact ih.sequence hp hs _
  | function token parameters body => exact sound_closure hp hs parameters body
  | call token callee arguments =>
    rw [expression]
    refine .bind (part callee) fun f hf => .bind (sound_all fun x _ => part x) fun xs hxs => ?_
    have hcall : Sound R p (ReplyHolds p) (Eval.apply n f xs) :=
      (ih.apply f xs hf hxs).mono (fun _ h => h) fun _ h => h.elim
    exact .bind hcall fun o ho => sound_settle ho
  | array token elements =>
    rw [expression]
    exact .bind (sound_all fun x _ => part x) fun xs hxs => .pure (hp.plain.every_array hxs)
  | hash token ps =>
    rw [expression]
    refine .bind (sound_pairs (fun q _ => ⟨part q.1, part q.2⟩) .nil) fun es hes => .pure ?_
    exact hes.every_hash hp.plain
  | index token base position =>
    rw [expression]
    refine .bind (part base) fun b hb => .bind (part position) fun i _ => ?_
    exact sound_settleExcept fun o h => every_index hp.plain hb h

theorem steady_statement (hp : Sturdy R p) {n : Nat} (ih : Steady R p n) (s : ScopeId)
    (st : Statement) (hs : R s) : Sound R p (Object.Every p) (statement (n + 1) s st) := by
  cases st with
  | binding token name value =>
    rw [statement]
    refine .bind (ih.expression s value hs) fun o ho => .bind (sound_bind ho) fun _ _ => ?_
    exact .pure hp.plain.every_null
  | returning token value =>
    cases value with
    | none => exact .exit hp.plain.every_null
    | some value =>
      rw [statement]
      exact .bind (ih.expression s value hs) fun o ho => .exit ho
  | expression token value => exact ih.expression s value hs

theorem steady_apply (hp : Sturdy R p) {n : Nat} (ih : Steady R p n) (f : Object)
    (arguments : List Object) (hf : f.Every p) (ha : ∀ x ∈ arguments, x.Every p) :
    SoundCall R p (ReplyHolds p) (apply (n + 1) f arguments) := by
  cases f with
  | function c =>
    have hc : R c.scope := (hp.function c).1 hf.self
    rw [Eval.apply]
    split
    · refine .bind (sound_enter hc ha) fun s hs => ?_
      exact sound_concluded (ih.sequence hp hs c.body.statements)
    · exact .pure (.inr ⟨_, rfl⟩)
  | builtin b =>
    rw [Eval.apply]
    exact .bind (sound_print _) fun _ _ => .pure (reply_builtin hp.plain ha)
  | _ => exact .pure (.inr ⟨_, rfl⟩)

theorem steady (hp : Sturdy R p) (n : Nat) : Steady R p n := by
  induction n with
  | zero => exact ⟨fun _ _ _ => .exhausted, fun _ _ _ => .exhausted, fun _ _ _ _ => .exhausted⟩
  | succ n ih => exact ⟨steady_expression hp ih, steady_statement hp ih, steady_apply hp ih⟩

end Eval

end Treewalk
