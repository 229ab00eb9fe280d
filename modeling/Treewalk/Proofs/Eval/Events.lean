import Treewalk.Proofs.Eval.Scopes
import Treewalk.Proofs.Eval.Signals

/-!
# Names bound and names looked up

The record of a run tells which names were bound and which were looked up, in the order of time.
After any run a scope holds what was written into it last, and every look-up has found what was
written last by then.
-/

namespace Treewalk

/-- What happens to a name. -/
inductive Event
  | wrote (s : ScopeId) (name : String) (value : Object)
  | looked (s : ScopeId) (name : String) (reply : Object)

/-- What the event writes under a name of a scope. -/
def Event.written? (k : ScopeId) (name : String) : Event → Option Object
  | wrote s n value => if s = k ∧ n = name then some value else none
  | looked _ _ _ => none

/-- The value most recently written under a name of a scope. -/
def lastWritten (es : List Event) (k : ScopeId) (name : String) : Option Object :=
  es.reverse.findSome? (Event.written? k name)

theorem lastWritten_append (es fs : List Event) (k : ScopeId) (name : String) :
    lastWritten (es ++ fs) k name = (lastWritten fs k name).or (lastWritten es k name) := by
  rw [lastWritten, List.reverse_append, List.findSome?_append]
  rfl

theorem lastWritten_wrote (s k : ScopeId) (name other : String) (value : Object) :
    lastWritten [.wrote s name value] k other =
      if s = k ∧ name = other then some value else none := by
  simp only [lastWritten, List.reverse_singleton, List.findSome?_singleton, Event.written?]

theorem lastWritten_looked (s k : ScopeId) (name other : String) (reply : Object) :
    lastWritten [.looked s name reply] k other = none := rfl

/-- What a name gives that stands for `bound`. A name that stands for nothing gives the built-in
function of that name, if there is one. -/
def answer (name : String) : Option Object → Object
  | some o => o
  | none =>
    match Builtin.named? name with
    | some b => .builtin b
    | none => .error (.unknownIdentifier name)

theorem answer_eq_builtin_iff {name : String} {bound : Option Object} {b : Builtin} :
    answer name bound = .builtin b ↔
      bound = some (.builtin b) ∨ bound = none ∧ Builtin.named? name = some b := by
  cases bound with
  | some o => simp [answer]
  | none => cases hb : Builtin.named? name <;> simp [answer, hb]

theorem Eval.named_apply (s : ScopeId) (name : String) (m : Machine) :
    named s name m = settle (answer name (m.get? s name)) m := by
  rw [named, Run.bind_ok (Run.get_apply m)]
  cases m.get? s name with
  | some o => rfl
  | none =>
    unfold answer
    dsimp only
    cases Builtin.named? name <;> rfl

/-! ## The events of a record -/

namespace Trace

/-- The scope of a block. -/
def scope? : Trace → Option ScopeId
  | done (.block s _) _ _ _ => some s
  | _ => none

end Trace

/-- Names that are bound to values one after another. -/
def writes (s : ScopeId) (bs : List (String × Object)) : List Event :=
  bs.map fun b => .wrote s b.1 b.2

/-- The parameters are bound in the scope of the body, unless it was not run. -/
def parameterEvents (c : Closure) (arguments : List Object) (inner : List Trace) : List Event :=
  match inner.head?.bind Trace.scope? with
  | some s => writes s ((c.parameters.map (·.literal)).zip arguments)
  | none => []

/-- A `let` that no signal has ended binds what its expression gave. -/
def bindingEvents (s : ScopeId) (name : String) (reply : Object) (inner : List Trace) :
    List Event :=
  match reply.isSignal, inner.getLast? with
  | false, some t => [.wrote s name t.reply]
  | _, _ => []

mutual

def Trace.events : Trace → List Event
  | .done task reply _ inner =>
    match task with
    | .expression s (.identifier name) => [.looked s name.literal reply]
    | .statement s (.binding _ name _) =>
      eventsAll inner ++ bindingEvents s name.literal reply inner
    | .call (.function c) arguments => parameterEvents c arguments inner ++ eventsAll inner
    | _ => eventsAll inner

def eventsAll : List Trace → List Event
  | [] => []
  | t :: ts => t.events ++ eventsAll ts

end

theorem eventsAll_append (ts us : List Trace) :
    eventsAll (ts ++ us) = eventsAll ts ++ eventsAll us := by
  induction ts with
  | nil => rfl
  | cons t ts ih => rw [List.cons_append, eventsAll, eventsAll, ih, List.append_assoc]

theorem eventsAll_singleton (t : Trace) : eventsAll [t] = t.events := List.append_nil _

/-! ## Machines and their events -/

namespace Machine

/-- What a scope holds under a name after the events. -/
def holding (m : Machine) (es : List Event) (k : ScopeId) (name : String) : Option Object :=
  (lastWritten es k name).or ((m.bindings k).get? name)

/-- The events lead from `m` to `m'`. Scopes stay where they are, and a look-up gives what the
nearest scope holds that holds the name by then. -/
structure Recorded (m : Machine) (es : List Event) (m' : Machine) : Prop where
  size : m.scopes.size ≤ m'.scopes.size
  enclosing : ∀ k < m.scopes.size, m'.enclosing k = m.enclosing k
  bindings : ∀ k name, (m'.bindings k).get? name = m.holding es k name
  there : ∀ s name o, .looked s name o ∈ es → s < m'.scopes.size
  looked : ∀ before s name o after, es = before ++ .looked s name o :: after →
    o = answer name ((m'.chain s).findSome? (m.holding before · name))

theorem holding_nil (m : Machine) (k : ScopeId) (name : String) :
    m.holding [] k name = (m.bindings k).get? name := rfl

namespace Recorded

variable {m m' m'' : Machine} {es fs : List Event}

theorem chain (h : m.Recorded es m') {k : ScopeId} (hk : k < m.scopes.size) :
    m'.chain k = m.chain k := by
  rw [Machine.chain, Machine.chain, h.enclosing k hk]

theorem bound (h : m.Recorded es m') {k : ScopeId} {name : String}
    (hk : (m.bindings k).get? name ≠ none) : (m'.bindings k).get? name ≠ none := by
  rw [h.bindings, holding]
  intro hnone
  exact hk (Option.or_eq_none_iff.1 hnone).2

theorem holding (h : m.Recorded es m') (fs : List Event) (k : ScopeId) (name : String) :
    m'.holding fs k name = m.holding (es ++ fs) k name := by
  rw [Machine.holding, h.bindings, Machine.holding, Machine.holding, lastWritten_append,
    Option.or_assoc]

theorem trans (h : m.Recorded es m') (h' : m'.Recorded fs m'') :
    m.Recorded (es ++ fs) m'' where
  size := Nat.le_trans h.size h'.size
  enclosing k hk :=
    (h'.enclosing k (Nat.lt_of_lt_of_le hk h.size)).trans (h.enclosing k hk)
  bindings k name := by rw [h'.bindings, h.holding]
  there s name o hmem := by
    rcases List.mem_append.1 hmem with hmem | hmem
    · exact Nat.lt_of_lt_of_le (h.there s name o hmem) h'.size
    · exact h'.there s name o hmem
  looked before s name o after heq := by
    rcases List.append_eq_append_iff.1 heq with ⟨more, rfl, hfs⟩ | ⟨more, hes, hafter⟩
    · -- The look-up is one of the later events.
      have hlooked := h'.looked more s name o after hfs
      simpa only [h.holding] using hlooked
    · cases more with
      | nil =>
        have hlooked := h'.looked [] s name o after hafter.symm
        rw [List.append_nil] at hes
        simpa only [h.holding, List.append_nil, hes] using hlooked
      | cons e more =>
        obtain ⟨rfl, -⟩ := List.cons.inj hafter
        rw [h'.chain (h.there s name o (by simp [hes]))]
        exact h.looked before s name o more hes

end Recorded

theorem recorded_of_scopes {m m' : Machine} (h : m'.scopes = m.scopes) : m.Recorded [] m' where
  size := by simp [h]
  enclosing k _ := by simp only [Machine.enclosing, h]
  bindings k name := by simp only [holding_nil, Machine.bindings, h]
  there _ _ _ hmem := nomatch hmem
  looked before _ _ _ _ heq := by cases before <;> cases heq

theorem recorded_refl (m : Machine) : m.Recorded [] m := recorded_of_scopes rfl

theorem recorded_set {m : Machine} {s : ScopeId} (hs : s < m.scopes.size) (name : String)
    (value : Object) : m.Recorded [.wrote s name value] (m.set s name value) where
  size := by simp
  enclosing k _ := enclosing_set m s k name value
  bindings k other := by
    rw [bindings_set, holding, lastWritten_wrote]
    by_cases hk : s = k
    · subst hk
      by_cases hname : name = other
      · simp [hs, hname, Bindings.get?_set_self]
      · simp [hs, hname, Bindings.get?_set_of_ne (Ne.symm hname)]
    · simp [hk]
  there _ _ _ hmem := by simp at hmem
  looked before _ _ _ _ heq := by
    cases before with
    | nil => cases heq
    | cons e before => cases before <;> cases heq

theorem recorded_setAll {m : Machine} {s : ScopeId} (hs : s < m.scopes.size)
    (bs : List (String × Object)) : m.Recorded (writes s bs) (m.setAll s bs) := by
  induction bs generalizing m with
  | nil => exact recorded_refl m
  | cons b bs ih =>
    have hset := recorded_set hs b.1 b.2
    exact hset.trans (ih (Nat.lt_of_lt_of_le hs hset.size))

theorem recorded_newInside (m : Machine) (s : ScopeId) : m.Recorded [] (m.newInside s) where
  size := by simp
  enclosing k hk := by rw [enclosing_newInside, if_neg (Nat.ne_of_lt hk)]
  bindings k name := by rw [bindings_newInside, holding_nil]
  there _ _ _ hmem := nomatch hmem
  looked before _ _ _ _ heq := by cases before <;> cases heq

theorem recorded_newRoot (m : Machine) : m.Recorded [] m.newRoot where
  size := by simp
  enclosing k _ := enclosing_newRoot m k
  bindings k name := by rw [bindings_newRoot, holding_nil]
  there _ _ _ hmem := nomatch hmem
  looked before _ _ _ _ heq := by cases before <;> cases heq

theorem recorded_looked {m : Machine} {s : ScopeId} (hs : s < m.scopes.size) (name : String) :
    m.Recorded [.looked s name (answer name (m.get? s name))] m where
  size := Nat.le_refl _
  enclosing _ _ := rfl
  bindings k other := by simp only [holding, lastWritten_looked, Option.none_or]
  there _ _ _ hmem := by
    cases List.mem_singleton.1 hmem
    exact hs
  looked before _ _ _ _ heq := by
    cases before with
    | nil =>
      cases heq
      rfl
    | cons e before => cases before <;> cases heq

end Machine

/-! ## Evaluation -/

namespace Traced

open Eval Machine

variable {α β : Type}

/-- On machines with at least `n` scopes the run adds to the record what it does to names. -/
def Records (n : Nat) (x : Traced α) : Prop :=
  ∀ m ts, n ≤ m.scopes.size → x.Meets (m, ts) fun _ u =>
    ∃ inner, u.2 = ts ++ inner ∧ m.Recorded (eventsAll inner) u.1

/-- A run that changes nothing but scopes, and tells of no name. -/
def Quiet (y : Eval α) : Prop := Run.Relates (fun m m' => m.Recorded [] m') y

namespace Records

variable {n : Nat} {x : Traced α}

theorem pure {a : α} : Records n (Pure.pure a) := by
  intro m ts _ r u hr
  cases hr
  exact ⟨[], (List.append_nil ts).symm, recorded_refl m⟩

theorem exit {s : Signal} : Records n (Run.exit s : Traced α) := by
  intro m ts _ r u hr
  cases hr
  exact ⟨[], (List.append_nil ts).symm, recorded_refl m⟩

theorem exhausted : Records n (Run.exhausted : Traced α) := by
  intro m ts _ r u hr
  cases hr

theorem bind {f : α → Traced β} (hx : Records n x) (hf : ∀ a, Records n (f a)) :
    Records n (x >>= f) := by
  intro m ts hn r u hr
  rcases Run.bind_ends hr with ⟨s, hs, -⟩ | ⟨a, ⟨m₁, ts₁⟩, ha, hfa⟩
  · exact hx m ts hn _ _ hs
  · obtain ⟨inner, rfl, hm⟩ := hx m ts hn _ _ ha
    obtain ⟨more, hmore, hm'⟩ := hf a m₁ _ (Nat.le_trans hn hm.size) _ _ hfa
    refine ⟨inner ++ more, by rw [hmore, List.append_assoc], ?_⟩
    rw [eventsAll_append]
    exact hm.trans hm'

theorem lift {y : Eval α} (hy : Quiet y) : Records n (Traced.lift y) := by
  intro m ts _ r u hr
  obtain ⟨⟨r', m'⟩, hy', heq⟩ := Option.map_eq_some_iff.1 hr
  cases heq
  exact ⟨[], (List.append_nil ts).symm, hy m r m' hy'⟩

theorem concluded {x : Traced Object} (hx : Records n x) : Records n (concluded x) := by
  intro m ts hn r u hr
  obtain ⟨⟨r', u'⟩, hx', heq⟩ := Option.map_eq_some_iff.1 hr
  have hu : u = u' := by cases r' <;> cases heq <;> rfl
  exact hu ▸ hx m ts hn r' u' hx'

theorem record {task : Task} {x : Traced Object} (hx : Records n x)
    (htask : ∀ reply stop inner, (Trace.done task reply stop inner).events = eventsAll inner) :
    Records n (record task x) := by
  rintro m ts hn r ⟨m', ts'⟩ hr
  obtain ⟨inner, hinner, rfl⟩ := record_ends hr
  obtain ⟨_, rfl, hm⟩ := hx m [] hn _ _ hinner
  refine ⟨_, rfl, ?_⟩
  rw [eventsAll_singleton, htask]
  exact hm

end Records

theorem records_settle {n : Nat} (o : Object) : Records n (settle o) := by
  unfold settle
  split
  · exact .exit
  · exact .exit
  · exact .pure

theorem records_settleExcept {n : Nat} (x : Except RuntimeError Object) :
    Records n (settleExcept x) := by
  unfold settleExcept
  split
  · exact records_settle _
  · exact .exit

theorem records_all {n : Nat} {eval : Expr → Traced Object} (h : ∀ e, Records n (eval e))
    (es : List Expr) : Records n (all eval es) := by
  induction es with
  | nil => exact .pure
  | cons e es ih => exact .bind (h e) fun o => .bind ih fun xs => .pure

theorem records_pairs {n : Nat} {eval : Expr → Traced Object} (h : ∀ e, Records n (eval e))
    (ps : List (Expr × Expr)) (entries : List (Entry Object)) :
    Records n (pairs eval entries ps) := by
  induction ps generalizing entries with
  | nil => exact .pure
  | cons p ps ih =>
    refine .bind (h p.1) fun key => ?_
    cases key.hashKey? with
    | none => exact .exit
    | some k => exact .bind (h p.2) fun value => ih _

theorem records_sequence {n : Nat} {eval : Statement → Traced Object}
    (h : ∀ st, Records n (eval st)) (ss : List Statement) (result : Object) :
    Records n (sequence eval result ss) := by
  induction ss generalizing result with
  | nil => exact .pure
  | cons st ss ih => exact .bind (h st) fun o => ih o

theorem records_block {n : Nat} {eval : Statement → Traced Object}
    (h : ∀ st, Records n (eval st)) (s : ScopeId) (b : Block) : Records n (block eval s b) :=
  (records_sequence h b.statements .null).record fun _ _ _ => rfl

theorem quiet_closure (s : ScopeId) (parameters : List Token) (body : Block) :
    Quiet (closure s parameters body) := by
  intro m r m' hr
  cases hr
  exact recorded_of_scopes rfl

theorem quiet_print (text : String) : Quiet (print text) := by
  intro m r m' hr
  cases hr
  exact recorded_of_scopes rfl

theorem named_answer {s : ScopeId} {name : String} {m m' : Machine} {r : Except Signal Object}
    (h : named s name m = some (r, m')) : m' = m ∧ replyOf r = answer name (m.get? s name) := by
  rw [named_apply] at h
  generalize answer name (m.get? s name) = o at h ⊢
  cases o <;> cases h <;> exact ⟨rfl, rfl⟩

theorem records_identifier (s : ScopeId) (name : Token) :
    Records (s + 1) (record (.expression s (.identifier name)) (lift (named s name.literal))) := by
  rintro m ts hs r ⟨m', ts'⟩ hr
  obtain ⟨inner, hinner, rfl⟩ := record_ends hr
  obtain ⟨⟨r', m₁⟩, hnamed, heq⟩ := Option.map_eq_some_iff.1 hinner
  cases heq
  obtain ⟨rfl, hreply⟩ := named_answer hnamed
  refine ⟨_, rfl, ?_⟩
  rw [eventsAll_singleton, Trace.events, hreply]
  exact recorded_looked hs name.literal

theorem expression_ends {n : Nat} {s : ScopeId} {e : Expr} {m m' : Machine} {ts ts' : List Trace}
    {r : Except Signal Object} (h : expression n s e (m, ts) = some (r, m', ts')) :
    ∃ t, ts' = ts ++ [t] ∧ t.reply = replyOf r := by
  cases n with
  | zero => cases h
  | succ n =>
    obtain ⟨inner, -, rfl⟩ := @record_ends (.expression s e) _ _ _ _ _ _ h
    exact ⟨_, rfl, rfl⟩

structure Recording (n : Nat) : Prop where
  expression : ∀ s e, Records (s + 1) (expression n s e)
  statement : ∀ s st, Records (s + 1) (statement n s st)
  apply : ∀ f arguments, Records 0 (apply n f arguments)

theorem Records.mono {n k : Nat} {x : Traced α} (h : Records n x) (hnk : n ≤ k) : Records k x :=
  fun m ts hk => h m ts (Nat.le_trans hnk hk)

theorem recording_expression {n : Nat} (ih : Recording n) (s : ScopeId) (e : Expr) :
    Records (s + 1) (expression (n + 1) s e) := by
  have part := ih.expression s
  have branch (b : Block) := records_block (ih.statement s) s b
  cases e with
  | identifier name => exact records_identifier s name
  | integer token value => exact Records.pure.record fun _ _ _ => rfl
  | boolean token value => exact Records.pure.record fun _ _ _ => rfl
  | string token => exact Records.pure.record fun _ _ _ => rfl
  | prefixed token op operand =>
    refine .record ?_ fun _ _ _ => rfl
    exact .bind (part operand) fun o => records_settleExcept _
  | binary token op left right =>
    refine .record ?_ fun _ _ _ => rfl
    refine .bind (part left) fun l => .bind (part right) fun r => ?_
    exact records_settleExcept _
  | conditional token condition consequence alternative =>
    refine .record (.bind (part condition) fun o => ?_) fun _ _ _ => rfl
    split
    · exact branch consequence
    · cases alternative with
      | none => exact .pure
      | some b => exact branch b
  | function token parameters body =>
    exact (Records.lift (quiet_closure s parameters body)).record fun _ _ _ => rfl
  | call token callee arguments =>
    refine .record ?_ fun _ _ _ => rfl
    refine .bind (part callee) fun f => .bind (records_all part arguments) fun xs => ?_
    exact .bind ((ih.apply f xs).mono (Nat.zero_le _)) fun o => records_settle o
  | array token elements =>
    refine .record ?_ fun _ _ _ => rfl
    exact .bind (records_all part elements) fun xs => .pure
  | hash token ps =>
    refine .record ?_ fun _ _ _ => rfl
    exact .bind (records_pairs part ps []) fun es => .pure
  | index token base position =>
    refine .record ?_ fun _ _ _ => rfl
    refine .bind (part base) fun b => .bind (part position) fun i => ?_
    exact records_settleExcept _

theorem records_binding {n : Nat} (ih : Recording n) (s : ScopeId) (token name : Token)
    (value : Expr) :
    Records (s + 1) (statement (n + 1) s (.binding token name value)) := by
  rintro m ts hs r ⟨m', ts'⟩ hr
  obtain ⟨inner, hinner, rfl⟩ :=
    @record_ends (.statement s (.binding token name value)) _ _ _ _ _ _ hr
  refine ⟨_, rfl, ?_⟩
  rw [eventsAll_singleton, Trace.events]
  rcases Run.bind_ends hinner with ⟨signal, hvalue, rfl⟩ | ⟨o, ⟨m₁, ts₁⟩, hvalue, hrest⟩
  · obtain ⟨_, rfl, hm⟩ := ih.expression s value m [] hs _ _ hvalue
    have hnothing : bindingEvents s name.literal (replyOf (.error signal)) inner = [] := by
      cases signal <;> rfl
    rw [hnothing, List.append_nil]
    exact hm
  · obtain ⟨_, rfl, hm⟩ := ih.expression s value m [] hs _ _ hvalue
    obtain ⟨t, ht, hreply⟩ := expression_ends hvalue
    cases hrest
    have hwrites : bindingEvents s name.literal (replyOf (.ok .null)) inner =
        [.wrote s name.literal o] := by
      simp only [List.nil_append] at ht
      rw [ht]
      simp [bindingEvents, replyOf, Object.isSignal, hreply]
    rw [hwrites]
    exact hm.trans (recorded_set (Nat.lt_of_lt_of_le hs hm.size) name.literal o)

theorem recording_statement {n : Nat} (ih : Recording n) (s : ScopeId) (st : Statement) :
    Records (s + 1) (statement (n + 1) s st) := by
  cases st with
  | binding token name value => exact records_binding ih s token name value
  | returning token value =>
    refine .record ?_ fun _ _ _ => rfl
    cases value with
    | none => exact .exit
    | some value => exact .bind (ih.expression s value) fun o => .exit
  | expression token value =>
    exact (ih.expression s value).record fun _ _ _ => rfl

theorem records_function {n : Nat} (ih : Recording n) (c : Closure) (arguments : List Object) :
    Records 0 (apply (n + 1) (.function c) arguments) := by
  rintro m ts - r ⟨m', ts'⟩ hr
  rw [Traced.apply] at hr
  obtain ⟨inner, hinner, rfl⟩ := record_ends hr
  refine ⟨_, rfl, ?_⟩
  rw [eventsAll_singleton, Trace.events]
  split at hinner
  · let bs := (c.parameters.map (·.literal)).zip arguments
    have hnew : m.nextScope < (m.newInside c.scope).scopes.size := by
      simp [Machine.nextScope]
    have hentered : m.Recorded (writes m.nextScope bs)
        ((m.newInside c.scope).setAll m.nextScope bs) :=
      (recorded_newInside m c.scope).trans (recorded_setAll hnew bs)
    rcases Run.bind_ends hinner with ⟨signal, henter, -⟩ | ⟨s, u, henter, hbody⟩
    · cases henter
    cases henter
    obtain ⟨⟨r', m₁, ts₁⟩, hblock, heq⟩ := Option.map_eq_some_iff.1 hbody
    have hu : (m', inner) = (m₁, ts₁) := by cases r' <;> cases heq <;> rfl
    cases hu
    -- the block of the body is the only task inside
    have hrun := records_block (ih.statement m.nextScope) m.nextScope c.body _ [] ?_ _ _ hblock
    · obtain ⟨_, rfl, hm⟩ := hrun
      obtain ⟨more, -, hmore⟩ := record_ends hblock
      have hparameters : parameterEvents c arguments inner = writes m.nextScope bs := by
        simp only [List.nil_append] at hmore
        rw [hmore]
        rfl
      rw [hparameters]
      exact hentered.trans hm
    · exact Nat.lt_of_lt_of_le hnew (recorded_setAll hnew bs).size
  · cases hinner
    exact recorded_refl m

theorem recording_apply {n : Nat} (ih : Recording n) (f : Object) (arguments : List Object) :
    Records 0 (apply (n + 1) f arguments) := by
  cases f with
  | function c => exact records_function ih c arguments
  | builtin b =>
    have hbody : Records 0 (lift (Eval.print (b.printed arguments)) >>= fun _ =>
        (Pure.pure (.ofExcept (b.result arguments)) : Traced Object)) :=
      .bind (.lift (quiet_print _)) fun _ => .pure
    exact hbody.record fun _ _ _ => rfl
  | _ => exact Records.pure.record fun _ _ _ => rfl

theorem recording (n : Nat) : Recording n := by
  induction n with
  | zero => exact ⟨fun _ _ => .exhausted, fun _ _ => .exhausted, fun _ _ => .exhausted⟩
  | succ n ih => exact ⟨recording_expression ih, recording_statement ih, recording_apply ih⟩

theorem program_recorded {n : Nat} {s : ScopeId} {p : Program} {m m' : Machine} {o : Object}
    {ts : List Trace} (hs : s < m.scopes.size) (h : program n s p m = some (o, m', ts)) :
    m.Recorded (eventsAll ts) m' := by
  unfold program at h
  split at h
  · rename_i r m₁ ts₁ hrun
    cases h
    have hsequence := records_sequence ((recording n).statement s) p .null
    obtain ⟨_, rfl, hm⟩ := hsequence.concluded m [] hs _ _ hrun
    exact hm
  · cases h

theorem apply_recorded {n : Nat} {f : Object} {arguments : List Object} {m m' : Machine}
    {r : Except Signal Object} {ts : List Trace}
    (h : apply n f arguments (m, []) = some (r, m', ts)) : m.Recorded (eventsAll ts) m' := by
  obtain ⟨_, rfl, hm⟩ := (recording n).apply f arguments m [] (Nat.zero_le _) _ _ h
  exact hm

end Traced

end Treewalk
