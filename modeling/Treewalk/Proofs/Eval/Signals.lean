import Treewalk.Proofs.Eval.Invariants
import Treewalk.Proofs.Eval.Trace

/-!
# Signals end what they meet

The first error of a run is the result of the run. A return gives its value to the innermost call
around it, or else ends the program. Nothing else runs in between.
-/

namespace Treewalk

/-! ## Places in a record -/

namespace Trace

/-- The task is somewhere in the record. -/
inductive Within (c : Trace) : List Trace → Prop
  | here {ts : List Trace} : c ∈ ts → Within c ts
  | inside {ts : List Trace} {t : Trace} : t ∈ ts → Within c t.inner → Within c ts

/-- The task is in the record without a call around it. -/
inductive InBody (c : Trace) : List Trace → Prop
  | here {ts : List Trace} : c ∈ ts → InBody c ts
  | inside {ts : List Trace} {t : Trace} :
    t ∈ ts → t.task.isCall = false → InBody c t.inner → InBody c ts

/-- No task began after this one was done. -/
inductive Last (c : Trace) : List Trace → Prop
  | here {before : List Trace} : Last c (before ++ [c])
  | inside {before : List Trace} {t : Trace} : Last c t.inner → Last c (before ++ [t])

theorem InBody.within {c : Trace} {ts : List Trace} (h : c.InBody ts) : c.Within ts := by
  induction h with
  | here hmem => exact .here hmem
  | inside hmem _ _ ih => exact .inside hmem ih

theorem within_append {c : Trace} {ts us : List Trace} (h : c.Within (ts ++ us)) :
    c.Within ts ∨ c.Within us := by
  cases h with
  | here h => exact (List.mem_append.1 h).imp .here .here
  | inside ht hc => exact (List.mem_append.1 ht).imp (.inside · hc) (.inside · hc)

theorem within_singleton {c t : Trace} (h : c.Within [t]) : c = t ∨ c.Within t.inner := by
  cases h with
  | here h => exact .inl (List.mem_singleton.1 h)
  | inside ht hc => exact .inr (List.mem_singleton.1 ht ▸ hc)

/-- Neither a signal nor a call is among what was run. -/
def Calm (ts : List Trace) : Prop := ∀ c ∈ ts, c.reply.isSignal = false ∧ c.task.isCall = false

/-- A signal or a call is the last that was run, on the machine now; what it gave makes up the
reply. -/
def Stops (g : Object → Object) (ts : List Trace) (stop : Machine) (reply : Object) : Prop :=
  ∀ before c after, ts = before ++ c :: after → c.reply.isSignal = true ∨ c.task.isCall = true →
    after = [] ∧ stop = c.stop ∧ reply = g c.reply

end Trace

/-- What a task makes of a reply that ends it: calls take signals off. -/
def Task.gives (task : Task) (o : Object) : Object := if task.isCall then o.unwrapped else o

namespace Trace

def Ended (g : Object → Object) (ts : List Trace) (stop : Machine) (reply : Object) : Prop :=
  Calm ts ∨ ∃ before c, ts = before ++ [c] ∧ Calm before ∧ stop = c.stop ∧ reply = g c.reply

theorem Ended.stops {g : Object → Object} {ts : List Trace} {stop : Machine} {reply : Object}
    (h : Ended g ts stop reply) : Stops g ts stop reply := by
  rintro before c after heq hc
  have notCalm : ∀ us : List Trace, c ∈ us → ¬ Calm us := by
    intro us hmem hcalm
    have := hcalm c hmem
    simp_all
  rcases h with hcalm | ⟨init, last, rfl, hcalm, hstop, hreply⟩
  · exact absurd hcalm (notCalm ts (by simp [heq]))
  · rcases List.eq_nil_or_concat after with rfl | ⟨rest, x, rfl⟩
    · obtain ⟨rfl, hlast⟩ := List.append_inj' heq rfl
      obtain rfl : last = c := by simpa using hlast
      exact ⟨rfl, hstop, hreply⟩
    · have hinit : init = before ++ c :: rest := by
        have : init ++ [last] = (before ++ c :: rest) ++ [x] := by simpa using heq
        exact (List.append_inj' this rfl).1
      exact absurd hcalm (notCalm init (by simp [hinit]))

structure Sane (R : ScopeId → Prop) (p : Object → Prop) (t : Trace) : Prop where
  given : ∀ f arguments, t.task = .call f arguments → f.Every p ∧ ∀ x ∈ arguments, x.Every p
  holds : t.stop.Holds R p
  stops : Stops t.task.gives t.inner t.stop t.reply
  reply : t.reply.Every p ∨ (∃ e, t.reply = .error e) ∨
    t.task.isCall = false ∧ ∃ v : Object, t.reply = .returning v ∧ v.Every p

def AllSane (R : ScopeId → Prop) (p : Object → Prop) (ts : List Trace) : Prop :=
  ∀ c : Trace, c.Within ts → c.Sane R p

variable {R : ScopeId → Prop} {p : Object → Prop}

theorem AllSane.snoc {ts : List Trace} {t : Trace} (hts : AllSane R p ts) (ht : t.Sane R p)
    (hinner : AllSane R p t.inner) : AllSane R p (ts ++ [t]) := by
  intro c hc
  rcases within_append hc with hc | hc
  · exact hts c hc
  · rcases within_singleton hc with rfl | hc
    · exact ht
    · exact hinner c hc

theorem allSane_nil : AllSane R p [] := by
  intro c hc
  cases hc <;> simp_all

end Trace

/-! ## Recorded runs -/

namespace Traced

open Trace Eval

variable {R : ScopeId → Prop} {p : Object → Prop} {α β : Type}

/-- Runs in which only the end can be a signal. -/
def Orderly (R : ScopeId → Prop) (p : Object → Prop) (P : α → Prop) (x : Traced α) : Prop :=
  ∀ m ts, m.Holds R p → Calm ts → AllSane R p ts → x.Meets (m, ts) fun r u =>
    u.1.Holds R p ∧ AllSane R p u.2 ∧ match r with
      | .ok a => P a ∧ Calm u.2
      | .error s => SignalHolds p s ∧ Ended id u.2 u.1 s.object

def Closes (R : ScopeId → Prop) (p : Object → Prop) (g : Object → Object) (x : Traced Object) :
    Prop :=
  ∀ m ts, m.Holds R p → Calm ts → AllSane R p ts → x.Meets (m, ts) fun r u =>
    u.1.Holds R p ∧ AllSane R p u.2 ∧ Ended g u.2 u.1 (replyOf r)

section Rules

variable {P : α → Prop} {Q : β → Prop} {g : Object → Object}

theorem Orderly.pure {a : α} (h : P a) : Orderly R p P (Pure.pure a) := by
  intro m ts hm hcalm hsane r u hr
  cases hr
  exact ⟨hm, hsane, h, hcalm⟩

theorem Orderly.exit {s : Signal} (h : SignalHolds p s) : Orderly R p P (Run.exit s) := by
  intro m ts hm hcalm hsane r u hr
  cases hr
  exact ⟨hm, hsane, h, .inl hcalm⟩

theorem Orderly.exhausted : Orderly R p P Run.exhausted := by
  intro m ts _ _ _ r u hr
  cases hr

theorem Orderly.bind {x : Traced α} {f : α → Traced β} (hx : Orderly R p P x)
    (hf : ∀ a, P a → Orderly R p Q (f a)) : Orderly R p Q (x >>= f) := by
  intro m ts hm hcalm hsane r u hr
  rcases Run.bind_ends hr with ⟨s, hs, rfl⟩ | ⟨a, ⟨m₁, ts₁⟩, ha, hfa⟩
  · exact hx m ts hm hcalm hsane _ _ hs
  · obtain ⟨hm₁, hsane₁, hP, hcalm₁⟩ := hx m ts hm hcalm hsane _ _ ha
    exact hf a hP m₁ ts₁ hm₁ hcalm₁ hsane₁ r u hfa

theorem Orderly.lift {y : Eval α} (hy : Sound R p P y) : Orderly R p P (lift y) := by
  intro m ts hm hcalm hsane r u hr
  obtain ⟨⟨r', m'⟩, hy', heq⟩ := Option.map_eq_some_iff.1 hr
  cases heq
  obtain ⟨hm', hr'⟩ := hy m hm _ _ hy'
  cases r with
  | ok a => exact ⟨hm', hsane, hr', hcalm⟩
  | error s => exact ⟨hm', hsane, hr', .inl hcalm⟩

theorem Closes.bind {x : Traced α} {f : α → Traced Object} (hx : Orderly R p P x)
    (hf : ∀ a, P a → Closes R p id (f a)) : Closes R p id (x >>= f) := by
  intro m ts hm hcalm hsane r u hr
  rcases Run.bind_ends hr with ⟨s, hs, rfl⟩ | ⟨a, ⟨m₁, ts₁⟩, ha, hfa⟩
  · obtain ⟨hm', hsane', -, hended⟩ := hx m ts hm hcalm hsane _ _ hs
    exact ⟨hm', hsane', hended⟩
  · obtain ⟨hm₁, hsane₁, hP, hcalm₁⟩ := hx m ts hm hcalm hsane _ _ ha
    exact hf a hP m₁ ts₁ hm₁ hcalm₁ hsane₁ r u hfa

theorem Closes.of_orderly {P : Object → Prop} {x : Traced Object} (hx : Orderly R p P x) :
    Closes R p id x := by
  intro m ts hm hcalm hsane r u hr
  obtain ⟨hm', hsane', h⟩ := hx m ts hm hcalm hsane r u hr
  cases r with
  | ok o => exact ⟨hm', hsane', .inl h.2⟩
  | error s => exact ⟨hm', hsane', h.2⟩

theorem Closes.lift_bind {y : Eval α} {f : α → Traced Object} (hy : Sound R p P y)
    (hf : ∀ a, P a → Closes R p g (f a)) : Closes R p g (Traced.lift y >>= f) := by
  intro m ts hm hcalm hsane r u hr
  rcases Run.bind_ends hr with ⟨s, hs, rfl⟩ | ⟨a, ⟨m₁, ts₁⟩, ha, hfa⟩
  · obtain ⟨⟨r', m'⟩, hy', heq⟩ := Option.map_eq_some_iff.1 hs
    cases heq
    exact ⟨(hy m hm _ _ hy').1, hsane, .inl hcalm⟩
  · obtain ⟨⟨r', m'⟩, hy', heq⟩ := Option.map_eq_some_iff.1 ha
    cases heq
    obtain ⟨hm', hP⟩ := hy m hm _ _ hy'
    exact hf a hP m₁ ts hm' hcalm hsane r u hfa

theorem Closes.pure {o : Object} : Closes R p g (Pure.pure o) := by
  intro m ts hm hcalm hsane r u hr
  cases hr
  exact ⟨hm, hsane, .inl hcalm⟩

theorem Closes.exit {s : Signal} : Closes R p g (Run.exit s) := by
  intro m ts hm hcalm hsane r u hr
  cases hr
  exact ⟨hm, hsane, .inl hcalm⟩

theorem closes_settle {o : Object} : Closes R p g (settle o) := by
  unfold settle
  split
  · exact .exit
  · exact .exit
  · exact .pure

theorem closes_settleExcept {x : Except RuntimeError Object} : Closes R p g (settleExcept x) := by
  unfold settleExcept
  split
  · exact closes_settle
  · exact .exit

theorem Orderly.concluded {P : Object → Prop} {x : Traced Object} (hx : Orderly R p P x) :
    Closes R p Object.unwrapped (concluded x) := by
  intro m ts hm hcalm hsane r u hr
  obtain ⟨⟨r', u'⟩, hx', heq⟩ := Option.map_eq_some_iff.1 hr
  obtain ⟨hm', hsane', h⟩ := hx m ts hm hcalm hsane r' u' hx'
  cases r' with
  | ok o =>
    cases heq
    exact ⟨hm', hsane', .inl h.2⟩
  | error s =>
    cases heq
    refine ⟨hm', hsane', ?_⟩
    rcases h.2 with hcalm' | ⟨before, c, hts, hbefore, hstop, hreply⟩
    · exact .inl hcalm'
    · refine .inr ⟨before, c, hts, hbefore, hstop, ?_⟩
      rw [← show s.object = c.reply from hreply]
      cases s <;> rfl

end Rules

/-! ## Records of tasks -/

theorem record_ends {task : Task} {x : Traced Object} {m m' : Machine} {ts ts' : List Trace}
    {r : Except Signal Object} (h : record task x (m, ts) = some (r, m', ts')) :
    ∃ inner, x (m, []) = some (r, m', inner) ∧ ts' = ts ++ [.done task (replyOf r) m' inner] := by
  obtain ⟨⟨r', m₁, inner⟩, hx, heq⟩ := Option.map_eq_some_iff.1 h
  cases heq
  exact ⟨inner, hx, rfl⟩

theorem Erases.ends {x : Traced α} {y : Eval α} (h : Erases x y) {m m' : Machine}
    {ts ts' : List Trace} {r : Except Signal α} (hx : x (m, ts) = some (r, m', ts')) :
    y m = some (r, m') := by
  rw [← h m ts, hx]
  rfl

theorem Orderly.record {task : Task} (htask : task.isCall = false) {x : Traced Object}
    (hsig : ∀ o, p o → o.isSignal = false) {y : Eval Object} (hxy : Erases (Traced.record task x) y)
    (hy : Sound R p (Object.Every p) y) (hx : Closes R p id x) :
    Orderly R p (Object.Every p) (record task x) := by
  rintro m ts hm hcalm hsane r ⟨m', ts'⟩ hr
  have hreply := (hy m hm r m' (hxy.ends hr)).2
  obtain ⟨inner, hinner, rfl⟩ := record_ends hr
  obtain ⟨hm', hsane', hended⟩ := hx m [] hm (by simp [Calm]) allSane_nil _ _ hinner
  have hgives : task.gives = id := by
    funext o
    simp [Task.gives, htask]
  have hnone (f : Object) (xs : List Object) (h : task = .call f xs) :
      f.Every p ∧ ∀ x ∈ xs, x.Every p := by
    rw [h] at htask
    cases htask
  have hsane (h : _) : AllSane R p (ts ++ [.done task (replyOf r) m' inner]) :=
    hsane.snoc ⟨hnone, hm', hgives ▸ hended.stops, h⟩ hsane'
  cases r with
  | ok o =>
    -- the task joins those before it, which gave no signal either
    refine ⟨hm', hsane (.inl hreply), hreply, ?_⟩
    intro c hc
    rcases List.mem_append.1 hc with hc | hc
    · exact hcalm c hc
    · rw [List.mem_singleton.1 hc]
      exact ⟨hsig o hreply.self, htask⟩
  | error s =>
    refine ⟨hm', hsane ?_, hreply, .inr ⟨ts, _, rfl, hcalm, rfl, rfl⟩⟩
    cases s with
    | error e => exact .inr (.inl ⟨e, rfl⟩)
    | returning v => exact .inr (.inr ⟨htask, v, rfl, hreply⟩)

theorem Closes.settle_call {f : Object} {arguments : List Object} {x : Traced Object}
    {y : Eval Object} (hxy : Erases (Traced.record (.call f arguments) x) y)
    (hy : SoundCall R p (ReplyHolds p) y)
    (hf : f.Every p) (ha : ∀ x ∈ arguments, x.Every p) (hx : Closes R p Object.unwrapped x) :
    Closes R p id (Traced.record (.call f arguments) x >>= settle) := by
  rintro m ts hm hcalm hsane r ⟨m', ts'⟩ hr
  rcases Run.bind_ends hr with ⟨s, hs, rfl⟩ | ⟨o, ⟨m₁, ts₁⟩, ho, hsettle⟩
  · exact (hy m hm _ _ (hxy.ends hs)).2.elim
  · have hreply : ReplyHolds p o := (hy m hm _ _ (hxy.ends ho)).2
    obtain ⟨inner, hinner, rfl⟩ := record_ends ho
    obtain ⟨hm₁, hsane₁, hended⟩ := hx m [] hm (by simp [Calm]) allSane_nil _ _ hinner
    have hgiven (g : Object) (xs : List Object) (htask : Task.call f arguments = .call g xs) :
        g.Every p ∧ ∀ x ∈ xs, x.Every p := by
      cases htask
      exact ⟨hf, ha⟩
    have hsane₁ : AllSane R p (ts ++ [.done (.call f arguments) o m₁ inner]) :=
      hsane.snoc ⟨hgiven, hm₁, hended.stops, hreply.imp_right .inl⟩ hsane₁
    have same : (m', ts') = (m₁, ts ++ [.done (.call f arguments) o m₁ inner]) ∧ replyOf r = o := by
      unfold settle at hsettle
      split at hsettle <;> cases hsettle <;> exact ⟨rfl, rfl⟩
    obtain ⟨heq, hreplies⟩ := same
    cases heq
    exact ⟨hm₁, hsane₁, .inr ⟨ts, _, rfl, hcalm, rfl, hreplies⟩⟩

/-! ## Evaluation -/

theorem orderly_all {eval : Expr → Traced Object} {P : Object → Prop}
    (h : ∀ e, Orderly R p P (eval e)) (es : List Expr) :
    Orderly R p (fun xs => ∀ x ∈ xs, P x) (all eval es) := by
  induction es with
  | nil => exact .pure (by simp)
  | cons e es ih =>
    rw [Eval.all]
    refine .bind (h e) fun o ho => .bind ih fun xs hxs => .pure ?_
    exact List.forall_mem_cons.2 ⟨ho, hxs⟩

theorem orderly_pairs {eval : Expr → Traced Object} {P : Object → Prop}
    (h : ∀ e, Orderly R p P (eval e)) (ps : List (Expr × Expr)) (entries : List (Entry Object)) :
    Orderly R p (fun _ => True) (pairs eval entries ps) := by
  induction ps generalizing entries with
  | nil => exact .pure trivial
  | cons q ps ih =>
    refine .bind (h q.1) fun key _ => ?_
    cases key.hashKey? with
    | none => exact .exit trivial
    | some k => exact .bind (h q.2) fun _ _ => ih _

theorem orderly_sequence {eval : Statement → Traced Object}
    (h : ∀ st, Orderly R p (Object.Every p) (eval st)) (ss : List Statement) {result : Object}
    (hr : result.Every p) : Orderly R p (Object.Every p) (sequence eval result ss) := by
  induction ss generalizing result with
  | nil => exact .pure hr
  | cons st ss ih =>
    rw [Eval.sequence]
    exact .bind (h st) fun o ho => ih ho

structure Tidy (R : ScopeId → Prop) (p : Object → Prop) (n : Nat) : Prop where
  expression : ∀ s e, R s → Orderly R p (Object.Every p) (expression n s e)
  statement : ∀ s st, R s → Orderly R p (Object.Every p) (statement n s st)
  call : ∀ f arguments, f.Every p → (∀ x ∈ arguments, x.Every p) →
    Closes R p id (apply n f arguments >>= settle)

variable (hp : Sturdy R p) (hsig : ∀ o, p o → o.isSignal = false)

include hp hsig

theorem tidy_block {n : Nat} (ih : Tidy R p n) {s : ScopeId} (hs : R s) (b : Block) :
    Orderly R p (Object.Every p) (block (statement n s) s b) :=
  .record rfl hsig (erases_block ((faithful n).statement s) s b)
    ((steady hp n).sequence hp hs b.statements)
    (.of_orderly (orderly_sequence (fun st => ih.statement s st hs) _ hp.plain.every_null))

theorem tidy_expression {n : Nat} (ih : Tidy R p n) (s : ScopeId) (e : Expr) (hs : R s) :
    Orderly R p (Object.Every p) (expression (n + 1) s e) := by
  have part (x : Expr) := ih.expression s x hs
  have branch (b : Block) : Closes R p id (block (statement n s) s b) :=
    .of_orderly (tidy_block hp hsig ih hs b)
  refine .record rfl hsig ((faithful (n + 1)).expression s e)
    ((steady hp (n + 1)).expression s e hs) ?_
  cases e with
  | identifier name => exact .of_orderly (.lift (sound_named hp hs name.literal))
  | integer token value => exact .pure
  | boolean token value => exact .pure
  | string token => exact .pure
  | prefixed token op operand => exact .bind (part operand) fun o _ => closes_settleExcept
  | binary token op left right =>
    refine .bind (part left) fun l _ => .bind (part right) fun r _ => ?_
    exact closes_settleExcept
  | conditional token condition consequence alternative =>
    refine .bind (part condition) fun o _ => ?_
    split
    · exact branch consequence
    · cases alternative with
      | none => exact .pure
      | some b => exact branch b
  | function token parameters body =>
    exact .of_orderly (.lift (sound_closure hp hs parameters body))
  | call token callee arguments =>
    refine .bind (part callee) fun f hf => .bind (orderly_all part arguments) fun xs hxs => ?_
    exact ih.call f xs hf hxs
  | array token elements => exact .bind (orderly_all part elements) fun xs _ => .pure
  | hash token ps => exact .bind (orderly_pairs part ps []) fun es _ => .pure
  | index token base position =>
    refine .bind (part base) fun b _ => .bind (part position) fun i _ => ?_
    exact closes_settleExcept

theorem tidy_statement {n : Nat} (ih : Tidy R p n) (s : ScopeId) (st : Statement) (hs : R s) :
    Orderly R p (Object.Every p) (statement (n + 1) s st) := by
  refine .record rfl hsig ((faithful (n + 1)).statement s st)
    ((steady hp (n + 1)).statement s st hs) ?_
  cases st with
  | binding token name value =>
    refine .bind (ih.expression s value hs) fun o ho => .lift_bind (sound_bind ho) fun _ _ => ?_
    exact .pure
  | returning token value =>
    cases value with
    | none => exact .exit
    | some value => exact .bind (ih.expression s value hs) fun _ _ => .exit
  | expression token value => exact .of_orderly (ih.expression s value hs)

theorem tidy_call {n : Nat} (ih : Tidy R p n) (f : Object) (arguments : List Object)
    (hf : f.Every p) (ha : ∀ x ∈ arguments, x.Every p) :
    Closes R p id (apply (n + 1) f arguments >>= settle) := by
  refine .settle_call ((faithful (n + 1)).apply f arguments)
    ((steady hp (n + 1)).apply f arguments hf ha) hf ha ?_
  cases f with
  | function c =>
    have hc : R c.scope := (hp.function c).1 hf.self
    dsimp only
    split
    · refine .lift_bind (sound_enter hc ha) fun s hs => ?_
      exact (tidy_block hp hsig ih hs c.body).concluded
    · exact .pure
  | builtin b => exact .lift_bind (sound_print _) fun _ _ => .pure
  | _ => exact .pure

theorem tidy (n : Nat) : Tidy R p n := by
  induction n with
  | zero =>
    refine ⟨fun _ _ _ => .exhausted, fun _ _ _ => .exhausted, fun _ _ _ _ => ?_⟩
    intro m ts _ _ _ r u hr
    cases hr
  | succ n ih =>
    exact ⟨tidy_expression hp hsig ih, tidy_statement hp hsig ih, tidy_call hp hsig ih⟩

theorem program_tidy {n : Nat} {s : ScopeId} {prog : Program} {m m' : Machine} {o : Object}
    {ts : List Trace} (hs : R s) (hm : m.Holds R p)
    (h : program n s prog m = some (o, m', ts)) :
    AllSane R p ts ∧ Stops Object.unwrapped ts m' o := by
  unfold program at h
  split at h
  · rename_i hseq
    cases h
    have hstatement (st : Statement) := (tidy hp hsig n).statement s st hs
    have hbody := orderly_sequence hstatement prog hp.plain.every_null
    obtain ⟨-, hsane, hended⟩ :=
      hbody.concluded m [] hm (by simp [Calm]) allSane_nil _ _ hseq
    exact ⟨hsane, hended.stops⟩
  · cases h

theorem apply_tidy {n : Nat} {f : Object} {arguments : List Object} {m m' : Machine}
    {r : Except Signal Object} {ts : List Trace} (hf : f.Every p) (ha : ∀ x ∈ arguments, x.Every p)
    (hm : m.Holds R p) (h : apply n f arguments (m, []) = some (r, m', ts)) : AllSane R p ts := by
  have hcall := (tidy hp hsig n).call f arguments hf ha m [] hm (by simp [Calm]) allSane_nil
  cases r with
  | error s => exact (hcall (.error s) (m', ts) (by rw [Run.bind_apply, h])).2.1
  | ok o =>
    obtain ⟨r, hr⟩ : ∃ r, (apply n f arguments >>= settle) (m, []) = some (r, m', ts) := by
      rw [Run.bind_apply, h]
      unfold settle
      dsimp only
      split <;> exact ⟨_, rfl⟩
    exact (hcall r (m', ts) hr).2.1

end Traced

/-! ## Along a path -/

namespace Trace

variable {R : ScopeId → Prop} {p : Object → Prop}

theorem Last.of_mem {c : Trace} {g : Object → Object} {ts : List Trace} {stop : Machine}
    {reply : Object} (hts : Stops g ts stop reply) (hc : c ∈ ts)
    (hsig : c.reply.isSignal = true ∨ c.task.isCall = true) :
    c.Last ts ∧ stop = c.stop ∧ reply = g c.reply := by
  obtain ⟨before, after, rfl⟩ := List.append_of_mem hc
  obtain ⟨rfl, h⟩ := hts before c after rfl hsig
  exact ⟨.here, h⟩

theorem Last.inside_of_mem {c t : Trace} {g : Object → Object} {ts : List Trace} {stop : Machine}
    {reply : Object} (hts : Stops g ts stop reply) (ht : t ∈ ts) (hsig : t.reply.isSignal = true)
    (hc : c.Last t.inner) : c.Last ts ∧ stop = t.stop ∧ reply = g t.reply := by
  obtain ⟨before, after, rfl⟩ := List.append_of_mem ht
  obtain ⟨rfl, h⟩ := hts before t after rfl (.inl hsig)
  exact ⟨.inside hc, h⟩

@[simp] theorem gives_error (task : Task) (e : RuntimeError) :
    task.gives (.error e) = .error e := by
  unfold Task.gives
  split <;> rfl

theorem error_ends {c : Trace} {ts : List Trace} {g : Object → Object} {stop : Machine}
    {reply : Object} {e : RuntimeError} (hc : c.Within ts) (he : c.reply = .error e)
    (hg : g (.error e) = .error e) (hsane : AllSane R p ts) (hts : Stops g ts stop reply) :
    c.Last ts ∧ stop = c.stop ∧ reply = .error e := by
  induction hc generalizing g stop reply with
  | here hmem =>
    obtain ⟨hlast, hstop, hreply⟩ := Last.of_mem hts hmem (.inl (by rw [he]; rfl))
    exact ⟨hlast, hstop, by rw [hreply, he, hg]⟩
  | @inside ts t ht hin ih =>
    have hinner := (hsane t (.here ht)).stops
    obtain ⟨hlast, hstop, hreply⟩ :=
      ih (gives_error t.task e) (fun d hd => hsane d (.inside ht hd)) hinner
    obtain ⟨hlast', hstop', hreply'⟩ := hlast.inside_of_mem hts ht (by rw [hreply]; rfl)
    exact ⟨hlast', hstop'.trans hstop, by rw [hreply', hreply, hg]⟩

theorem return_ends {c : Trace} {ts : List Trace} {g : Object → Object} {stop : Machine}
    {reply v : Object} (hc : c.InBody ts) (hv : c.reply = .returning v) (hsane : AllSane R p ts)
    (hts : Stops g ts stop reply) : c.Last ts ∧ stop = c.stop ∧ reply = g (.returning v) := by
  induction hc generalizing g stop reply with
  | here hmem =>
    obtain ⟨hlast, hstop, hreply⟩ := Last.of_mem hts hmem (.inl (by rw [hv]; rfl))
    exact ⟨hlast, hstop, by rw [hreply, hv]⟩
  | @inside ts t ht htask hin ih =>
    have hinner := (hsane t (.here ht)).stops
    obtain ⟨hlast, hstop, hreply⟩ := ih (fun d hd => hsane d (.inside ht hd)) hinner
    have hreply : t.reply = .returning v := by simpa [Task.gives, htask] using hreply
    obtain ⟨hlast', hstop', hreply'⟩ := hlast.inside_of_mem hts ht (by rw [hreply]; rfl)
    exact ⟨hlast', hstop'.trans hstop, by rw [hreply', hreply]⟩

end Trace

/-! ## Scopes that a program can see -/

namespace Machine

/-- Scopes that a run in `s` can come to: those around it, and those of functions in sight. -/
inductive Reaches (m : Machine) (s : ScopeId) : ScopeId → Prop
  | here : Reaches m s s
  | enclosing {k j : ScopeId} : Reaches m s k → j ∈ m.enclosing k → Reaches m s j
  | captured {k : ScopeId} {b : String × Object} {c : Closure} :
    Reaches m s k → b ∈ m.bindings k → .function c ∈ b.2.parts → Reaches m s c.scope

/-- No error and no return signal is bound in sight of `s`. -/
def CleanFrom (m : Machine) (s : ScopeId) : Prop :=
  ∀ k, m.Reaches s k → ∀ b ∈ m.bindings k, b.2.Clean

def region (m : Machine) (s k : ScopeId) : Prop := m.Reaches s k ∨ m.scopes.size ≤ k

/-- No signal, and no function outside the region. -/
def Proper (m : Machine) (s : ScopeId) (o : Object) : Prop :=
  o.isSignal = false ∧ ∀ c, o = .function c → m.region s c.scope

theorem sturdy_proper (m : Machine) (s : ScopeId) : Sturdy (m.region s) (m.Proper s) := by
  constructor <;> simp [Proper, Object.isSignal]

theorem CleanFrom.holds {m : Machine} {s : ScopeId} (h : m.CleanFrom s) :
    m.Holds (m.region s) (m.Proper s) where
  bindings k hk b hb := by
    rcases hk with hk | hk
    · intro x hx
      refine ⟨h k hk b hb x hx, ?_⟩
      rintro c rfl
      exact .inl (hk.captured hb hx)
    · simp [bindings, Array.getElem?_eq_none hk] at hb
  enclosing k hk j hj := by
    rcases hk with hk | hk
    · exact .inl (hk.enclosing hj)
    · simp [enclosing, Array.getElem?_eq_none hk] at hj
  later k hk := .inr hk

end Machine

/-! ## Runs of programs -/

namespace Trace

theorem Within.trans {c t : Trace} {ts : List Trace} (ht : t.Within ts) (hc : c.Within t.inner) :
    c.Within ts := by
  induction ht with
  | here hmem => exact .inside hmem hc
  | inside hmem _ ih => exact .inside hmem ih

/-- A task that gave an error ended the run: the error is the result, the machine is as it was
then, and no task began afterwards. -/
def ErrorsEnd (ts : List Trace) (stop : Machine) (result : Object) : Prop :=
  ∀ (c : Trace) (e : RuntimeError), c.Within ts → c.reply = .error e →
    result = .error e ∧ stop = c.stop ∧ c.Last ts

/-- A return in the body of a call ended the call, which gave exactly its value. The caller went on
with this value as with any other. -/
def ReturnsEndCalls (ts : List Trace) : Prop :=
  ∀ (caller call c : Trace) (v : Object), caller.Within ts → call ∈ caller.inner →
    call.task.isCall = true → c.InBody call.inner → c.reply = .returning v →
      (call.reply = v ∧ call.stop = c.stop ∧ c.Last call.inner) ∧
      (v.isSignal = false ∧ caller.reply = v ∧ caller.stop = call.stop ∧ call.Last caller.inner)

/-- A return outside of calls ended the program with its value. -/
def ReturnsEndProgram (ts : List Trace) (stop : Machine) (result : Object) : Prop :=
  ∀ (c : Trace) (v : Object), c.InBody ts → c.reply = .returning v →
    result = v ∧ stop = c.stop ∧ c.Last ts

theorem gives_of_not_signal {task : Task} {v : Object} (h : v.isSignal = false) :
    task.gives v = v := by
  unfold Task.gives
  split
  · cases v <;> first | rfl | cases h
  · rfl

theorem returnsEndCalls {R : ScopeId → Prop} {p : Object → Prop} {ts : List Trace}
    (hsig : ∀ o, p o → o.isSignal = false) (hsane : AllSane R p ts) : ReturnsEndCalls ts := by
  intro caller call c v hcaller hcall htask hc hv
  have hin : AllSane R p caller.inner := fun d hd => hsane d (hcaller.trans hd)
  have hbody : AllSane R p call.inner := fun d hd => hin d (.inside hcall hd)
  have hcallee := hin call (.here hcall)
  obtain ⟨hlast, hstop, hreply⟩ := return_ends hc hv hbody hcallee.stops
  have hreply : call.reply = v := by rw [hreply, Task.gives, htask]; rfl
  -- What a call gives is no signal, unless it is an error, which no return carries.
  have hvalue : v.isSignal = false := by
    have hcsane : c.Sane R p := hbody c hc.within
    rcases hcsane.reply with h | ⟨e, he⟩ | ⟨-, w, hw, hp⟩
    · rw [hv] at h
      exact hsig _ (Object.every_returning.1 h).2.self
    · simp [hv] at he
    · obtain rfl : v = w := by simpa [hv] using hw
      exact hsig v hp.self
  obtain ⟨hlast', hstop', hreply'⟩ :=
    Last.of_mem (hsane caller hcaller).stops hcall (.inr htask)
  refine ⟨⟨hreply, hstop, hlast⟩, hvalue, ?_, hstop', hlast'⟩
  rw [hreply', hreply, gives_of_not_signal hvalue]

end Trace

/-- A run that ends, in a scope in sight of which no signal is bound. -/
theorem signals_end_runs {n : Nat} {s : ScopeId} {p : Program} {m m' : Machine} {o : Object}
    (hclean : m.CleanFrom s) (hrun : Eval.program n s p m = some (o, m')) :
    ∃ ts, Traced.program n s p m = some (o, m', ts) ∧ Trace.ErrorsEnd ts m' o ∧
      Trace.ReturnsEndCalls ts ∧ Trace.ReturnsEndProgram ts m' o := by
  have hp := m.sturdy_proper s
  have hsig : ∀ o, m.Proper s o → o.isSignal = false := fun o ho => ho.1
  have herase := Traced.program_erases n s p m
  rw [hrun] at herase
  obtain ⟨⟨o, m', ts⟩, htraced, heq⟩ := Option.map_eq_some_iff.1 herase
  cases heq
  obtain ⟨hsane, hstops⟩ := Traced.program_tidy hp hsig (.inl .here) hclean.holds htraced
  refine ⟨ts, htraced, fun c e hc he => ?_, Trace.returnsEndCalls hsig hsane, fun c v hc hv => ?_⟩
  · obtain ⟨hlast, hstop, hreply⟩ := Trace.error_ends hc he rfl hsane hstops
    exact ⟨hreply, hstop, hlast⟩
  · obtain ⟨hlast, hstop, hreply⟩ := Trace.return_ends hc hv hsane hstops
    exact ⟨hreply, hstop, hlast⟩

/-- A return inside an array inside a call, then an unknown name; what would print is never run. -/
theorem signals_end_runs_nested :
    let token : Token := ⟨.illegal, "", 1⟩
    let name (s : String) : Expr := .identifier ⟨.ident, s, 1⟩
    let puts (n : Int64) : Expr := .call token (name "puts") [.integer token n]
    let leave : Block := ⟨token, [.returning token (some (.integer token 7))]⟩
    let body : Block := ⟨token,
      [.expression token (.array token [.conditional token (name "x") leave none, puts 9])]⟩
    let p : Program :=
      [.binding token ⟨.ident, "f", 1⟩ (.function token [] body),
        .expression token (.call token (name "f") []), .expression token (name "y"),
        .expression token (puts 3)]
    let m : Machine := ⟨#[⟨[("x", .array [.boolean true])], []⟩], 0, ""⟩
    let e : Object := .error (.unknownIdentifier "y")
    m.CleanFrom 0 ∧ ∃ m', Eval.program 9 0 p m = some (e, m') ∧ m'.output = "" ∧
      ∃ ts, Traced.program 9 0 p m = some (e, m', ts) ∧ Trace.ErrorsEnd ts m' e ∧
        Trace.ReturnsEndCalls ts ∧ Trace.ReturnsEndProgram ts m' e := by
  intro token name puts leave body p m e
  have hclean : m.CleanFrom 0 := by
    intro k _ b hb x hx
    rcases k with _ | k
    · obtain rfl : b = ("x", .array [.boolean true]) := by simpa [m, Machine.bindings] using hb
      have hx : x = .array [.boolean true] ∨ x = .boolean true := by
        simpa [Object.parts, partsAll] using hx
      rcases hx with rfl | rfl <;> rfl
    · simp [m, Machine.bindings] at hb
  exact ⟨hclean, _, rfl, rfl, signals_end_runs hclean rfl⟩

end Treewalk
