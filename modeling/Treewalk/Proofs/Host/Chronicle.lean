import Mathlib.Logic.Relation
import Treewalk.Proofs.Eval.Events
import Treewalk.Proofs.Eval.Frame
import Treewalk.Proofs.Eval.Worlds
import Treewalk.Proofs.Host.Reached

/-!
# Scopes in the course of a session

Scopes form a tree that only grows, and a scope holds what was bound in it last. So a name stands
for what the nearest scope that binds it was last given, whenever and from wherever it is looked up.
-/

namespace Treewalk

namespace Machine

/-! ## The tree of scopes -/

/-- The scope around a scope. -/
def outer (m : Machine) (k : ScopeId) : Option ScopeId := (m.enclosing k).head?

/-- Names are looked up in the scope, then in one scope around the other, none twice, up to one
that has none around it. -/
structure Rooted (m : Machine) (k : ScopeId) : Prop where
  start : (m.chain k)[0]? = some k
  links : ∀ i, (m.chain k)[i + 1]? = (m.chain k)[i]?.bind m.outer
  nodup : (m.chain k).Nodup
  root : ∃ r, (m.chain k).getLast? = some r ∧ m.outer r = none

variable {m : Machine}

theorem rooted_of_alone {k : ScopeId} (h : m.enclosing k = []) : m.Rooted k := by
  have houter : m.outer k = none := by rw [outer, h]; rfl
  have hchain : m.chain k = [k] := by rw [chain, h]
  constructor
  · rfl
  · intro i
    cases i <;> simp [hchain, houter]
  · simp [hchain]
  · exact ⟨k, by simp [hchain], houter⟩

theorem WellScoped.rooted (h : m.WellScoped) (k : ScopeId) : m.Rooted k := by
  induction k using Nat.strongRecOn with
  | ind k ih =>
    by_cases hk : k < m.scopes.size
    · rcases h.enclosing k hk with hnone | ⟨j, hj, hchain⟩
      · exact rooted_of_alone hnone
      · have hrooted := ih j hj
        have houter : m.outer k = some j := by rw [outer, hchain]; rfl
        have hcons : m.chain k = k :: m.chain j := by rw [chain, hchain]
        constructor
        · rfl
        · intro i
          cases i with
          | zero => simp [hcons, houter, hrooted.start]
          | succ i => simpa only [hcons, List.getElem?_cons_succ] using hrooted.links i
        · -- All scopes around `k` are earlier ones.
          rw [hcons, List.nodup_cons, ← hchain]
          exact ⟨fun hmem => Nat.lt_irrefl k (h.enclosing_lt hk k hmem), hchain ▸ hrooted.nodup⟩
        · obtain ⟨r, hr, hroot⟩ := hrooted.root
          refine ⟨r, ?_, hroot⟩
          rw [hcons, List.getLast?_cons, hr]
          rfl
    · have hnone : m.enclosing k = [] := by
        simp [Machine.enclosing, Array.getElem?_eq_none (Nat.le_of_not_lt hk)]
      exact rooted_of_alone hnone

/-! ## The nearest scope -/

/-- The nearest scope that binds the name. -/
def nearest (m : Machine) (k : ScopeId) (name : String) : Option ScopeId :=
  (m.chain k).find? fun j => ((m.bindings j).get? name).isSome

theorem findSome?_eq_find?_bind {α β : Type} (f : α → Option β) (xs : List α) :
    xs.findSome? f = (xs.find? fun x => (f x).isSome).bind f := by
  induction xs with
  | nil => rfl
  | cons x xs ih =>
    cases hx : f x with
    | none => simp [hx, ih]
    | some y => simp [hx]

theorem get?_eq_nearest (m : Machine) (k : ScopeId) (name : String) :
    m.get? k name = (m.nearest k name).bind fun j => (m.bindings j).get? name :=
  findSome?_eq_find?_bind _ _

theorem get?_eq_none_iff {k : ScopeId} {name : String} :
    m.get? k name = none ↔ ∀ j ∈ m.chain k, (m.bindings j).get? name = none :=
  List.findSome?_eq_none_iff

theorem get?_bindings_set {e : ScopeId} (he : e < m.scopes.size) (name : String)
    (value : Object) (j : ScopeId) : ((m.set e name value).bindings j).get? name =
      if j = e then some value else (m.bindings j).get? name := by
  rw [bindings_set]
  by_cases hj : j = e
  · subst hj
    simp [he, Bindings.get?_set_self]
  · simp [hj, Ne.symm hj]

theorem get?_set_nearest {e : ScopeId} (he : e < m.scopes.size) (name : String) (value : Object)
    (k : ScopeId) : (m.set e name value).get? k name =
      if (m.set e name value).nearest k name = some e then some value else m.get? k name := by
  have hchain : (m.set e name value).chain k = m.chain k := by
    rw [chain, chain, enclosing_set]
  simp only [get?, nearest, hchain, get?_bindings_set he]
  induction m.chain k with
  | nil => rfl
  | cons j js ih =>
    by_cases hj : j = e
    · simp [hj]
    · cases hget : (m.bindings j).get? name with
      | none => simp only [List.findSome?_cons, List.find?_cons, hj, if_false, hget, ih]; rfl
      | some v => simp [hj, hget]

theorem changes_of_set {e : ScopeId} (he : e < m.scopes.size) {name other : String}
    {value : Object} {k : ScopeId}
    (h : (m.set e name value).get? k other ≠ m.get? k other) :
    other = name ∧ (m.set e name value).nearest k name = some e := by
  obtain rfl : other = name := by
    by_contra hne
    exact h (get?_set_other hne value k)
  refine ⟨rfl, ?_⟩
  by_contra hne
  exact h ((get?_set_nearest he other value k).trans (if_neg hne))

end Machine

/-! ## Built-in functions -/

namespace Eval

open Traced

theorem builtin_of_identifier (n : Nat) (k : ScopeId) (name : Token) (b : Builtin) (m : Machine) :
    (∃ m', expression (n + 1) k (.identifier name) m = some (.ok (.builtin b), m')) ↔
      m.get? k name.literal = some (.builtin b) ∨
        (∀ j ∈ m.chain k, (m.bindings j).get? name.literal = none) ∧
          Builtin.named? name.literal = some b := by
  rw [← Machine.get?_eq_none_iff, ← answer_eq_builtin_iff]
  constructor
  · rintro ⟨m', h⟩
    exact (named_answer (s := k) h).2.symm
  · intro h
    refine ⟨m, ?_⟩
    show named k name.literal m = _
    rw [named_apply, h]
    rfl

end Eval

/-! ## Sessions and their events -/

namespace Session

/-- A step of a host, with what it does to names. -/
inductive Tells (s : Session) : List Event → Session → Prop
  | program {depth : Nat} {p : Program} {o : Object} {m : Machine} {ts : List Trace} :
    Traced.program depth s.top p s.machine = some (o, m, ts) →
    Tells s (eventsAll ts) { s with machine := m }
  /-- A program in a scope of its own. -/
  | apart {depth : Nat} {p : Program} {o : Object} {m : Machine} {ts : List Trace} :
    Traced.program depth s.machine.nextScope p s.machine.newRoot = some (o, m, ts) →
    Tells s (eventsAll ts) { s with machine := m }
  | call {depth : Nat} {f : Object} {arguments : List Object} {r : Except Signal Object}
      {m : Machine} {ts : List Trace} :
    Traced.apply depth f arguments (s.machine, []) = some (r, m, ts) →
    Tells s (eventsAll ts) { s with machine := m }
  | set {name : String} {value : Object} : Tells s [.wrote s.top name value] (s.set name value)
  | enter : Tells s [] s.enter
  | leave : Tells s [] s.leave
  | takeOutput : Tells s [] s.takeOutput.2
  /-- A text with syntax errors does not run, and a name that is not bound is not called. -/
  | nothing : Tells s [] s

/-- All that was done to names since the start. -/
inductive Chronicle : List Event → Session → Prop
  | start : Chronicle [] .start
  | step {es fs : List Event} {s s' : Session} : Chronicle es s → s.Tells fs s' →
    Chronicle (es ++ fs) s'

theorem program_traced {n : Nat} {k : ScopeId} {p : Program} {m m' : Machine} {o : Object}
    (h : Eval.program n k p m = some (o, m')) :
    ∃ ts, Traced.program n k p m = some (o, m', ts) := by
  rw [← Traced.program_erases] at h
  obtain ⟨⟨o, m', ts⟩, hts, heq⟩ := Option.map_eq_some_iff.1 h
  cases heq
  exact ⟨ts, hts⟩

theorem call_traced {n : Nat} {f : Object} {arguments : List Object} {m m' : Machine} {o : Object}
    (h : Eval.call n f arguments m = some (o, m')) :
    ∃ r ts, Traced.apply n f arguments (m, []) = some (r, m', ts) := by
  obtain ⟨r, hr⟩ := Eval.ends_of_outcome h
  rw [← (Traced.faithful n).apply f arguments m []] at hr
  obtain ⟨⟨r, m', ts⟩, hts, heq⟩ := Option.map_eq_some_iff.1 hr
  cases heq
  exact ⟨r, ts, hts⟩

variable {p : Machine → Object → Prop} {s s' : Session}

theorem Step.tells (h : Step p s s') : ∃ fs, s.Tells fs s' := by
  cases h with
  | run hr =>
    rcases run_ends hr with rfl | ⟨o, m, ho, rfl⟩
    · exact ⟨_, .nothing⟩
    · obtain ⟨ts, hts⟩ := program_traced ho
      exact ⟨_, .program hts⟩
  | runAnyway hr =>
    obtain ⟨m, ho, rfl⟩ := runAnyway_ends hr
    obtain ⟨ts, hts⟩ := program_traced ho
    exact ⟨_, .program hts⟩
  | runApart hr =>
    obtain ⟨ts, hts⟩ := program_traced hr
    exact ⟨_, .apart hts⟩
  | enter => exact ⟨_, .enter⟩
  | leave => exact ⟨_, .leave⟩
  | set => exact ⟨_, .set⟩
  | call _ hr =>
    rcases call_ends hr with rfl | ⟨f, o, m, -, hcall, rfl⟩
    · exact ⟨_, .nothing⟩
    · obtain ⟨r, ts, hts⟩ := call_traced hcall
      exact ⟨_, .call hts⟩
  | apply _ _ hr =>
    obtain ⟨r, ts, hts⟩ := call_traced hr
    exact ⟨_, .call hts⟩
  | takeOutput => exact ⟨_, .takeOutput⟩

theorem Reached.chronicle (h : s.Reached p) : ∃ es, s.Chronicle es := by
  induction h with
  | start => exact ⟨[], .start⟩
  | step _ hs ih =>
    obtain ⟨es, hes⟩ := ih
    obtain ⟨fs, hfs⟩ := hs.tells
    exact ⟨es ++ fs, hes.step hfs⟩

/-- The host uses scopes that there are. -/
def There (s : Session) : Prop := ∀ k ∈ s.top :: s.below, k < s.machine.scopes.size

theorem There.of_machine (h : s.There) {m : Machine}
    (hm : s.machine.scopes.size ≤ m.scopes.size) : There { s with machine := m } :=
  fun k hk => Nat.lt_of_lt_of_le (h k hk) hm

theorem Tells.recorded {fs : List Event} (h : s.Tells fs s') (hs : s.There) :
    s.machine.Recorded fs s'.machine := by
  have htop := hs s.top List.mem_cons_self
  cases h with
  | program hts => exact Traced.program_recorded htop hts
  | apart hts =>
    have hroot : s.machine.nextScope < s.machine.newRoot.scopes.size := by
      simp [Machine.nextScope]
    exact (Machine.recorded_newRoot _).trans (Traced.program_recorded hroot hts)
  | call hts => exact Traced.apply_recorded hts
  | set => exact Machine.recorded_set htop _ _
  | enter => exact Machine.recorded_newInside _ _
  | leave =>
    have hmachine : s.leave.machine = s.machine := by
      unfold Session.leave
      split <;> rfl
    exact hmachine ▸ Machine.recorded_refl _
  | takeOutput => exact Machine.recorded_of_scopes rfl
  | nothing => exact Machine.recorded_refl _

theorem Tells.there {fs : List Event} (h : s.Tells fs s') (hs : s.There) : s'.There := by
  have hrecorded := h.recorded hs
  cases h with
  | program _ | apart _ | call _ | set | takeOutput => exact hs.of_machine hrecorded.size
  | nothing => exact hs
  | enter =>
    intro k hk
    rcases List.mem_cons.1 hk with rfl | hk
    · simp [Session.enter, Machine.nextScope]
    · exact Nat.lt_of_lt_of_le (hs k hk) hrecorded.size
  | leave =>
    unfold Session.leave
    split
    · exact hs
    · rename_i outer rest hbelow
      intro k hk
      exact hs k (List.mem_cons_of_mem _ (hbelow ▸ hk))

theorem Chronicle.recorded {es : List Event} (h : s.Chronicle es) :
    Machine.fresh.Recorded es s.machine ∧ s.There := by
  induction h with
  | start =>
    refine ⟨Machine.recorded_refl _, fun k hk => ?_⟩
    obtain rfl : k = Machine.root := List.mem_singleton.1 hk
    exact Nat.zero_lt_one
  | step _ hs ih =>
    obtain ⟨hrecorded, hthere⟩ := ih
    exact ⟨hrecorded.trans (hs.recorded hthere), hs.there hthere⟩

theorem recorded_of_steps (h : Relation.ReflTransGen (Step p) s s') (hs : s.There) :
    s'.There ∧ ∃ fs, s.machine.Recorded fs s'.machine := by
  induction h with
  | refl => exact ⟨hs, [], Machine.recorded_refl _⟩
  | tail _ hstep ih =>
    obtain ⟨hthere, es, hes⟩ := ih
    obtain ⟨fs, hfs⟩ := hstep.tells
    exact ⟨hfs.there hthere, es ++ fs, hes.trans (hfs.recorded hthere)⟩

theorem get?_bindings_fresh (k : ScopeId) (name : String) :
    (Machine.fresh.bindings k).get? name = none := by
  rw [Machine.fresh, Machine.bindings_newRoot]
  simp [Machine.empty, Machine.bindings, Bindings.get?]

section Found

variable {es : List Event} (h : s.Chronicle es)

include h

theorem Chronicle.holding (k : ScopeId) (name : String) :
    (s.machine.bindings k).get? name = lastWritten es k name := by
  rw [h.recorded.1.bindings, Machine.holding, get?_bindings_fresh, Option.or_none]

theorem Chronicle.get? (k : ScopeId) (name : String) :
    s.machine.get? k name = (s.machine.nearest k name).bind (lastWritten es · name) := by
  rw [Machine.get?_eq_nearest]
  simp only [h.holding]

theorem Chronicle.looked {before after : List Event} {k : ScopeId} {name : String} {o : Object}
    (heq : es = before ++ .looked k name o :: after) :
    o = answer name ((s.machine.chain k).findSome? (lastWritten before · name)) := by
  have hlooked := h.recorded.1.looked before k name o after heq
  simpa only [Machine.holding, get?_bindings_fresh, Option.or_none] using hlooked

end Found

/-- In every session that a host reaches, each scope stands in others up to one that stands alone.
In later sessions it still stands there, and binds all names that it binds now. All that was done to
names since the start makes up a chronicle. By any chronicle, a name stands for what was written
last in the nearest scope that binds it, and so it did whenever it was looked up. Binding a name in
a scope changes what that name stands for where the scope is then the nearest that binds it, and
nothing else. An identifier gives a built-in function just if it is bound to it, or no scope in sight
binds the identifier and it is the name of the function. -/
theorem sessions_keep_scopes (h : s.Reached fun m o => o.KnownTo m) :
    (∀ k, s.machine.Rooted k) ∧
    (∀ s', Relation.ReflTransGen (Step fun m o => o.KnownTo m) s s' →
      ∀ k < s.machine.scopes.size, s'.machine.outer k = s.machine.outer k ∧
        ∀ name, (s.machine.bindings k).get? name ≠ none →
          (s'.machine.bindings k).get? name ≠ none) ∧
    (∃ es, s.Chronicle es) ∧
    (∀ es, s.Chronicle es →
      (∀ k name, s.machine.get? k name = (s.machine.nearest k name).bind (lastWritten es · name)) ∧
      ∀ before k name o after, es = before ++ .looked k name o :: after →
        o = answer name ((s.machine.chain k).findSome? (lastWritten before · name))) ∧
    (∀ e < s.machine.scopes.size, ∀ name value k other,
      (s.machine.set e name value).get? k other ≠ s.machine.get? k other →
        other = name ∧ (s.machine.set e name value).nearest k name = some e) ∧
    ∀ n k (name : Token) (b : Builtin),
      (∃ m', Eval.expression (n + 1) k (.identifier name) s.machine =
          some (.ok (.builtin b), m')) ↔
        s.machine.get? k name.literal = some (.builtin b) ∨
          (∀ j ∈ s.machine.chain k, (s.machine.bindings j).get? name.literal = none) ∧
            Builtin.named? name.literal = some b := by
  have hs : s.There := by
    obtain ⟨es, hes⟩ := h.chronicle
    exact hes.recorded.2
  refine ⟨h.wellScoped.machine.rooted, fun s' hsteps k hk => ?_, h.chronicle, fun es hes => ?_,
    fun e he name value k other hne => Machine.changes_of_set he hne,
    fun n k name b => Eval.builtin_of_identifier n k name b s.machine⟩
  · obtain ⟨-, fs, hrecorded⟩ := recorded_of_steps hsteps hs
    refine ⟨?_, fun name hname => hrecorded.bound hname⟩
    rw [Machine.outer, Machine.outer, hrecorded.enclosing k hk]
  · exact ⟨hes.get?, fun before k name o after heq => hes.looked heq⟩

/-- A function looks up a name that was bound after the function was made, to a built-in function
of another name. -/
theorem sessions_keep_scopes_late :
    let source := "let f = fn() \x7b x \x7d; let x = len; f()"
    ∃ r s, Session.start.run 9 source = some (r, s) ∧ (s.Reached fun m o => o.KnownTo m) ∧
      s.machine.get? 1 "x" = some (.builtin .len) ∧ s.machine.Rooted 1 ∧
      (∃ es, s.Chronicle es ∧
        s.machine.get? 1 "x" = (s.machine.nearest 1 "x").bind (lastWritten es · "x")) ∧
      ∃ m', Eval.expression 1 1 (.identifier ⟨.ident, "x", 1⟩) s.machine =
        some (.ok (.builtin .len), m') := by
  intro source
  have hx : (Session.start.run 9 source).map (fun u => u.2.machine.get? 1 "x") =
      some (some (.builtin .len)) := by decide +kernel
  obtain ⟨⟨r, s⟩, hrun, hget⟩ := Option.map_eq_some_iff.1 hx
  have hs : s.Reached fun m o => o.KnownTo m := .step .start (.run hrun)
  obtain ⟨hrooted, -, ⟨es, hes⟩, hfound, -, hbuiltin⟩ := sessions_keep_scopes hs
  exact ⟨r, s, hrun, hs, hget, hrooted 1, ⟨es, hes, (hfound es hes).1 1 "x"⟩,
    (hbuiltin 0 1 ⟨.ident, "x", 1⟩ .len).2 (.inl hget)⟩

/-- A bound name, that is no name of a built-in function, gives one all the same. -/
theorem builtin_found_bound :
    let f : Token := ⟨.ident, "f", 1⟩
    ∃ s, Session.start.run 3 "let f = len; f" = some (.ok (.builtin .len), s) ∧
      (s.Reached fun m o => o.KnownTo m) ∧
      ¬((∃ b m', Eval.expression 1 s.top (.identifier f) s.machine =
          some (.ok (.builtin b), m')) ↔
        (∀ j ∈ s.machine.chain s.top, (s.machine.bindings j).get? f.literal = none) ∧
          ∃ b, Builtin.named? f.literal = some b) := by
  intro f
  have hrun : (Session.start.run 3 "let f = len; f").map
      (fun u => (u.1, u.2.machine.get? u.2.top "f")) =
      some (.ok (.builtin .len), some (.builtin .len)) := by decide +kernel
  obtain ⟨⟨r, s⟩, hrun, heq⟩ := Option.map_eq_some_iff.1 hrun
  obtain ⟨rfl, hget⟩ := Prod.mk.inj heq
  refine ⟨s, hrun, .step .start (.run hrun), fun hiff => ?_⟩
  obtain ⟨hunbound, -⟩ :=
    hiff.1 ⟨.len, (Eval.builtin_of_identifier 0 s.top f .len s.machine).2 (.inl hget)⟩
  rw [Machine.get?_eq_none_iff.2 hunbound] at hget
  cases hget

end Session

end Treewalk
