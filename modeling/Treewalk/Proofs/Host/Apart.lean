import Treewalk.Proofs.Eval.Abreast
import Treewalk.Proofs.Eval.Frame
import Treewalk.Proofs.Host.Reached
import Treewalk.Proofs.Host.Scripts

/-!
# Texts that mention none of the names in sight

Where no name in sight of a scope occurs in a text, the text runs in the scope as it does on its
own, and leaves alone what the scopes in sight bind.
-/

namespace Treewalk

/-! ## Names bound are names that occur -/

mutual

theorem Expr.letNames_sublist : ∀ e : Expr, List.Sublist e.letNames e.names
  | .identifier _ | .integer _ _ | .boolean _ _ | .string _ | .function _ _ _ =>
    List.nil_sublist _
  | .prefixed _ _ a => a.letNames_sublist
  | .binary _ _ a b | .index _ a b => a.letNames_sublist.append b.letNames_sublist
  | .conditional _ a b c =>
    (a.letNames_sublist.append b.letNames_sublist).append (letNamesElse_sublist c)
  | .call _ a es => a.letNames_sublist.append (letNamesAll_sublist es)
  | .array _ es => letNamesAll_sublist es
  | .hash _ ps => letNamesPairs_sublist ps

theorem letNamesAll_sublist : ∀ es : List Expr, List.Sublist (letNamesAll es) (namesAll es)
  | [] => List.nil_sublist _
  | e :: es => e.letNames_sublist.append (letNamesAll_sublist es)

theorem letNamesPairs_sublist : ∀ ps : List (Expr × Expr),
    List.Sublist (letNamesPairs ps) (namesPairs ps)
  | [] => List.nil_sublist _
  | (k, v) :: ps =>
    (k.letNames_sublist.append v.letNames_sublist).append (letNamesPairs_sublist ps)

theorem letNamesElse_sublist : ∀ b : Option Block, List.Sublist (letNamesElse b) (namesElse b)
  | none => List.nil_sublist _
  | some b => b.letNames_sublist

theorem letNamesValue_sublist : ∀ e : Option Expr, List.Sublist (letNamesValue e) (namesValue e)
  | none => List.nil_sublist _
  | some e => e.letNames_sublist

theorem Statement.letNames_sublist : ∀ s : Statement, List.Sublist s.letNames s.names
  | .binding _ _ e => e.letNames_sublist.cons_cons _
  | .returning _ e => letNamesValue_sublist e
  | .expression _ e => List.sublist_append_of_sublist_right e.letNames_sublist

theorem letNamesStatements_sublist : ∀ ss : List Statement,
    List.Sublist (letNamesStatements ss) (namesStatements ss)
  | [] => List.nil_sublist _
  | s :: ss => s.letNames_sublist.append (letNamesStatements_sublist ss)

theorem Block.letNames_sublist : ∀ b : Block, List.Sublist b.letNames b.names
  | ⟨_, ss⟩ => letNamesStatements_sublist ss

end

theorem Eval.program_changesOnly {n : Nat} {k : ScopeId} {p : Program} {m m' : Machine} {o : Object}
    (h : program n k p m = some (o, m')) : m.ChangesOnly k p.names m' := by
  obtain ⟨r, hr⟩ := ends_of_outcome h
  exact ((framed n).block k ⟨.eof 0, p⟩ m r m' hr).mono (letNamesStatements_sublist p).subset

/-! ## The same names -/

/-- The names of a program stand for themselves, wherever they are. -/
def Naming.same (names : List String) : Naming where
  Mode := Unit
  names _ a a' := a ∈ names ∧ a' = a
  one_to_one h h' := by rw [h.2, h'.2]

namespace Machine

/-- No name in sight of the scope is one of these. -/
def Misses (m : Machine) (k : ScopeId) (names : List String) : Prop :=
  ∀ a ∈ names, m.get? k a = none

theorem Misses.bindings {m : Machine} {k : ScopeId} {names : List String} (h : m.Misses k names)
    {a : String} (ha : a ∈ names) : ∀ j ∈ m.chain k, (m.bindings j).get? a = none :=
  List.findSome?_eq_none_iff.1 (h a ha)

end Machine

/-- A fresh machine here, a scope of a machine that there is there. -/
def Dictionary.within (names : List String) {m : Machine} (hm : m.WellScoped) {k : ScopeId}
    (hk : k < m.scopes.size) : Dictionary where
  toNaming := .same names
  scope
    | 0 => k
    | i + 1 => m.scopes.size + i
  scope_injective {i j} h := by
    have hnew (n : Nat) : m.scopes.size + n ≠ k := fun heq =>
      Nat.not_lt.2 (Nat.le_add_right m.scopes.size n) (heq ▸ hk)
    match i, j, h with
    | 0, 0, _ => rfl
    | 0, j + 1, h => exact absurd h.symm (hnew j)
    | i + 1, 0, h => exact absurd h (hnew i)
    | i + 1, j + 1, h => exact congrArg (· + 1) (Nat.add_left_cancel h)
  identity i := m.nextFunction + i
  outer := m.enclosing k
  outer_apart i hi := by
    have hlt := hm.enclosing_lt hk _ hi
    match i with
    | 0 => exact Nat.lt_irrefl k hlt
    | i + 1 => exact Nat.not_lt.2 (Nat.le_add_right m.scopes.size i) (Nat.lt_trans hlt hk)

section

variable {names : List String} {m : Machine} {k : ScopeId}

theorem links_fresh (hm : m.WellScoped) (hk : k < m.scopes.size) (hfree : m.Misses k names) :
    World.Links (D := .within names hm hk) ⟨[()], []⟩ .fresh m where
  modes := rfl
  closures := rfl
  nextScope i := by
    rw [Nat.add_comm]
    rfl
  nextFunction i := congrArg (m.nextFunction + ·) (Nat.zero_add i)
  bindings j _ hj a a' ha := by
    obtain ⟨ha, rfl⟩ := ha
    cases j with
    | zero =>
      have hnone : (m.bindings k).get? a' = none := hfree.bindings ha k List.mem_cons_self
      show Option.Rel _ none ((m.bindings k).get? a')
      rw [hnone]
      exact .none
    | succ j => cases hj
  placed j _ hj := by
    cases j with
    | zero =>
      refine .first rfl rfl fun a a' ha => ⟨ha.2, fun i hi => ?_⟩
      rw [ha.2]
      exact hfree.bindings ha.1 i (List.mem_cons_of_mem _ hi)
    | succ j => cases hj

theorem looksLike_of_stands {hm : m.WellScoped} {hk : k < m.scopes.size}
    {W : World (.within names hm hk)} {o o' : Object} (h : W.Stands o o') : o'.LooksLike o := by
  obtain ⟨hold, rfl⟩ := h
  let f (c : Closure) : Closure := { W.closure c with parameters := c.parameters, body := c.body }
  have hsame : W.object o = o.mapClosures f := by
    refine o.mapClosures_congr fun c hc => ?_
    obtain ⟨μ, c', -, hc', hrenames⟩ := hold _ hc c rfl
    obtain ⟨hparameters, hbody⟩ := hrenames.back (f := id) fun _ _ _ ha => ha.2
    have hparameters' : c'.parameters = c.parameters := (List.map_id _).symm.trans hparameters
    rw [Block.rename_id] at hbody
    show W.closure c = { W.closure c with parameters := c.parameters, body := c.body }
    rw [World.closure_eq hc', ← hparameters', ← hbody]
  rw [hsame]
  exact Object.looksLike_mapClosures (h := f) (fun _ => rfl) (fun _ => rfl) o

/-! ## Texts -/

/-- The end `u` of a text on a fresh machine, and its end `u'` in the scope `k` of `m`. -/
structure Apart (m : Machine) (k : ScopeId) (u u' : Except Failure Object × Machine) : Prop where
  result : Run.EndsAlike (· = ·) (fun o o' => o'.LooksLike o) u.1 u'.1
  output : u'.2.output = m.output ++ u.2.output
  /-- What the text binds by itself, it binds in the scope. -/
  bound : ∀ a o, (u.2.bindings Machine.root).get? a = some o →
    ∃ o', (u'.2.bindings k).get? a = some o' ∧ o'.LooksLike o
  unbound : ∀ a, (u.2.bindings Machine.root).get? a = none →
    (u'.2.bindings k).get? a = (m.bindings k).get? a
  /-- What was in sight before stays as it was. -/
  kept : ∀ j ∈ m.chain k, ∀ a o, (m.bindings j).get? a = some o →
    (u'.2.bindings j).get? a = some o

theorem apart_failure (m : Machine) (k : ScopeId) (f : Failure) :
    Apart m k (.error f, .fresh) (.error f, m) where
  result := rfl
  output := (String.append_empty).symm
  bound a o h := by cases h
  unbound _ _ := rfl
  kept _ _ _ _ h := h

theorem apart_ends {p : Program} {n : Nat} (hm : m.WellScoped) (hk : k < m.scopes.size)
    (hfree : m.Misses k p.names) {o o' : Object} {m₁ m₁' : Machine} {ts : List Trace}
    (h : Eval.program n Machine.root p .fresh = some (o, m₁))
    (h' : Eval.program n k p m = some (o', m₁')) {W : World (.within p.names hm hk)}
    (hg : World.Grows ⟨[()], []⟩ W)
    (ht : Traced.Together (fun _ => True) W .fresh m (o, m₁, ts) (o', m₁')) :
    Apart m k (verdict o, m₁) (verdict o', m₁') := by
  have hhere : Machine.fresh.ChangesOnly Machine.root p.names m₁ := Eval.program_changesOnly h
  have hthere : m.ChangesOnly k p.names m₁' := Eval.program_changesOnly h'
  have hnames : ∀ a ∈ p.names, Option.Rel W.Stands ((m₁.bindings Machine.root).get? a)
      ((m₁'.bindings k).get? a) :=
    fun a ha => ht.links.bindings Machine.root () (hg.mode rfl) a a ⟨ha, rfl⟩
  refine ⟨?_, ?_, fun a o ho => ?_, fun a hnone => ?_, fun j hj a o ho => ?_⟩
  · have hlooks := looksLike_of_stands ht.result
    have hobject : o' = W.object o := ht.result.eq
    rw [hobject] at hlooks ⊢
    exact endsAlike_verdict hlooks
  · exact ht.output (fun _ _ _ _ _ _ => trivial) m.output (String.append_empty).symm
  -- a name of the program is bound on both sides, and no other name is bound here
  · by_cases ha : a ∈ p.names
    · have hrel := hnames a ha
      rw [ho] at hrel
      generalize (m₁'.bindings k).get? a = x at hrel
      cases hrel with
      | some hstands => exact ⟨_, rfl, looksLike_of_stands hstands⟩
    · have hsame := hhere.bindings Nat.zero_lt_one a ha
      rw [ho] at hsame
      cases hsame
  · by_cases ha : a ∈ p.names
    · have hrel := hnames a ha
      rw [hnone] at hrel
      rw [hfree.bindings ha k List.mem_cons_self]
      generalize (m₁'.bindings k).get? a = x at hrel
      cases hrel
      rfl
    · exact hthere.bindings hk a ha
  -- what was in view before is no name of the program, so it stays bound as it was
  · have ha : a ∉ p.names := fun ha => by
      rw [hfree.bindings ha j hj] at ho
      cases ho
    rcases List.mem_cons.1 hj with rfl | hj
    · rw [hthere.bindings hk a ha, ho]
    · have hlt := hm.enclosing_lt hk j hj
      have hsame := hthere.others j (Nat.lt_trans hlt hk) (Nat.ne_of_lt hlt)
      rw [Machine.bindings, hsame]
      exact ho

theorem programs_beside {p : Program} (hm : m.WellScoped) (hk : k < m.scopes.size)
    (hfree : m.Misses k p.names) (n : Nat) :
    Option.Rel (fun u u' => ∃ W : World (.within p.names hm hk), World.Grows ⟨[()], []⟩ W ∧
        Traced.Together (fun _ => True) W .fresh m u u')
      (Traced.program n Machine.root p .fresh) (Eval.program n k p m) := by
  let D := Dictionary.within p.names hm hk
  have hshows : Traced.ShownAlike D fun _ => True :=
    fun W o ho _ => (looksLike_of_stands ⟨ho, rfl⟩).display
  have hmode : (⟨[()], []⟩ : World D).modes[Machine.root]? = some () := rfl
  have hcode : D.Corresponds () (.statements p) (.statements p) :=
    Naming.corresponds_self _ fun a ha => ⟨ha, rfl⟩
  exact Traced.programs_together hshows n (links_fresh hm hk hfree) hmode hcode

theorem programs_apart {p : Program} (hm : m.WellScoped) (hk : k < m.scopes.size)
    (hfree : m.Misses k p.names) (n : Nat) :
    Option.Rel (Apart m k)
      ((Eval.program n Machine.root p .fresh).map fun (o, m') => (verdict o, m'))
      ((Eval.program n k p m).map fun (o, m') => (verdict o, m')) := by
  have hruns := programs_beside hm hk hfree n
  have hrecord := Traced.program_erases n Machine.root p .fresh
  generalize Traced.program n Machine.root p .fresh = u, hr : Eval.program n k p m = u'
    at hruns hrecord ⊢
  cases hruns with
  | none =>
    rw [← hrecord]
    exact .none
  | some h =>
    obtain ⟨W, hg, ht⟩ := h
    rw [← hrecord]
    exact .some (apart_ends hm hk hfree hrecord.symm hr hg ht)

theorem texts_apart {source : String} (hm : m.WellScoped) (hk : k < m.scopes.size)
    (hfree : m.Misses k (parse source).program.names) (n : Nat) :
    Option.Rel (Apart m k) (interpret n Machine.root source .fresh) (interpret n k source m) := by
  by_cases herrors : (parse source).errors = []
  · rw [interpret_of_errors_nil herrors, interpret_of_errors_nil herrors]
    exact programs_apart hm hk hfree n
  · rw [interpret, interpret, if_neg herrors, if_neg herrors]
    exact .some (apart_failure m k _)

end

/-- Hosts only reach well scoped machines, and run texts in scopes that there are. Earlier bindings
matter there only to texts that mention them: where no name in sight of a scope occurs in a text,
the text runs in the scope as it does on a fresh machine, or neither run ends. -/
theorem interpret_apart :
    (∀ s : Session, s.Reached (fun m o => o.KnownTo m) →
      s.machine.WellScoped ∧ s.top < s.machine.scopes.size) ∧
    ∀ (m : Machine) (k : ScopeId), m.WellScoped → k < m.scopes.size →
      ∀ source, m.Misses k (parse source).program.names → ∀ n,
        Option.Rel (Apart m k) (interpret n Machine.root source .fresh) (interpret n k source m) :=
  ⟨fun _ hs => ⟨hs.wellScoped.machine, hs.wellScoped.top⟩,
    fun _ _ hm hk _ hfree n => texts_apart hm hk hfree n⟩

theorem interpret_apart_inside :
    let source := "let make = fn(x) \x7b fn(y) \x7b x + y \x7d \x7d; " ++
      "let up = make(1); puts(up(len(\"abc\"))); up"
    let m : Machine := ⟨#[⟨[("base", .integer 10)], []⟩, ⟨[("say", .builtin .puts)], [0]⟩], 0, "> "⟩
    m.WellScoped ∧ 1 < m.scopes.size ∧ m.Misses 1 (parse source).program.names ∧
      (interpret 20 1 source m).map (·.2.output) = some "> 4\n" ∧
      Option.Rel (Apart m 1) (interpret 20 Machine.root source .fresh)
        (interpret 20 1 source m) := by
  intro source m
  have hm : m.WellScoped := by
    refine ⟨fun k b hb => ?_, fun k hk => ?_⟩
    · match k, hb with
      | 0, hb =>
        obtain rfl : b = ("base", .integer 10) := List.mem_singleton.1 hb
        exact (Object.KnownTo.plain m).every_integer 10
      | 1, hb =>
        obtain rfl : b = ("say", .builtin .puts) := List.mem_singleton.1 hb
        exact (Object.KnownTo.plain m).every_builtin .puts
    · match k, hk with
      | 0, _ => exact .inl rfl
      | 1, _ => exact .inr ⟨0, Nat.zero_lt_one, rfl⟩
  have hfree : ∀ a ∈ (parse source).program.names, m.get? 1 a = none := by decide +kernel
  have houtput : (interpret 20 1 source m).map (·.2.output) = some "> 4\n" := by decide +kernel
  have hapart := interpret_apart.2 m 1 hm Nat.one_lt_two source hfree 20
  exact ⟨hm, Nat.one_lt_two, hfree, houtput, hapart⟩

end Treewalk
