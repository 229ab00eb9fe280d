import Treewalk.Proofs.Eval.Frame
import Treewalk.Proofs.Eval.Relabel
import Treewalk.Proofs.Host.Reached

/-!
# Calls repeat

A call that ended ends again when it is made once more, with the same output and the same result.
What is new are the numbers of the scopes and functions that it makes.
-/

namespace Treewalk

/-! ## New numbers for what is new -/

/-- Leaves the numbers below `start` and moves the others up. -/
def moveUp (start up k : Nat) : Nat := if k < start then k else k + up

theorem moveUp_of_lt {start up k : Nat} (h : k < start) : moveUp start up k = k := if_pos h

theorem moveUp_add (start up i : Nat) : moveUp start up (start + i) = start + up + i := by
  rw [moveUp, if_neg (by omega)]
  omega

theorem moveUp_injective {start up k j : Nat} (h : moveUp start up k = moveUp start up j) :
    k = j := by
  unfold moveUp at h
  split at h <;> split at h <;> omega

namespace Relabelling

/-- Leaves what there is on `m` and renumbers what comes later as it comes on `m'`. -/
def again (m m' : Machine) : Relabelling where
  token := id
  lead := id
  literal _ := rfl
  scope := moveUp m.scopes.size (m'.scopes.size - m.scopes.size)
  scope_injective := moveUp_injective
  identity := moveUp m.nextFunction (m'.nextFunction - m.nextFunction)

variable {m m' : Machine}

theorem scope_again {k : ScopeId} (hk : k < m.scopes.size) : (again m m').scope k = k :=
  moveUp_of_lt hk

theorem closure_again {c : Closure} (hc : m.Knows c) : (again m m').closure c = c := by
  obtain ⟨i, ps, b, k⟩ := c
  obtain ⟨hscope, hidentity⟩ := hc
  simp only [closure, again, List.map_id, Block.mapTokens_id, moveUp_of_lt hscope,
    moveUp_of_lt hidentity]

theorem object_again {o : Object} (ho : o.KnownTo m) : (again m m').object o = o :=
  o.mapClosures_eq_self fun _ hc => closure_again (ho.of_mem hc)

theorem contents_again (hm : m.WellScoped) {k : ScopeId} {s : Scope} (hs : m.scopes[k]? = some s) :
    (again m m').contents s = s := by
  obtain ⟨bs, js⟩ := s
  have hk : k < m.scopes.size := (Array.getElem?_eq_some_iff.1 hs).1
  have hbindings : m.bindings k = bs := by simp [Machine.bindings, hs]
  have henclosing : m.enclosing k = js := by simp [Machine.enclosing, hs]
  have hbs : (again m m').bindings bs = bs := by
    refine (List.map_congr_left fun b hb => ?_).trans (List.map_id bs)
    rw [object_again (hm.bindings k b (hbindings ▸ hb))]
    rfl
  have hjs : js.map (again m m').scope = js := by
    refine (List.map_congr_left fun j hj => ?_).trans (List.map_id js)
    exact scope_again (Nat.lt_trans (hm.enclosing_lt hk j (henclosing ▸ hj)) hk)
  rw [contents, hbs, hjs]

end Relabelling

theorem Machine.WellScoped.matches_again {m m' : Machine} (hm : m.WellScoped) (hg : m.Grows m')
    (hext : m.Extends m') : m.Matches (.again m m') m.output m'.output m' := by
  have hscope (i : Nat) : (Relabelling.again m m').scope (m.scopes.size + i) =
      m'.scopes.size + i := by
    have hmove := moveUp_add m.scopes.size (m'.scopes.size - m.scopes.size) i
    rwa [Nat.add_sub_cancel' hg.size] at hmove
  have hidentity (i : Nat) : (Relabelling.again m m').identity (m.nextFunction + i) =
      m'.nextFunction + i := by
    have hmove := moveUp_add m.nextFunction (m'.nextFunction - m.nextFunction) i
    rwa [Nat.add_sub_cancel' hg.functions] at hmove
  have hscopes (k : ScopeId) : m'.scopes[(Relabelling.again m m').scope k]? =
      m.scopes[k]?.map (Relabelling.again m m').contents := by
    by_cases hk : k < m.scopes.size
    · rw [Relabelling.scope_again hk, hext.same k hk]
      cases hs : m.scopes[k]? with
      | none => rfl
      | some s => rw [Option.map_some, Relabelling.contents_again hm hs]
    · -- Scopes that are not there yet go to scopes that are not there yet.
      obtain ⟨i, rfl⟩ := Nat.exists_eq_add_of_le (Nat.le_of_not_lt hk)
      rw [hscope, Array.getElem?_eq_none (Nat.le_add_right _ _),
        Array.getElem?_eq_none (Nat.le_add_right _ _), Option.map_none]
  exact ⟨hscopes, hscope, hidentity, "", by simp, by simp⟩

namespace Eval

/-- What the second of two runs has in common with the first one, which led from `m` to `m'`. -/
structure Repeats (m m' m'' : Machine) (o o' : Object) : Prop where
  output : ∃ text, m'.output = m.output ++ text ∧ m''.output = m'.output ++ text
  flat : o'.flat = o.flat
  display : o'.display = o.display
  truthy : o'.truthy = o.truthy
  error : ∀ e, o = .error e → o' = .error e
  /-- Apart from the numbers of new scopes and functions the results are equal. -/
  renumbered : o' = (Relabelling.again m m').object o
  /-- And so is everything else there is afterwards. -/
  machine : m'.Matches (.again m m') m.output m'.output m''

theorem call_again {m : Machine} (hm : m.WellScoped) {n : Nat} {f : Object}
    {arguments : List Object} (hf : f.KnownTo m) (ha : ∀ x ∈ arguments, x.KnownTo m)
    {o : Object} {m' : Machine} (h : call n f arguments m = some (o, m')) :
    ∃ o' m'', call n f arguments m' = some (o', m'') ∧ Repeats m m' m'' o o' := by
  obtain ⟨r, hr⟩ := ends_of_outcome h
  have hext : m.Extends m' := (framed n).apply f arguments m r m' hr
  obtain ⟨hg, -, -⟩ := call_wellScoped hm hf ha h
  -- the machine after the call matches the one before it, so the calls go alike
  have hcalls := call_follows n f arguments (hm.matches_again hg hext)
  have hsame : arguments.map (Relabelling.again m m').object = arguments :=
    (List.map_congr_left fun x hx => Relabelling.object_again (ha x hx)).trans (List.map_id _)
  rw [Relabelling.object_again hf, hsame, h] at hcalls
  generalize hcall : call n f arguments m' = u at hcalls
  obtain @⟨_, ⟨o', m''⟩, ho, hmatches⟩ := hcalls
  have hagain : o' = (Relabelling.again m m').object o := ho
  refine ⟨o', m'', rfl, hmatches.output, ?_, ?_, ?_, ?_, hagain, hmatches⟩
  all_goals rw [hagain]
  · exact (Relabelling.looksLike_object _ o).flat
  · exact (Relabelling.looksLike_object _ o).display
  · exact Relabelling.truthy_object _ o
  · rintro e rfl
    rfl

/-- Hosts only reach well scoped machines. On any such machine a call that ends, made once more,
ends with the same output and the same result, apart from the numbers of what is new. -/
theorem calls_repeat :
    (∀ s : Session, s.Reached (fun m o => o.KnownTo m) → s.machine.WellScoped) ∧
    ∀ m : Machine, m.WellScoped → ∀ n f arguments, f.KnownTo m →
      (∀ x ∈ arguments, x.KnownTo m) → ∀ o m', call n f arguments m = some (o, m') →
      ∃ o' m'', call n f arguments m' = some (o', m'') ∧ Repeats m m' m'' o o' :=
  ⟨fun _ hs => hs.wellScoped.machine, fun _ hm _ _ _ hf ha _ _ h => call_again hm hf ha h⟩

theorem calls_repeat_maker :
    let name (s : String) : Token := ⟨.ident, s, 1⟩
    let token : Token := ⟨.function, "fn", 1⟩
    let inner : Expr := .function token [] ⟨token, [.expression token (.identifier (name "x"))]⟩
    let put : Expr := .call token (.identifier (name "puts")) [.identifier (name "x")]
    let c : Closure := ⟨0, [name "x"], ⟨token, [.expression token put, .expression token inner]⟩, 0⟩
    let m : Machine := ⟨#[⟨[("make", .function c)], []⟩], 1, ""⟩
    Session.start.machine.WellScoped ∧ m.WellScoped ∧ (Object.function c).KnownTo m ∧
    ∃ o m', call 4 (.function c) [.integer 7] m = some (o, m') ∧ m'.output = "7\n" ∧
      ∃ o' m'', call 4 (.function c) [.integer 7] m' = some (o', m'') ∧ o' ≠ o ∧
        Repeats m m' m'' o o' := by
  intro name token inner put c m
  have hknows : (Object.function c).KnownTo m := .function ⟨Nat.zero_lt_one, Nat.zero_lt_one⟩
  have hm : m.WellScoped := by
    refine ⟨fun k b hb => ?_, fun k hk => .inl ?_⟩
    · cases k with
      | zero =>
        obtain rfl : b = ("make", .function c) := List.mem_singleton.1 hb
        exact hknows
      | succ k => simp [m, Machine.bindings] at hb
    · obtain rfl : k = 0 := Nat.lt_one_iff.1 hk
      rfl
  have hargument : ∀ x ∈ [Object.integer 7], x.KnownTo m :=
    List.forall_mem_singleton.2 ((Object.KnownTo.plain m).every_integer 7)
  refine ⟨calls_repeat.1 _ .start, hm, hknows, _, _, rfl, rfl, _, _, rfl, ?_, ?_⟩
  · intro h
    cases h
  · obtain ⟨o', m'', hcall, hrepeats⟩ :=
      calls_repeat.2 m hm 4 (.function c) [.integer 7] hknows hargument _ _ rfl
    cases hcall
    exact hrepeats

end Eval

end Treewalk
