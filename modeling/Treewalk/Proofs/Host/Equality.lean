import Treewalk.Proofs.Host.Apart
import Treewalk.Proofs.Value.Unordered

/-!
# Equality of objects

Equality is an equivalence that nothing sees through, whatever the order of the entries of hashes.
What programs end with is in order and has one function for each identity.
-/

namespace Treewalk

namespace Eval

theorem program_filed {n : Nat} {s : ScopeId} {p : Program} {m m' : Machine} {o : Object}
    (hm : m.Holds (fun _ => True) fun x => ∀ es, x = .hash es → Entry.Filed es)
    (h : program n s p m = some (o, m')) :
    o.Every fun x => ∀ es, x = .hash es → Entry.Filed es := by
  have hsturdy : Sturdy (fun _ => True) fun x => ∀ es, x = .hash es → Entry.Filed es := by
    constructor <;> simp
    exact fun _ hes => hes.filed
  have hsequence := (steady hsturdy n).sequence hsturdy (s := s) trivial p
  rcases (outcome_holds hsequence hm h).2 with ho | ⟨e, rfl⟩
  · exact ho
  · simp [Object.Every, Object.parts]

/-- Beside the same run a function stands for itself. -/
theorem eq_of_renames {names : List String} {hm : Machine.fresh.WellScoped}
    {hk : Machine.root < Machine.fresh.scopes.size} {c c' : Closure} {μ : Unit}
    (h : (Dictionary.within names hm hk).Renames μ c c') : c' = c := by
  obtain ⟨hparameters, hbody⟩ := h.back (f := id) fun _ _ _ ha => ha.2
  have hidentity : c'.identity = c.identity := h.identity.trans (Nat.zero_add _)
  have hparameters' : c'.parameters = c.parameters := (List.map_id _).symm.trans hparameters
  have hbody' : c'.body = c.body := c'.body.rename_id.symm.trans hbody
  have hscope : c'.scope = c.scope := by
    rw [h.scope]
    cases c.scope with
    | zero => rfl
    | succ i => exact Nat.add_comm 1 i
  cases c
  cases c'
  cases hidentity
  cases hparameters'
  cases hbody'
  cases hscope
  rfl

theorem program_functions {n : Nat} {p : Program} {m : Machine} {o : Object}
    (h : program n Machine.root p .fresh = some (o, m)) : ∃ functions : Nat → Closure,
      o.Every fun x => ∀ c, x = .function c → functions c.identity = c := by
  have hfresh : Machine.fresh.WellScoped := Machine.WellScoped.empty.newRoot
  have hroot : Machine.root < Machine.fresh.scopes.size := Nat.zero_lt_one
  have hfree : Machine.fresh.Misses Machine.root p.names := fun _ _ => rfl
  have hruns := programs_beside hfresh hroot hfree n
  have hrecord := Traced.program_erases n Machine.root p .fresh
  rw [h] at hrecord hruns
  obtain ⟨⟨o', m', ts⟩, hu, heq⟩ := Option.map_eq_some_iff.1 hrecord
  cases heq
  rw [hu] at hruns
  cases hruns with
  | some hends =>
    obtain ⟨W, -, ht⟩ := hends
    refine ⟨fun i => (W.closures[i]?).getD ⟨0, [], ⟨.eof 0, []⟩, 0⟩, fun x hx c hc => ?_⟩
    obtain ⟨μ, c', -, hc', hrenames⟩ := ht.result.holds x hx c hc
    show (W.closures[c.identity]?).getD _ = c
    rw [hc', Option.getD_some, eq_of_renames hrenames]

theorem program_ordered {n : Nat} {p : Program} {m : Machine} {o : Object}
    (h : program n Machine.root p .fresh = some (o, m)) :
    ∃ functions, o.Ordered functions := by
  obtain ⟨functions, hfunctions⟩ := program_functions h
  have hfiled := program_filed Machine.Holds.empty.newRoot h
  exact ⟨functions, fun x hx => ⟨hfunctions x hx, hfiled x hx⟩⟩

end Eval

/-- What equality is like on objects with these functions. -/
structure Object.EqualityLaws (functions : Nat → Closure) : Prop where
  equivalence : Equivalence fun a b : {o : Object // o.Coherent functions} => a.1.equals b.1 = true
  /-- Nothing tells equal objects apart, and with their entries in order they look alike. -/
  alike : ∀ a b : Object, a.Coherent functions → b.Coherent functions → a.equals b = true →
    a.kind = b.kind ∧ a.truthy = b.truthy ∧ a.hashKey? = b.hashKey? ∧
      a.arranged.display = b.arranged.display
  arranged : ∀ o : Object, o.Coherent functions →
    o.arranged.Ordered functions ∧ o.equals o.arranged = true
  reordered : ∀ es fs, (hash es).Coherent functions → fs.Perm es →
    (hash fs).Coherent functions ∧ (hash fs).equals (hash es) = true
  /-- Pairs with hash keys of their own make one hash, in whatever order they are inserted. -/
  inserted : ∀ kvs kvs', (∀ kv ∈ kvs, kv.1.Ordered functions ∧ kv.2.Ordered functions) →
    (kvs.map (·.1.hashKey?)).Nodup → kvs'.Perm kvs →
      (ofPairs kvs).Ordered functions ∧ ofPairs kvs' = ofPairs kvs
  /-- On objects in order it is the comparison that hosts make. -/
  compared : ∀ a b : Object, a.Ordered functions → b.Ordered functions →
    a.arranged = a ∧ a.equals b = a.same b

/-- Equality is an equivalence that no operation sees through, whatever the order of the entries of
hashes. What a program ends with is in order already, with one function for each identity. -/
theorem objects_equal_alike :
    (∀ functions, Object.EqualityLaws functions) ∧
    ∀ n p o m, Eval.program n Machine.root p .fresh = some (o, m) →
      ∃ functions, o.Ordered functions := by
  refine ⟨fun functions => ?_, fun n p o m => Eval.program_ordered⟩
  refine ⟨Object.equals_equivalence functions, fun a b => Object.alike_of_equals,
    fun o ho => ⟨ho.arranged, Object.equals_arranged ho⟩, fun es fs => Object.equals_of_perm,
    fun kvs kvs' hkvs hkeys hp => ⟨Object.ordered_ofPairs hkvs, ?_⟩,
    fun a b ha hb => ⟨ha.arranged_eq, Object.equals_eq_same ha hb⟩⟩
  have hsame := (builtFrom_file kvs).eq_of_perm (builtFrom_file kvs') hp hkeys
  exact congrArg Object.hash hsame

/-- A hash in a hash, with a function, a return signal and an error, its entries in two orders; and
a text that ends with a function and a hash. -/
theorem objects_equal_alike_nested :
    let c : Closure := ⟨7, [⟨.ident, "x", 1⟩], ⟨.eof 1, []⟩, 0⟩
    let e : Entry Object := ⟨.boolean true, .boolean true, .array [.function c, .builtin .len]⟩
    let f : Entry Object := ⟨.integer 2, .integer 2, .returning (.error .divisionByZero)⟩
    let a : Object := .hash [⟨.integer 1, .integer 1, .hash [e, f]⟩, f]
    let b : Object := .hash [f, ⟨.integer 1, .integer 1, .hash [f, e]⟩]
    let p := (parse "[fn(x) \x7b x \x7d, \x7btrue: 1, 1: 2\x7d]").program
    a.Coherent (fun _ => c) ∧ b.Coherent (fun _ => c) ∧ a.same b = false ∧ a.equals b = true ∧
      a.kind = b.kind ∧ a.truthy = b.truthy ∧ a.hashKey? = b.hashKey? ∧
      a.arranged.display = b.arranged.display ∧
      a.arranged.display = "\x7b1: \x7b2: ERROR: division by zero, " ++
        "true: [fn(x) \x7b\n\n\x7d, builtin function]\x7d, 2: ERROR: division by zero\x7d" ∧
      ∃ o m functions, Eval.program 5 Machine.root p .fresh = some (o, m) ∧
        o.Ordered functions := by
  intro c e f a b p
  have ha : a.Coherent fun _ => c := by
    simp [a, e, f, c, Object.Coherent, Object.Every, Object.parts, partsEntries, partsAll,
      Entry.Table]
  have hb : b.Coherent fun _ => c := by
    simp [b, e, f, c, Object.Coherent, Object.Every, Object.parts, partsEntries, partsAll,
      Entry.Table]
  have hequal : a.equals b = true := by decide +kernel
  obtain ⟨hkind, htruthy, hhash, hdisplay⟩ :=
    (objects_equal_alike.1 fun _ => c).alike a b ha hb hequal
  have hends : (Eval.program 5 Machine.root p .fresh).isSome = true := by decide +kernel
  obtain ⟨⟨o, m⟩, hrun⟩ := Option.isSome_iff_exists.1 hends
  obtain ⟨functions, hordered⟩ := objects_equal_alike.2 5 p o m hrun
  exact ⟨ha, hb, by decide +kernel, hequal, hkind, htruthy, hhash, hdisplay, by decide +kernel,
    o, m, functions, hrun, hordered⟩

end Treewalk
