import Treewalk.Proofs.Eval.Loops
import Treewalk.Proofs.Host.Resolved

/-!
# Functions that take functions

The functions `map` and `reduce` of the guide, as the text defines them in a new scope without any
around it. They do what `mapM` and `foldlM` do with a call for each element.
-/

namespace Treewalk

/-! ## The text -/

/-- The definitions of the guide. -/
def guide : String :=
  "let map = fn(arr, f) \x7b\n" ++
  "    let iter = fn(arr, acc) \x7b\n" ++
  "        if (len(arr) == 0) \x7b acc \x7d " ++
  "else \x7b iter(rest(arr), push(acc, f(first(arr)))) \x7d\n" ++
  "    \x7d;\n" ++
  "    iter(arr, [])\n" ++
  "\x7d;\n" ++
  "let reduce = fn(arr, initial, f) \x7b\n" ++
  "    let iter = fn(arr, result) \x7b\n" ++
  "        if (len(arr) == 0) \x7b result \x7d " ++
  "else \x7b iter(rest(arr), f(result, first(arr))) \x7d\n" ++
  "    \x7d;\n" ++
  "    iter(arr, initial)\n" ++
  "\x7d;\n"

def mapStep : Expr :=
  .called 3 "push" [.word 3 "acc", .called 3 "f" [.called 3 "first" [.word 3 "arr"]]]

def reduceStep : Expr :=
  .called 9 "f" [.word 9 "result", .called 9 "first" [.word 9 "arr"]]

def mapParameters : List Token := [word 1 "arr", word 1 "f"]

def reduceParameters : List Token := [word 7 "arr", word 7 "initial", word 7 "f"]

def mapBody : Block :=
  ⟨⟨.leftBrace, "\x7b", 1⟩, loopingBody 2 "acc" mapStep (.array ⟨.leftBracket, "[", 5⟩ [])⟩

def reduceBody : Block :=
  ⟨⟨.leftBrace, "\x7b", 7⟩, loopingBody 8 "result" reduceStep (.word 11 "initial")⟩

def guideProgram : Program :=
  [.binding ⟨.letWord, "let", 1⟩ (word 1 "map")
    (.function ⟨.function, "fn", 1⟩ mapParameters mapBody),
   .binding ⟨.letWord, "let", 7⟩ (word 7 "reduce")
    (.function ⟨.function, "fn", 7⟩ reduceParameters reduceBody)]

theorem parse_guide : (parse guide).program = guideProgram ∧ (parse guide).errors = [] := by
  -- The pieces of the text are quicker to take apart than all of it at once.
  delta guide
  simp only [parse, scan, String.toList_append, -String.reduceAppend]
  decide +kernel

/-- The function `map` of the guide, defined in the scope `k`. -/
def mapClosure (k : ScopeId) (identity : Nat) : Closure := ⟨identity, mapParameters, mapBody, k⟩

/-- The function `reduce` of the guide, defined in the scope `k`. -/
def reduceClosure (k : ScopeId) (identity : Nat) : Closure :=
  ⟨identity, reduceParameters, reduceBody, k⟩

/-! ## What one call of the loop does -/

namespace Eval

open Run Machine

variable {m₀ : Machine} {n : Nat} {f : Object}

theorem result_push_object (L : Relabelling) (vs : List Object) (v : Object) :
    Builtin.result .push [L.object (.array vs), L.object v] =
      .ok (L.object (.array (vs ++ [v]))) := by
  simp only [Relabelling.object, Object.mapClosures_array, List.map_append, List.map_singleton]
  rfl

theorem known_snoc {m : Machine} {vs : List Object} {v : Object} (hvs : (Object.array vs).KnownTo m)
    (hv : v.KnownTo m) : (Object.array (vs ++ [v])).KnownTo m := by
  refine (Object.KnownTo.plain m).every_array fun x hx => ?_
  rcases List.mem_append.1 hx with hx | hx
  · exact (Object.every_array.1 hvs).2 x hx
  · exact List.mem_singleton.1 hx ▸ hv

theorem map_steps (hf : f.KnownTo m₀) (hsignal : f.isSignal = false) :
    Steps m₀ f "acc" mapStep (n + 4) Object.array
      (fun vs x => do return vs ++ [← applied n f [x]]) := by
  intro L h h' m' t x xs vs iter r d hs hin hvs _ hx hxsignal hr hd
  obtain ⟨d, rfl⟩ := Nat.exists_eq_add_of_le' (Nat.le_trans (Nat.le_add_left 4 n) hd)
  have harguments : ∀ y ∈ [x], y.KnownTo h := List.forall_mem_singleton.2 (hx.mono hs.grows)
  have hpush : expression (d + 4) t mapStep m' =
      (applied (d + 2) f [x] >>= fun o =>
        applied (d + 3) (.builtin .push) [L.object (.array vs), o]) m' := by
    have hcallee : named t "push" m' = some (.ok (.builtin .push), m') :=
      named_builtin (b := .push) (hin.builtins _ (by decide))
    refine (expression_called_two hcallee (expression_word hin.acc ?_) _).trans (bind_at ?_ _)
    · exact (Relabelling.isSignal_object L _).trans rfl
    · rw [expression_called_one (named_bound hin.callee hsignal), bind_ok (hin.first hxsignal)]
  have hsame : [x].map L.object = [x] := congrArg (List.cons · []) (hs.object hx)
  have hcalls {r₁ : Except Signal Object} {h₁ : Machine}
      (hcall : applied n f [x] h = some (r₁, h₁)) :=
    applied_alongside hs (d := d + 2) (by omega) hf harguments hcall
  rw [hsame] at hcalls
  rcases bind_ends hr with ⟨s, hcall, rfl⟩ | ⟨v, h₁, hcall, hrest⟩
  · obtain ⟨r', m'', hcall', hends, -, hs', hext⟩ := hcalls hcall
    cases r' with
    | ok _ => exact hends.elim
    | error s' => exact ⟨_, m'', hpush.trans (bind_error hcall'), hends, hs', hext⟩
  · cases hrest
    obtain ⟨r', m'', hcall', hends, hgrows, hs', hext⟩ := hcalls hcall
    cases r' with
    | error _ => exact hends.elim
    | ok o =>
      obtain ⟨rfl, hknown, -⟩ := hends
      refine ⟨.ok (L.object (.array (vs ++ [v]))), m'', hpush.trans ((bind_ok hcall').trans ?_),
        ⟨rfl, ?_, rfl⟩, hs', hext⟩
      · exact applied_builtin rfl (result_push_object L vs v) (Relabelling.isSignal_object L _)
      · exact known_snoc (hvs.mono hgrows) hknown

theorem reduce_steps (hf : f.KnownTo m₀) (hsignal : f.isSignal = false) :
    Steps m₀ f "result" reduceStep (n + 4) id (fun a x => applied n f [a, x]) := by
  intro L h h' m' t x xs a iter r d hs hin ha hasignal hx hxsignal hr hd
  obtain ⟨d, rfl⟩ := Nat.exists_eq_add_of_le' (Nat.le_trans (Nat.le_add_left 4 n) hd)
  have harguments : ∀ y ∈ [a, x], y.KnownTo h :=
    List.forall_mem_cons.2 ⟨ha, List.forall_mem_singleton.2 (hx.mono hs.grows)⟩
  obtain ⟨r', m'', hcall, hends, -, hs', hext⟩ :=
    applied_alongside hs (d := d + 3) (by omega) hf harguments hr
  refine ⟨r', m'', ?_, hends, hs', hext⟩
  rw [List.map_cons, List.map_singleton, hs.object hx] at hcall
  refine (expression_called_two (named_bound hin.callee hsignal) (expression_word hin.acc ?_)
    _).trans ?_
  · exact (Relabelling.isSignal_object L _).trans hasignal
  · rw [bind_ok (hin.first hxsignal)]
    exact hcall

/-! ## Calls of the two functions -/

/-- The end of a call compared with that of a run that makes no scopes but those of `f`. Both
started from `m`, and have printed the same. -/
structure Reflects (m h m' : Machine) (v o : Object) : Prop where
  output : m'.output = h.output
  flat : o.flat = v.flat
  display : o.display = v.display
  known : v.KnownTo m → o = v
  /-- What was made on the way has other numbers on `m'`, and is the same apart from that. -/
  renumbered : ∃ L, o = L.object v ∧ m.Alongside L h m'

/-- Where the run ends with a result, so does the call, and where it ends with an error, the call
gives that error. -/
def Performs (m : Machine) (x : Eval Object) (depth : Nat) (f : Object) (arguments : List Object) :
    Prop :=
  (∀ v h, x m = some (.ok v, h) → ∀ d ≥ depth, ∃ o m', call d f arguments m = some (o, m') ∧
    Reflects m h m' v o) ∧
  ∀ e h, x m = some (.error (.error e), h) → ∀ d ≥ depth, ∃ m',
    call d f arguments m = some (.error e, m') ∧ Reflects m h m' (.error e) (.error e)

theorem Reflects.of_alongside {m h m' : Machine} {L : Relabelling} (hs : m.Alongside L h m')
    (v : Object) : Reflects m h m' v (L.object v) where
  output := hs.output
  flat := (L.looksLike_object v).flat
  display := (L.looksLike_object v).display
  known := hs.object
  renumbered := ⟨L, rfl, hs⟩

theorem performs_of {α : Type} {m : Machine} {x : Eval α} {embed : α → Object} {depth : Nat}
    {f : Object} {arguments : List Object}
    (h : ∀ r h', x m = some (r, h') → (∀ v, r ≠ .error (.returning v)) → ∀ d ≥ depth,
      ∃ L m', apply d f arguments m = some (.ok (L.object (endedWith embed r)), m') ∧
        m.Alongside L h' m') :
    Performs m (do return embed (← x)) depth f arguments := by
  refine ⟨fun v h' hr d hd => ?_, fun e h' hr d hd => ?_⟩
  · rcases bind_ends hr with ⟨_, -, hs⟩ | ⟨a, h₁, ha, hrest⟩
    · cases hs
    · cases hrest
      obtain ⟨L, m', hcall, hs⟩ := h _ _ ha (by simp) d hd
      refine ⟨L.object (embed a), m', ?_, .of_alongside hs _⟩
      rw [call, outcome, hcall]
      rfl
  · rcases bind_ends hr with ⟨_, he, hs⟩ | ⟨a, h₁, -, hrest⟩
    · cases hs
      obtain ⟨L, m', hcall, hs⟩ := h _ _ he (by simp) d hd
      refine ⟨m', ?_, .of_alongside hs _⟩
      rw [call, outcome, hcall]
      rfl
    · cases hrest

theorem foldlM_snoc {α : Type} {M : Type → Type} [Monad M] [LawfulMonad M] (g : α → M Object)
    (xs : List α) (vs : List Object) :
    xs.foldlM (fun vs x => do return vs ++ [← g x]) vs = do return vs ++ (← xs.mapM g) := by
  induction xs generalizing vs with
  | nil => simp
  | cons x xs ih =>
    rw [List.foldlM_cons, List.mapM_cons]
    simp only [ih, bind_assoc, pure_bind, List.append_assoc, List.singleton_append]

section Calls

variable {m : Machine} {k : ScopeId} {i n : Nat} {f z : Object} {xs : List Object}

theorem stands_of_alone (hk : k < m.scopes.size) (halone : m.enclosing k = []) : m.Stands k := by
  intro j hj
  rw [chain, halone, List.mem_singleton] at hj
  exact hj ▸ hk

section Frame

variable (hk : k < m.scopes.size) (halone : m.enclosing k = [])
  (hbuiltins : ∀ name ∈ loopBuiltins, (m.bindings k).get? name = none)
  (new : List (String × Object))

include hk halone

theorem get?_entered_alone (name : String) : (m.entered k new).get? m.nextScope name =
    ((Bindings.setAll new []).get? name).or ((m.bindings k).get? name) := by
  rw [get?_entered (stands_of_alone hk halone), get?_eq m k, halone, List.findSome?_nil,
    Option.or_none]

include hbuiltins

theorem builtins_entered (hnew : ∀ name ∈ loopBuiltins, name ∉ new.map (·.1)) :
    ∀ name ∈ loopBuiltins, (m.entered k new).get? m.nextScope name = none := by
  intro name hname
  rw [get?_entered_alone hk halone, hbuiltins name hname, Option.or_none]
  exact Bindings.get?_setAll_nil (hnew name hname)

end Frame

variable (hm : m.WellScoped) (hk : k < m.scopes.size) (halone : m.enclosing k = [])
  (hbuiltins : ∀ name ∈ loopBuiltins, (m.bindings k).get? name = none)
  (hf : f.KnownTo m) (hfsignal : f.isSignal = false)
  (hxs : ∀ x ∈ xs, x.KnownTo m ∧ x.isSignal = false) (hlength : xs.length < UInt64.size)

include hm hk halone hbuiltins hf hfsignal hxs hlength

theorem map_performs : Performs m (do return .array (← xs.mapM fun x => applied n f [x]))
    (n + 5 * xs.length + 14) (.function (mapClosure k i)) [.array xs, f] := by
  let new : List (String × Object) := [("arr", .array xs), ("f", f)]
  have hget := get?_entered_alone hk halone new
  have harr : (m.entered k new).get? m.nextScope "arr" = some (.array xs) := by
    simp [hget, new, Bindings.setAll, Bindings.get?_set]
  have hcallee : (m.entered k new).get? m.nextScope "f" = some f := by
    simp [hget, new, Bindings.setAll, Bindings.get?_set]
  have hnone := builtins_entered hk halone hbuiltins new
    (show ∀ name ∈ loopBuiltins, name ∉ ["arr", "f"] by decide)
  have hfold := foldlM_snoc (fun x => applied n f [x]) xs []
  simp only [List.nil_append, bind_pure] at hfold
  rw [← hfold]
  refine performs_of fun r h' hr hreturn d hd => ?_
  have hdepth : n + 4 + 5 * xs.length + 10 ≤ d := by omega
  have hnil : (Object.array []).KnownTo m := (Object.KnownTo.plain m).every_array (by simp)
  have harguments : [.array xs, f].length = (mapClosure k i).parameters.length := rfl
  obtain ⟨L, m', hcall, -, hs⟩ :=
    looping_folds (map_steps hf hfsignal) (by decide) hm (stands_of_alone hk halone) rfl harguments
      rfl harr hcallee hnone hnil rfl (fun _ _ _ => rfl) hxs hlength hr hreturn hdepth
  exact ⟨L, m', hcall, hs⟩

theorem reduce_performs (hz : z.KnownTo m) (hzsignal : z.isSignal = false) :
    Performs m (xs.foldlM (fun a x => applied n f [a, x]) z)
      (n + 5 * xs.length + 14) (.function (reduceClosure k i)) [.array xs, z, f] := by
  let new : List (String × Object) := [("arr", .array xs), ("initial", z), ("f", f)]
  have hget := get?_entered_alone hk halone new
  have harr : (m.entered k new).get? m.nextScope "arr" = some (.array xs) := by
    simp [hget, new, Bindings.setAll, Bindings.get?_set]
  have hinitial : (m.entered k new).get? m.nextScope "initial" = some z := by
    simp [hget, new, Bindings.setAll, Bindings.get?_set]
  have hcallee : (m.entered k new).get? m.nextScope "f" = some f := by
    simp [hget, new, Bindings.setAll, Bindings.get?_set]
  have hnone := builtins_entered hk halone hbuiltins new
    (show ∀ name ∈ loopBuiltins, name ∉ ["arr", "initial", "f"] by decide)
  rw [← bind_pure (xs.foldlM (fun a x => applied n f [a, x]) z)]
  refine @performs_of _ _ _ id _ _ _ fun r h' hr hreturn d hd => ?_
  have hdepth : n + 4 + 5 * xs.length + 10 ≤ d := by omega
  have harguments : [.array xs, z, f].length = (reduceClosure k i).parameters.length := rfl
  obtain ⟨L, m', hcall, -, hs⟩ :=
    looping_folds (reduce_steps hf hfsignal) (by decide) hm (stands_of_alone hk halone) rfl
      harguments rfl harr hcallee hnone hz hzsignal
      (fun n' m₁ hm₁ => expression_word ((hm₁ _ (by decide)).trans hinitial) hzsignal) hxs hlength
      hr hreturn hdepth
  exact ⟨L, m', hcall, hs⟩

end Calls

end Eval

/-! ## The definitions -/

namespace Machine

/-- The new scope with the guide's functions, defined one after the other. -/
def withGuide (m : Machine) : Machine :=
  let map : Object := .function (mapClosure m.nextScope m.nextFunction)
  let reduce : Object := .function (reduceClosure m.nextScope (m.nextFunction + 1))
  { (m.newRoot.set m.nextScope "map" map).set m.nextScope "reduce" reduce with
    nextFunction := m.nextFunction + 2 }

variable (m : Machine)

theorem size_withGuide : m.nextScope < m.withGuide.scopes.size := by
  simp [withGuide, nextScope]

theorem enclosing_withGuide : m.withGuide.enclosing m.nextScope = [] := by
  refine (enclosing_set _ _ _ _ _).trans ?_
  rw [enclosing_set, enclosing_newRoot]
  simp [enclosing, nextScope]

theorem bindings_withGuide : m.withGuide.bindings m.nextScope =
    [("map", .function (mapClosure m.nextScope m.nextFunction)),
     ("reduce", .function (reduceClosure m.nextScope (m.nextFunction + 1)))] := by
  have hsize : m.nextScope < m.newRoot.scopes.size := by simp [nextScope]
  have hnone : m.newRoot.bindings m.nextScope = [] := by
    rw [bindings_newRoot]
    simp [bindings, nextScope]
  refine (bindings_set _ _ _ _ _).trans ?_
  rw [size_set, if_pos ⟨rfl, hsize⟩, bindings_set, if_pos ⟨rfl, hsize⟩, hnone]
  rfl

theorem program_withGuide (d : Nat) :
    Eval.program (d + 2) m.nextScope guideProgram m.newRoot = some (.null, m.withGuide) := rfl

end Machine

open Eval

/-- In a new scope without any around it, the text of the guide binds `map` and `reduce`. From then
on they do what `mapM` and `foldlM` do with a call of the given function for each element: the calls
are made in order, the first error stops them, and what is printed is what they print. This holds on
well scoped machines, which all are that hosts reach, as long as nothing in that scope is in the way
of the built-in functions in use. The length of an array fits in 64 bits. -/
theorem higher_order_functions (m : Machine) :
    ∃ m₀ map reduce, (∀ d ≥ 2, interpret d m.nextScope guide m.newRoot = some (.ok .null, m₀)) ∧
      m₀.bindings m.nextScope = [("map", map), ("reduce", reduce)] ∧
      (m.WellScoped → m₀.WellScoped ∧ m.Grows m₀) ∧
      ∀ m₁ : Machine, m₀.Retains m₁ → m₁.WellScoped →
        (∀ name ∈ loopBuiltins, (m₁.bindings m.nextScope).get? name = none) →
        ∀ (n : Nat) (f z : Object) (xs : List Object), f.KnownTo m₁ → f.isSignal = false →
          z.KnownTo m₁ → z.isSignal = false → (∀ x ∈ xs, x.KnownTo m₁ ∧ x.isSignal = false) →
          xs.length < UInt64.size →
          Performs m₁ (do return .array (← xs.mapM fun x => applied n f [x]))
            (n + 5 * xs.length + 14) map [.array xs, f] ∧
          Performs m₁ (xs.foldlM (fun a x => applied n f [a, x]) z)
            (n + 5 * xs.length + 14) reduce [.array xs, z, f] := by
  refine ⟨m.withGuide, _, _, fun d hd => ?_, m.bindings_withGuide, fun hm => ?_, ?_⟩
  · obtain ⟨d, rfl⟩ := Nat.exists_eq_add_of_le' hd
    rw [interpret_of_errors_nil parse_guide.2, parse_guide.1, m.program_withGuide]
    rfl
  · have hroot : m.nextScope < m.newRoot.scopes.size := by simp [Machine.nextScope]
    obtain ⟨hgrows, hscoped, -⟩ := program_wellScoped hm.newRoot hroot (m.program_withGuide 0)
    have hnew : m.Grows m.newRoot := ⟨by simp, Nat.le_refl _⟩
    exact ⟨hscoped, hnew.trans hgrows⟩
  · intro m₁ hlater hm₁ hbuiltins n f z xs hf hfsignal hz hzsignal hxs hlength
    have hk := Nat.lt_of_lt_of_le m.size_withGuide hlater.size
    have halone := (hlater.enclosing _ m.size_withGuide).trans m.enclosing_withGuide
    exact ⟨map_performs hm₁ hk halone hbuiltins hf hfsignal hxs hlength,
      reduce_performs hm₁ hk halone hbuiltins hf hfsignal hxs hlength hz hzsignal⟩

theorem higher_order_functions_builtins :
    let xs : List Object := [.array [.integer 7], .integer 5, .array []]
    ∃ m₀ map reduce, interpret 2 Machine.root guide .fresh = some (.ok .null, m₀) ∧
      m₀.bindings Machine.root = [("map", map), ("reduce", reduce)] ∧
      (∃ m', call 30 map [.array xs, .builtin .first] m₀ =
        some (.error (.builtinExpectedArray .first .integer), m') ∧ m'.output = m₀.output) ∧
      ∃ m', call 30 reduce [.array xs, .array [], .builtin .push] m₀ = some (.array xs, m') := by
  intro xs
  obtain ⟨m₀, map, reduce, hdefined, hbound, hscoped, hcalls⟩ :=
    higher_order_functions Machine.empty
  have hbindings : m₀.bindings Machine.root = [("map", map), ("reduce", reduce)] := hbound
  obtain ⟨hm₀, -⟩ := hscoped .empty
  have plain := Object.KnownTo.plain m₀
  have hnil : (Object.array []).KnownTo m₀ := plain.every_array (by simp)
  have hbuiltins : ∀ name ∈ loopBuiltins, (m₀.bindings Machine.root).get? name = none := by
    have hnames : ∀ name ∈ loopBuiltins, name ≠ "map" ∧ name ≠ "reduce" := by decide
    intro name hname
    obtain ⟨hmap, hreduce⟩ := hnames name hname
    rw [hbindings]
    simp [Bindings.get?, List.lookup_cons, beq_eq_false_iff_ne.2 hmap,
      beq_eq_false_iff_ne.2 hreduce]
  have hxs : ∀ x ∈ xs, x.KnownTo m₀ ∧ x.isSignal = false := by
    have hinteger (i : Int64) : (Object.integer i).KnownTo m₀ := plain.every_integer i
    have hseven : (Object.array [.integer 7]).KnownTo m₀ :=
      plain.every_array (List.forall_mem_singleton.2 (hinteger 7))
    simp only [xs, List.forall_mem_cons, List.not_mem_nil, false_imp_iff, implies_true, and_true]
    exact ⟨⟨hseven, rfl⟩, ⟨hinteger 5, rfl⟩, hnil, rfl⟩
  have hperforms (b : Builtin) := hcalls m₀ (.refl m₀) hm₀ hbuiltins 1 (.builtin b) (.array []) xs
    (plain.every_builtin b) rfl hnil rfl hxs (by decide)
  obtain ⟨m', hmap, hreflects⟩ := (hperforms .first).1.2 _ _ rfl 30 (by decide)
  obtain ⟨o, m'', hreduce, hreflects'⟩ := (hperforms .push).2.1 _ _ rfl 30 (by decide)
  have hsame := hreflects'.known (plain.every_array fun x hx => (hxs x hx).1)
  refine ⟨m₀, map, reduce, hdefined 2 (Nat.le_refl 2), hbindings, ⟨m', hmap, ?_⟩, m'', ?_⟩
  · rw [hreflects.output]
    show m₀.output ++ "" ++ "" = m₀.output
    simp
  · rw [hreduce, hsame]
    rfl

end Treewalk
