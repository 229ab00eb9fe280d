import Treewalk.Proofs.Eval.Alongside
import Treewalk.Proofs.Eval.Events
import Treewalk.Proofs.Eval.Worlds

/-!
# Functions that go over an array

The language has no loops. A function goes over an array by calling itself with the rest of it and
with what the first element makes of the result so far. Such a call ends as a loop over the elements
does, in new scopes for each of its calls.
-/

namespace Treewalk

/-! ## The code of a loop -/

section Code

variable (line : Nat)

def word (name : String) : Token := ⟨.ident, name, line⟩

def Expr.word (name : String) : Expr := .identifier (Treewalk.word line name)

def Expr.called (name : String) (arguments : List Expr) : Expr :=
  .call ⟨.leftParen, "(", line⟩ (.word line name) arguments

/-- `if (len(arr) == 0) { acc } else { iter(rest(arr), step) }` -/
def loopBody (acc : String) (step : Expr) : List Statement :=
  let brace : Token := ⟨.leftBrace, "\x7b", line⟩
  let ifWord : Token := ⟨.ifWord, "if", line⟩
  let atEnd : Expr := .binary ⟨.equal, "==", line⟩ .equal
    (.called line "len" [.word line "arr"]) (.integer ⟨.int, "0", line⟩ 0)
  let again : Expr := .called line "iter" [.called line "rest" [.word line "arr"], step]
  [.expression ifWord (.conditional ifWord atEnd
    ⟨brace, [.expression (word line acc) (.word line acc)]⟩
    (some ⟨brace, [.expression (word line "iter") again]⟩))]

/-- `let iter = fn(arr, acc) { .. }; iter(arr, start)`, with the loop in the line below. -/
def loopingBody (acc : String) (step start : Expr) : List Statement :=
  [.binding ⟨.letWord, "let", line⟩ (word line "iter")
    (.function ⟨.function, "fn", line⟩ [word line "arr", word line acc]
      ⟨⟨.leftBrace, "\x7b", line⟩, loopBody (line + 1) acc step⟩),
    .expression (word (line + 3) "iter")
      (.called (line + 3) "iter" [.word (line + 3) "arr", start])]

end Code

/-- The built-in functions that loops use. -/
def loopBuiltins : List String := ["len", "first", "rest", "push"]

theorem findSome?_congr {α β : Type} {f g : α → Option β} {xs : List α}
    (h : ∀ x ∈ xs, f x = g x) : xs.findSome? f = xs.findSome? g := by
  induction xs with
  | nil => rfl
  | cons x xs ih =>
    rw [List.findSome?_cons, List.findSome?_cons, h x List.mem_cons_self,
      ih fun y hy => h y (List.mem_cons_of_mem _ hy)]

namespace Machine

/-- The scope and all that it stands in are there. -/
def Stands (m : Machine) (t : ScopeId) : Prop := ∀ j ∈ m.chain t, j < m.scopes.size

namespace Extends

variable {m m' : Machine} {t : ScopeId}

theorem chain (h : m.Extends m') (ht : m.Stands t) : m'.chain t = m.chain t := by
  rw [Machine.chain, Machine.chain, Machine.enclosing, Machine.enclosing,
    h.same t (ht t List.mem_cons_self)]

theorem stands (h : m.Extends m') (ht : m.Stands t) : m'.Stands t := by
  intro j hj
  rw [h.chain ht] at hj
  exact Nat.lt_of_lt_of_le (ht j hj) h.size

theorem get? (h : m.Extends m') (ht : m.Stands t) (name : String) :
    m'.get? t name = m.get? t name := by
  rw [Machine.get?, Machine.get?, h.chain ht]
  refine findSome?_congr fun j hj => ?_
  rw [Machine.bindings, Machine.bindings, h.same j (ht j hj)]

end Extends

theorem extends_entered (m : Machine) (t : ScopeId) (new : List (String × Object)) :
    m.Extends (m.entered t new) :=
  (extends_newInside m t).trans_later (changesOnly_setAll _ _ _) (Nat.le_refl _)

theorem get?_entered {m : Machine} {t : ScopeId} (ht : m.Stands t) (new : List (String × Object))
    (name : String) : (m.entered t new).get? m.nextScope name =
      ((Bindings.setAll new []).get? name).or (m.get? t name) := by
  have hext := extends_entered m t new
  have hinside : (m.entered t new).enclosing m.nextScope = (m.entered t new).chain t := by
    rw [enclosing_entered, nextScope, if_pos rfl, hext.chain ht]
  rw [get?_inside hinside, hext.get? ht, bindings_entered, nextScope, if_pos rfl]

end Machine

namespace Relabelling

theorem isSignal_object (L : Relabelling) (o : Object) : (L.object o).isSignal = o.isSignal := by
  cases o <;> rfl

theorem object_ne_returning (L : Relabelling) {o : Object} (h : ∀ v, o ≠ .returning v)
    (v : Object) : L.object o ≠ .returning v := by
  cases o with
  | returning w => exact absurd rfl (h w)
  | _ => exact Object.noConfusion

end Relabelling

theorem int64_ofNat_eq_zero {n : Nat} (h : n < UInt64.size) : Int64.ofNat n = 0 ↔ n = 0 := by
  constructor
  · intro hzero
    have hbits : BitVec.ofNat 64 n = 0#64 := congrArg Int64.toBitVec hzero
    have hmod := congrArg BitVec.toNat hbits
    rw [BitVec.toNat_ofNat, Nat.mod_eq_of_lt h] at hmod
    exact hmod
  · rintro rfl
    rfl

namespace Eval

open Run Machine

variable {m m' : Machine} {n line : Nat} {t : ScopeId}

/-! ## Names and calls -/

theorem settle_of_not_signal {σ : Type} {o : Object} (h : o.isSignal = false) :
    (settle o : Run σ Signal Object) = pure o := by
  cases o with
  | error _ | returning _ => cases h
  | _ => rfl

theorem named_bound {name : String} {o : Object} (h : m.get? t name = some o)
    (ho : o.isSignal = false) : named t name m = some (.ok o, m) := by
  rw [named_apply, h]
  exact congrFun (settle_of_not_signal ho) m

theorem named_builtin {b : Builtin} (h : m.get? t b.name = none) :
    named t b.name m = some (.ok (.builtin b), m) := by
  have hb : Builtin.named? b.name = some b := by cases b <;> rfl
  rw [named_apply, h, answer_eq_builtin_iff.2 (.inr ⟨rfl, hb⟩)]
  rfl

theorem expression_word {name : String} {o : Object} (h : m.get? t name = some o)
    (ho : o.isSignal = false) : expression (n + 1) t (.word line name) m = some (.ok o, m) :=
  named_bound h ho

theorem expression_called {name : String} {arguments : List Expr} {f : Object}
    (h : named t name m = some (.ok f, m)) :
    expression (n + 2) t (.called line name arguments) m =
      (all (expression (n + 1) t) arguments >>= applied (n + 1) f) m :=
  bind_ok h

theorem bind_at {α β : Type} {x y : Eval α} (h : x m = y m') (f : α → Eval β) :
    (x >>= f) m = (y >>= f) m' := by
  rw [bind_apply, h, bind_apply]

theorem all_one (eval : Expr → Eval Object) (e : Expr) :
    all eval [e] = (eval e >>= fun o => return [o]) := rfl

theorem all_two {eval : Expr → Eval Object} {e : Expr} {o : Object}
    (h : eval e m = some (.ok o, m')) (e' : Expr) :
    all eval [e, e'] m = (eval e' >>= fun o' => return [o, o']) m' := by
  refine (bind_ok h).trans ?_
  rw [all_one, bind_assoc]
  rfl

theorem expression_called_one {name : String} {f : Object}
    (h : named t name m = some (.ok f, m)) (e : Expr) :
    expression (n + 2) t (.called line name [e]) m =
      (expression (n + 1) t e >>= fun o => applied (n + 1) f [o]) m := by
  refine (expression_called h).trans ?_
  rw [all_one, bind_assoc]
  rfl

theorem expression_called_two {name : String} {f o : Object}
    (h : named t name m = some (.ok f, m)) {e : Expr}
    (he : expression (n + 1) t e m = some (.ok o, m)) (e' : Expr) :
    expression (n + 2) t (.called line name [e, e']) m =
      (expression (n + 1) t e' >>= fun o' => applied (n + 1) f [o, o']) m := by
  refine (expression_called h).trans ((bind_at (all_two he e') _).trans ?_)
  rw [bind_assoc]
  rfl

theorem expression_conditional (u : Token) {condition : Expr} {consequence alternative : Block}
    {o : Object} (h : expression n t condition m = some (.ok o, m')) :
    expression (n + 1) t (.conditional u condition consequence (some alternative)) m =
      sequence (statement n t) .null
        (if o.truthy then consequence.statements else alternative.statements) m' := by
  refine (bind_ok h).trans ?_
  split <;> rfl

theorem applied_builtin {b : Builtin} {arguments : List Object} {o : Object}
    (hprinted : b.printed arguments = "") (h : b.result arguments = .ok o)
    (ho : o.isSignal = false) :
    applied (n + 1) (.builtin b) arguments m = some (.ok o, m) := by
  have happly : apply (n + 1) (.builtin b) arguments m = some (.ok o, m) := by
    rw [apply, hprinted, h]
    show some (Except.ok o, m.print "") = some (Except.ok o, m)
    rw [Machine.print, String.append_empty]
  rw [applied, bind_ok happly, settle_of_not_signal ho]
  rfl

theorem concluded_applied {f o : Object} {arguments : List Object}
    (h : apply n f arguments m = some (.ok o, m')) (ho : ∀ v, o ≠ .returning v) :
    concluded (applied n f arguments) m = some (.ok o, m') := by
  have happlied : outcome (applied n f arguments) m = some (o, m') := by
    rw [outcome, applied, bind_ok h]
    cases o with
    | returning v => exact absurd rfl (ho v)
    | _ => rfl
  rw [concluded, happlied]
  rfl

/-! ## One call of the loop -/

/-- In the scope `t` a call of the loop runs, with `xs` to go and the result `a` so far. -/
structure InLoop (m : Machine) (t : ScopeId) (xs : List Object) (acc : String) (a f : Object)
    (iter : Closure) : Prop where
  arr : m.get? t "arr" = some (.array xs)
  acc : m.get? t acc = some a
  callee : m.get? t "f" = some f
  iter : m.get? t "iter" = some (.function iter)
  builtins : ∀ name ∈ loopBuiltins, m.get? t name = none

namespace InLoop

variable {x : Object} {xs : List Object} {acc : String} {a f : Object} {iter : Closure}

theorem ofArray (h : InLoop m t xs acc a f iter) {b : Builtin} (hb : b.name ∈ loopBuiltins)
    (hprinted : b.printed [.array xs] = "") {o : Object} (ho : b.result [.array xs] = .ok o)
    (hsignal : o.isSignal = false) :
    expression (n + 2) t (.called line b.name [.word line "arr"]) m = some (.ok o, m) := by
  rw [expression_called_one (named_builtin (h.builtins _ hb)), bind_ok (expression_word h.arr rfl)]
  exact applied_builtin hprinted ho hsignal

theorem first (h : InLoop m t (x :: xs) acc a f iter) (hx : x.isSignal = false) :
    expression (n + 2) t (.called line "first" [.word line "arr"]) m = some (.ok x, m) :=
  h.ofArray (b := .first) (by decide) rfl rfl hx

theorem rest (h : InLoop m t (x :: xs) acc a f iter) :
    expression (n + 2) t (.called line "rest" [.word line "arr"]) m = some (.ok (.array xs), m) :=
  h.ofArray (b := .rest) (by decide) rfl rfl rfl

/-- The array is at its end if its length is zero, which holds of no longer one that fits in
memory. -/
theorem atEnd (h : InLoop m t xs acc a f iter) (hxs : xs.length < UInt64.size) (u v : Token) :
    expression (n + 3) t (.binary u .equal (.called line "len" [.word line "arr"]) (.integer v 0))
      m = some (.ok (.boolean xs.isEmpty), m) := by
  have hlen : expression (n + 2) t (.called line "len" [.word line "arr"]) m =
      some (.ok (.integer (.ofNat xs.length)), m) :=
    h.ofArray (b := .len) (by decide) rfl rfl rfl
  have hempty : decide (Int64.ofNat xs.length = 0) = xs.isEmpty := by
    rw [Bool.eq_iff_iff, decide_eq_true_iff, int64_ofNat_eq_zero hxs, List.length_eq_zero_iff,
      List.isEmpty_iff]
  rw [expression, bind_ok hlen]
  show some (Except.ok (Object.boolean (decide (Int64.ofNat xs.length = 0))), m) = _
  rw [hempty]

theorem body (h : InLoop m t xs acc a f iter) (hxs : xs.length < UInt64.size) (step : Expr) :
    sequence (statement (n + 5) t) .null (loopBody line acc step) m =
      if xs.isEmpty then expression (n + 2) t (.word line acc) m
      else expression (n + 2) t
        (.called line "iter" [.called line "rest" [.word line "arr"], step]) m := by
  rw [loopBody, sequence_one, statement, expression_conditional _ (h.atEnd hxs _ _)]
  cases xs <;> exact congrFun (sequence_one _ _ _) m

theorem body_nil (h : InLoop m t [] acc a f iter) (ha : a.isSignal = false) (step : Expr) :
    sequence (statement (n + 5) t) .null (loopBody line acc step) m = some (.ok a, m) := by
  rw [h.body (by simp) step]
  exact expression_word (n := n + 1) h.acc ha

theorem body_cons (h : InLoop m t (x :: xs) acc a f iter) (hxs : (x :: xs).length < UInt64.size)
    (step : Expr) : sequence (statement (n + 6) t) .null (loopBody line acc step) m =
      (expression (n + 2) t step >>= fun b =>
        applied (n + 2) (.function iter) [.array xs, b]) m := by
  rw [h.body hxs step]
  exact expression_called_two (named_bound h.iter rfl) h.rest step

end InLoop

/-! ## All calls of the loop -/

/-- In view of the scope `t` are the loop and what it uses, with nothing in their way. -/
structure Looping (m : Machine) (t : ScopeId) (f : Object) (iter : Closure) : Prop where
  stands : m.Stands t
  callee : m.get? t "f" = some f
  iter : m.get? t "iter" = some (.function iter)
  builtins : ∀ name ∈ loopBuiltins, m.get? t name = none

/-- A name for the result so far that is none of the other names in a loop. -/
abbrev Fit (acc : String) : Prop := acc ∉ "arr" :: "f" :: "iter" :: loopBuiltins

namespace Looping

variable {f : Object} {iter : Closure} {acc : String}

theorem mono (h : Looping m t f iter) (hm : m.Extends m') : Looping m' t f iter where
  stands := hm.stands h.stands
  callee := (hm.get? h.stands _).trans h.callee
  iter := (hm.get? h.stands _).trans h.iter
  builtins name hname := (hm.get? h.stands _).trans (h.builtins name hname)

theorem entered (h : Looping m t f iter) (hacc : Fit acc) (xs : List Object) (a : Object) :
    InLoop (m.entered t [("arr", .array xs), (acc, a)]) m.nextScope xs acc a f iter := by
  have hget (name : String) : (m.entered t [("arr", .array xs), (acc, a)]).get? m.nextScope name =
      if name = acc then some a else if name = "arr" then some (.array xs)
        else m.get? t name := by
    rw [get?_entered h.stands]
    show (((Bindings.set "arr" (.array xs) []).set acc a).get? name).or _ = _
    rw [Bindings.get?_set, Bindings.get?_set]
    split
    · rfl
    · split <;> rfl
  have hother {name : String} (hname : name ∈ "f" :: "iter" :: loopBuiltins) :
      (m.entered t [("arr", .array xs), (acc, a)]).get? m.nextScope name = m.get? t name := by
    have hne : name ≠ acc := fun heq => hacc (heq ▸ List.mem_cons_of_mem _ hname)
    have hne' : name ≠ "arr" := by
      rintro rfl
      exact absurd hname (by decide)
    rw [hget, if_neg hne, if_neg hne']
  constructor
  · have hne : "arr" ≠ acc := fun heq => hacc (heq ▸ List.mem_cons_self)
    rw [hget, if_neg hne, if_pos rfl]
  · rw [hget, if_pos rfl]
  · exact (hother (by simp)).trans h.callee
  · exact (hother (by simp)).trans h.iter
  · intro name hname
    have hmem : name ∈ "f" :: "iter" :: loopBuiltins := by simp [hname]
    exact (hother hmem).trans (h.builtins name hname)

end Looping

theorem apply_function {c : Closure} {arguments : List Object}
    (h : arguments.length = c.parameters.length) : apply (n + 1) (.function c) arguments m =
      concluded (sequence (statement n m.nextScope) .null c.body.statements)
        (m.entered c.scope ((c.parameters.map (·.literal)).zip arguments)) := by
  rw [apply, if_pos h]
  rfl

theorem concluded_at {x y : Eval Object} (h : x m = y m') : concluded x m = concluded y m' := by
  rw [concluded, outcome, h]
  rfl

theorem concluded_ok {x : Eval Object} {o : Object} (h : x m = some (.ok o, m')) :
    concluded x m = some (.ok o, m') := by
  rw [concluded, outcome, h]
  rfl

theorem concluded_exit {x : Eval Object} {s : Signal} (h : x m = some (.error s, m')) :
    concluded x m = some (.ok s.taken, m') := by
  rw [concluded, outcome, h]
  rfl

/-- What a run ended with, as an object. -/
def endedWith {α : Type} (embed : α → Object) : Except Signal α → Object
  | .ok a => embed a
  | .error s => s.taken

section Loop

variable {α : Type} (m₀ : Machine) (f : Object) (acc : String) (step : Expr) (need : Nat)
  (embed : α → Object) (g : α → Object → Eval α)

/-- In a call of the loop, at enough depth, `step` does what `g` does with the result so far and the
first element, on a machine with fewer scopes. -/
def Steps : Prop :=
  ∀ {L h h' m' t x xs a iter r d}, m₀.Alongside L h m' →
    InLoop m' t (x :: xs) acc (L.object (embed a)) f iter → (embed a).KnownTo h →
    (embed a).isSignal = false → x.KnownTo m₀ → x.isSignal = false →
    g a x h = some (r, h') → need ≤ d →
    ∃ r' m'', expression d t step m' = some (r', m'') ∧
      EndsAlike (fun s s' => s' = L.signal s)
        (fun b o => o = L.object (embed b) ∧ (embed b).KnownTo h' ∧ (embed b).isSignal = false)
        r r' ∧
      m₀.Alongside L h' m'' ∧ m'.Extends m''

variable {m₀ f acc step need embed g} {iter : Closure}
  (hparameters : iter.parameters.map (·.literal) = ["arr", acc])
  (hbody : iter.body.statements = loopBody line acc step) (hacc : Fit acc)

include hparameters hbody hacc

theorem loop_enters {L : Relabelling} {h m : Machine} (hs : m₀.Alongside L h m)
    (hlooping : Looping m iter.scope f iter) (xs : List Object) {a : Object} (ha : a.KnownTo h)
    (d : Nat) : ∃ L₁ m₁, apply (d + 1) (.function iter) [.array xs, L.object a] m =
        concluded (sequence (statement d m.nextScope) .null (loopBody line acc step)) m₁ ∧
      InLoop m₁ m.nextScope xs acc (L₁.object a) f iter ∧ m₀.Alongside L₁ h m₁ ∧
      L₁.object a = L.object a ∧ m.Extends m₁ := by
  let m₁ := m.entered iter.scope [("arr", .array xs), (acc, L.object a)]
  have hext : m.Extends m₁ := extends_entered m _ _
  obtain ⟨L₁, hs₁, hsame⟩ := hs.onward hext (output_entered m _ _)
  have hlength : [Object.array xs, L.object a].length = iter.parameters.length := by
    simpa using (congrArg List.length hparameters).symm
  refine ⟨L₁, m₁, ?_, ?_, hs₁, hsame a ha, hext⟩
  · rw [apply_function hlength, hparameters, hbody]
    rfl
  · rw [hsame a ha]
    exact hlooping.entered hacc xs _

/-- A call of the loop does what going over the elements with `g` does. -/
theorem loop_folds (hsteps : Steps m₀ f acc step need embed g) {xs : List Object}
    (hxs : ∀ x ∈ xs, x.KnownTo m₀ ∧ x.isSignal = false) (hlength : xs.length < UInt64.size)
    {L : Relabelling} {h h' m : Machine} {a : α} {r : Except Signal α} {d : Nat}
    (hs : m₀.Alongside L h m) (hlooping : Looping m iter.scope f iter) (ha : (embed a).KnownTo h)
    (hsignal : (embed a).isSignal = false) (hr : xs.foldlM g a h = some (r, h'))
    (hreturn : ∀ v, r ≠ .error (.returning v)) (hd : need + 5 * xs.length + 7 ≤ d) :
    ∃ L' m', apply d (.function iter) [.array xs, L.object (embed a)] m =
        some (.ok (L'.object (endedWith embed r)), m') ∧
      (∀ v, endedWith embed r ≠ .returning v) ∧ (endedWith embed r).KnownTo h' ∧
      m₀.Alongside L' h' m' ∧ m.Extends m' := by
  -- by the elements to go: a call of the loop makes one step and then calls the loop again
  induction xs generalizing L h m a d with
  | nil =>
    cases hr
    obtain ⟨d, rfl⟩ := Nat.exists_eq_add_of_le' (Nat.le_trans (Nat.le_add_left _ _) hd)
    obtain ⟨L₁, m₁, hcall, hin, hs₁, -, hext⟩ :=
      loop_enters hparameters hbody hacc hs hlooping [] ha (d + 6)
    have hnil : sequence (statement (d + 6) m.nextScope) .null (loopBody line acc step) m₁ =
        some (.ok (L₁.object (embed a)), m₁) :=
      hin.body_nil ((Relabelling.isSignal_object L₁ _).trans hsignal) step
    refine ⟨L₁, m₁, hcall.trans (concluded_ok hnil), ?_, ha, hs₁, hext⟩
    exact fun v heq => Bool.noConfusion (hsignal.symm.trans (congrArg Object.isSignal heq))
  | cons x xs ih =>
    obtain ⟨hx, hxs⟩ := List.forall_mem_cons.1 hxs
    rw [List.length_cons] at hd
    obtain ⟨d, rfl⟩ := Nat.exists_eq_add_of_le' (Nat.le_trans (Nat.le_add_left _ _) hd)
    obtain ⟨L₁, m₁, hcall, hin, hs₁, -, hext⟩ :=
      loop_enters hparameters hbody hacc hs hlooping (x :: xs) ha (d + 6)
    have hcons := hcall.trans (concluded_at (hin.body_cons (n := d) hlength step))
    have hstepDepth : need ≤ d + 2 := by omega
    have hrestDepth : need + 5 * xs.length + 7 ≤ d + 2 := by omega
    rw [List.foldlM_cons] at hr
    rcases bind_ends hr with ⟨s, hg, rfl⟩ | ⟨b, h₁, hg, hrest⟩
    · obtain ⟨r', m₂, hstep, hends, hs₂, hext₂⟩ :=
        hsteps hs₁ hin ha hsignal hx.1 hx.2 hg hstepDepth
      cases r' with
      | ok _ => exact hends.elim
      | error s' =>
        cases s with
        | returning v => exact absurd rfl (hreturn v)
        | error e =>
          obtain rfl : s' = .error e := hends
          refine ⟨L₁, m₂, hcons.trans (concluded_exit (bind_error hstep)), nofun, .error e, hs₂, ?_⟩
          exact composes_extends.trans hext hext₂
    · obtain ⟨r', m₂, hstep, hends, hs₂, hext₂⟩ :=
        hsteps hs₁ hin ha hsignal hx.1 hx.2 hg hstepDepth
      cases r' with
      | error _ => exact hends.elim
      | ok o =>
        obtain ⟨rfl, hb, hbsignal⟩ := hends
        have hext' := composes_extends.trans hext hext₂
        obtain ⟨L₂, m₃, hcall₂, hne, hknown, hs₃, hext₃⟩ :=
          ih hxs (Nat.lt_of_succ_lt hlength) hs₂ (hlooping.mono hext') hb hbsignal hrest hrestDepth
        -- the inner call is the last thing in the body, so it ends the outer one as well
        refine ⟨L₂, m₃, hcons.trans ?_, hne, hknown, hs₃, composes_extends.trans hext' hext₃⟩
        rw [concluded_at (bind_ok hstep)]
        exact concluded_applied hcall₂ (Relabelling.object_ne_returning L₂ hne)

end Loop

/-! ## The function around the loop -/

/-- The function of the loop, in the scope `t`. -/
def loopClosure (line : Nat) (acc : String) (step : Expr) (t : ScopeId) (identity : Nat) :
    Closure :=
  ⟨identity, [word line "arr", word line acc],
    ⟨⟨.leftBrace, "\x7b", line⟩, loopBody (line + 1) acc step⟩, t⟩

/-- The machine with a function `iter` in the scope `t`. -/
def withLoop (line : Nat) (acc : String) (step : Expr) (t : ScopeId) (m : Machine) : Machine :=
  Machine.set t "iter" (.function (loopClosure line acc step t m.nextFunction))
    { m with nextFunction := m.nextFunction + 1 }

theorem sequence_looping {acc : String} {step start : Expr} {xs : List Object} {a : Object}
    (ht : t < m.scopes.size) (harr : m.get? t "arr" = some (.array xs))
    (hstart : expression (n + 1) t start (withLoop line acc step t m) =
      some (.ok a, withLoop line acc step t m)) :
    sequence (statement (n + 3) t) .null (loopingBody line acc step start) m =
      applied (n + 1) (.function (loopClosure line acc step t m.nextFunction)) [.array xs, a]
        (withLoop line acc step t m) := by
  have hiter : (withLoop line acc step t m).get? t "iter" =
      some (.function (loopClosure line acc step t m.nextFunction)) := get?_set_self ht _ _
  have harr' : (withLoop line acc step t m).get? t "arr" = some (.array xs) :=
    (get?_set_other (by decide) _ t).trans harr
  have hlet : statement (n + 3) t (.binding ⟨.letWord, "let", line⟩ (word line "iter")
      (.function ⟨.function, "fn", line⟩ [word line "arr", word line acc]
        ⟨⟨.leftBrace, "\x7b", line⟩, loopBody (line + 1) acc step⟩)) m =
      some (.ok .null, withLoop line acc step t m) := rfl
  rw [loopingBody, sequence, bind_ok hlet, sequence_one, statement,
    expression_called_two (named_bound hiter rfl) (expression_word harr' rfl), bind_ok hstart]

section Looping

variable {α : Type} {m₀ : Machine} {f : Object} {acc : String} {step start : Expr} {need : Nat}
  {embed : α → Object} {g : α → Object → Eval α} {c : Closure} {arguments : List Object}

theorem looping_folds (hsteps : Steps m₀ f acc step need embed g) (hacc : Fit acc)
    (hm₀ : m₀.WellScoped) (hc : m₀.Stands c.scope)
    (hbody : c.body.statements = loopingBody line acc step start)
    (harguments : arguments.length = c.parameters.length) {xs : List Object} {m₁ : Machine}
    (hm₁ : m₁ = m₀.entered c.scope ((c.parameters.map (·.literal)).zip arguments))
    (harr : m₁.get? m₀.nextScope "arr" = some (.array xs))
    (hf : m₁.get? m₀.nextScope "f" = some f)
    (hbuiltins : ∀ name ∈ loopBuiltins, m₁.get? m₀.nextScope name = none)
    {a : α} (ha : (embed a).KnownTo m₀) (hsignal : (embed a).isSignal = false)
    (hstart : ∀ n m, (∀ name ≠ "iter", m.get? m₀.nextScope name = m₁.get? m₀.nextScope name) →
      expression (n + 1) m₀.nextScope start m = some (.ok (embed a), m))
    (hxs : ∀ x ∈ xs, x.KnownTo m₀ ∧ x.isSignal = false) (hlength : xs.length < UInt64.size)
    {r : Except Signal α} {h' : Machine} (hr : xs.foldlM g a m₀ = some (r, h'))
    (hreturn : ∀ v, r ≠ .error (.returning v)) {d : Nat} (hd : need + 5 * xs.length + 10 ≤ d) :
    ∃ L m', apply d (.function c) arguments m₀ = some (.ok (L.object (endedWith embed r)), m') ∧
      (endedWith embed r).KnownTo h' ∧ m₀.Alongside L h' m' := by
  subst hm₁
  obtain ⟨d, rfl⟩ := Nat.exists_eq_add_of_le' (Nat.le_trans (Nat.le_add_left _ _) hd)
  let m₁ := m₀.entered c.scope ((c.parameters.map (·.literal)).zip arguments)
  let t := m₀.nextScope
  let iter := loopClosure line acc step t m₁.nextFunction
  let m₂ := withLoop line acc step t m₁
  have ht : t < m₁.scopes.size := by simp [t, m₁, nextScope]
  have hother (name : String) (hname : name ≠ "iter") : m₂.get? t name = m₁.get? t name :=
    get?_set_other hname _ t
  have hcall : apply (d + 10) (.function c) arguments m₀ =
      concluded (applied (d + 7) (.function iter) [.array xs, embed a]) m₂ := by
    rw [apply_function harguments, hbody]
    exact concluded_at (sequence_looping ht harr (hstart _ _ hother))
  have hext : m₀.Extends m₂ := by
    have hm₁ : m₀.Extends { m₁ with nextFunction := m₁.nextFunction + 1 } :=
      composes_extends.trans (extends_entered m₀ _ _) (.of_scopes rfl)
    have hset := changesOnly_set (List.mem_singleton_self "iter")
      { m₁ with nextFunction := m₁.nextFunction + 1 } t (.function iter)
    exact hm₁.trans_later hset (Nat.le_refl _)
  have hlooping : Looping m₂ t f iter := by
    refine ⟨fun j hj => ?_, (hother _ (by decide)).trans hf, get?_set_self ht _ _, ?_⟩
    · have hchain : m₂.chain t = t :: m₀.chain c.scope := by
        have henclosing : m₂.enclosing t = m₁.enclosing t := enclosing_set _ _ _ _ _
        rw [chain, henclosing]
        exact congrArg (t :: ·) ((enclosing_entered m₀ _ t _).trans (if_pos rfl))
      rw [hchain] at hj
      rcases List.mem_cons.1 hj with rfl | hj
      · simpa [m₂, withLoop] using ht
      · exact Nat.lt_of_lt_of_le (hc j hj) hext.size
    · intro name hname
      have hne : name ≠ "iter" := by
        rintro rfl
        exact absurd hname (by decide)
      exact (hother name hne).trans (hbuiltins name hname)
  -- the loop starts with the scope of the call and its own function added to `m₀`
  obtain ⟨L, hs, -⟩ := (Alongside.refl hm₀).onward hext (output_entered m₀ _ _)
  have hparameters : iter.parameters.map (·.literal) = ["arr", acc] := rfl
  have hloop : iter.body.statements = loopBody (line + 1) acc step := rfl
  have hdepth : need + 5 * xs.length + 7 ≤ d + 7 := by omega
  obtain ⟨L', m', hrun, hne, hknown, hs', -⟩ :=
    loop_folds hparameters hloop hacc hsteps hxs hlength hs hlooping ha hsignal hr hreturn hdepth
  rw [hs.object ha] at hrun
  refine ⟨L', m', hcall.trans ?_, hknown, hs'⟩
  exact concluded_applied hrun (Relabelling.object_ne_returning L' hne)

end Looping

end Eval

end Treewalk
