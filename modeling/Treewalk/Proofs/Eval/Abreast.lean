import Treewalk.Proofs.Eval.Signals
import Treewalk.Proofs.Eval.Worlds

/-!
# Evaluation under other names

Corresponding code run on two machines abreast: either both runs end, with what stands for each
other, or neither does. The run here keeps a record, which tells what it printed; as long as that
looks the same there, both print the same.
-/

namespace Treewalk

variable {D : Dictionary} {W W' : World D}

/-- Signals that stand for each other. -/
def World.Signals (W : World D) : Signal → Signal → Prop
  | .error e, .error e' => e' = e
  | .returning v, .returning v' => W.Stands v v'
  | _, _ => False

theorem World.Signals.taken {s s' : Signal} (h : W.Signals s s') : W.Stands s.taken s'.taken := by
  cases s <;> cases s'
  · obtain rfl : _ = _ := h
    exact .error _
  · exact h.elim
  · exact h.elim
  · exact h

/-- What `puts` was called with is all of the sort `shows`. -/
def Trace.Shown (shows : Object → Prop) (ts : List Trace) : Prop :=
  ∀ c : Trace, c.Within ts → ∀ arguments, c.task = .call (.builtin .puts) arguments →
    ∀ o ∈ arguments, shows o

namespace Trace.Shown

variable {shows : Object → Prop} {ts us : List Trace}

theorem left (h : Shown shows (ts ++ us)) : Shown shows ts := by
  intro c hc
  refine h c ?_
  cases hc with
  | here hmem => exact .here (List.mem_append_left _ hmem)
  | inside hmem hc => exact .inside (List.mem_append_left _ hmem) hc

theorem right (h : Shown shows (ts ++ us)) : Shown shows us := by
  intro c hc
  refine h c ?_
  cases hc with
  | here hmem => exact .here (List.mem_append_right _ hmem)
  | inside hmem hc => exact .inside (List.mem_append_right _ hmem) hc

theorem inner {t : Trace} (h : Shown shows [t]) : Shown shows t.inner :=
  fun c hc => h c (.inside List.mem_cons_self hc)

end Trace.Shown

namespace Traced

open Run

variable {shows : Object → Prop} {α β γ δ : Type}

/-- Two runs that have come to `u` here and to `u'` there, having recorded `new`. -/
structure Arrives (shows : Object → Prop) (P : World D → α → β → Prop) (W W' : World D)
    (m m' : Machine) (ts new : List Trace) (u : Except Signal α × Machine × List Trace)
    (u' : Except Signal β × Machine) : Prop where
  grows : W.Grows W'
  ends : EndsAlike W'.Signals (P W') u.1 u'.1
  links : W'.Links u.2.1 u'.2
  record : u.2.2 = ts ++ new
  output : Trace.Shown shows new → ∀ before, m'.output = before ++ m.output →
    u'.2.output = before ++ u.2.1.output

/-- From any machines abreast both runs end, with results as `P` says, or neither does. -/
def Follows (shows : Object → Prop) (W : World D) (P : World D → α → β → Prop) (x : Traced α)
    (y : Eval β) : Prop :=
  ∀ m ts m', W.Links m m' → Option.Rel (fun u u' => ∃ W' new, Arrives shows P W W' m m' ts new u u')
    (x (m, ts)) (y m')

/-- Runs with objects that stand for each other. -/
abbrev Mirrors (shows : Object → Prop) (W : World D) (x : Traced Object) (y : Eval Object) : Prop :=
  Follows shows W (fun W' => W'.Stands) x y

namespace Follows

variable {P : World D → α → β → Prop} {Q : World D → γ → δ → Prop} {x : Traced α} {y : Eval β}

theorem pure {a : α} {b : β} (h : P W a b) : Follows shows W P (Pure.pure a) (Pure.pure b) :=
  fun _ ts _ hm => .some ⟨W, [], .refl W, h, hm, (List.append_nil ts).symm, fun _ _ h => h⟩

theorem exit {s s' : Signal} (h : W.Signals s s') :
    Follows shows W P (Run.exit s) (Run.exit s') :=
  fun _ ts _ hm => .some ⟨W, [], .refl W, h, hm, (List.append_nil ts).symm, fun _ _ h => h⟩

theorem exhausted : Follows shows W P (Run.exhausted : Traced α) Run.exhausted :=
  fun _ _ _ _ => .none

theorem bind {f : α → Traced γ} {g : β → Eval δ} (hx : Follows shows W P x y)
    (hf : ∀ W' a b, W.Grows W' → P W' a b → Follows shows W' Q (f a) (g b)) :
    Follows shows W Q (x >>= f) (y >>= g) := by
  intro m ts m' hm
  have hstep := hx m ts m' hm
  rw [bind_apply, bind_apply]
  generalize x (m, ts) = u, y m' = u' at hstep
  cases hstep with
  | none => exact .none
  | @some u u' h =>
    obtain ⟨W₁, new₁, h₁⟩ := h
    obtain ⟨r, m₁, ts₁⟩ := u
    obtain ⟨r', m₁'⟩ := u'
    cases r <;> cases r'
    · exact .some ⟨W₁, new₁, h₁.grows, h₁.ends, h₁.links, h₁.record, h₁.output⟩
    · exact h₁.ends.elim
    · exact h₁.ends.elim
    · rename_i a b
      have hrest := hf W₁ a b h₁.grows h₁.ends m₁ ts₁ m₁' h₁.links
      dsimp only
      generalize f a (m₁, ts₁) = v, g b m₁' = v' at hrest
      cases hrest with
      | none => exact .none
      | some h =>
        obtain ⟨W₂, new₂, h₂⟩ := h
        refine .some ⟨W₂, new₁ ++ new₂, h₁.grows.trans h₂.grows, h₂.ends, h₂.links, ?_, ?_⟩
        · have hrecord : ts₁ = ts ++ new₁ := h₁.record
          rw [h₂.record, hrecord, List.append_assoc]
        -- the output of the first step stands before that of the second
        · intro hshown before hbefore
          exact h₂.output hshown.right before (h₁.output hshown.left before hbefore)

theorem lift {x : Eval α} {y : Eval β}
    (h : ∀ m m', W.Links m m' → ∃ W' r r' m₁ m₁', x m = some (r, m₁) ∧ y m' = some (r', m₁') ∧
      W.Grows W' ∧ EndsAlike W'.Signals (P W') r r' ∧ W'.Links m₁ m₁' ∧ m₁.output = m.output ∧
      m₁'.output = m'.output) : Follows shows W P (Traced.lift x) y := by
  intro m ts m' hm
  obtain ⟨W', r, r', m₁, m₁', hx, hy, hg, hends, hlinks, hout, hout'⟩ := h m m' hm
  rw [Traced.lift, hx, hy]
  refine .some ⟨W', [], hg, hends, hlinks, (List.append_nil ts).symm, fun _ before hbefore => ?_⟩
  rw [hout, hout', hbefore]

theorem record {x : Traced Object} {y : Eval Object} (h : Mirrors shows W x y) (task : Task) :
    Mirrors shows W (record task x) y := by
  intro m ts m' hm
  have hinner := h m [] m' hm
  rw [Traced.record]
  generalize x (m, []) = u, y m' = u' at hinner
  cases hinner with
  | none => exact .none
  | @some u u' h =>
    obtain ⟨W', new, h⟩ := h
    have hnew : u.2.2 = new := h.record
    refine .some ⟨W', _, h.grows, h.ends, h.links, rfl, fun hshown => h.output ?_⟩
    rw [← hnew]
    exact hshown.inner

theorem concluded {x : Traced Object} {y : Eval Object} (h : Mirrors shows W x y) :
    Mirrors shows W (concluded x) (Eval.concluded y) := by
  intro m ts m' hm
  have hends := h m ts m' hm
  rw [Traced.concluded, Eval.concluded, Eval.outcome]
  generalize x (m, ts) = u, y m' = u' at hends
  cases hends with
  | none => exact .none
  | @some u u' h =>
    obtain ⟨W', new, h⟩ := h
    obtain ⟨r, m₁, ts₁⟩ := u
    obtain ⟨r', m₁'⟩ := u'
    cases r <;> cases r'
    · exact .some ⟨W', new, h.grows, World.Signals.taken h.ends, h.links, h.record, h.output⟩
    · exact h.ends.elim
    · exact h.ends.elim
    · exact .some ⟨W', new, h.grows, h.ends, h.links, h.record, h.output⟩

end Follows

/-! ## Single steps -/

section Steps

variable {μ ν : D.Mode} {k : ScopeId} {a a' : String}

theorem settle_ends {σ σ' : Type} {o o' : Object} (h : W.Stands o o') (s : σ) (s' : σ') :
    ∃ r r', Eval.settle o s = some (r, s) ∧ Eval.settle o' s' = some (r', s') ∧
      EndsAlike W.Signals W.Stands r r' := by
  obtain ⟨hold, rfl⟩ := h
  cases o with
  | error e => exact ⟨_, _, rfl, rfl, rfl⟩
  | returning v => exact ⟨_, _, rfl, rfl, (Object.every_returning.1 hold).2, rfl⟩
  | _ => exact ⟨_, _, rfl, rfl, hold, rfl⟩

theorem mirrors_settle {o o' : Object} (h : W.Stands o o') :
    Mirrors shows W (Eval.settle o) (Eval.settle o') := by
  intro m ts m' hm
  obtain ⟨r, r', hr, hr', hends⟩ := settle_ends h (m, ts) m'
  rw [hr, hr']
  exact .some ⟨W, [], .refl W, hends, hm, (List.append_nil ts).symm, fun _ _ h => h⟩

theorem mirrors_settleExcept {x : Except RuntimeError Object} (h : ∀ o, x = .ok o → W.Holds o) :
    Mirrors shows W (Eval.settleExcept x) (Eval.settleExcept (x.map W.object)) := by
  cases x with
  | ok o => exact mirrors_settle ⟨h o rfl, rfl⟩
  | error e => exact .exit rfl

theorem mirrors_named (hk : W.modes[k]? = some μ) (ha : D.names μ a a') :
    Mirrors shows W (lift (Eval.named k a)) (Eval.named (D.scope k) a') := by
  refine .lift fun m m' hm => ?_
  obtain ⟨hrel, hsame⟩ := hm.get? hk ha
  simp only [Eval.named, bind_apply, get_apply]
  generalize m.get? k a = x, m'.get? (D.scope k) a' = x' at hrel hsame
  cases hrel with
  | some h =>
    obtain ⟨r, r', hr, hr', hends⟩ := settle_ends h m m'
    exact ⟨W, r, r', m, m', hr, hr', .refl W, hends, hm, rfl, rfl⟩
  | none =>
    -- what no scope binds has the same name there, so it is the same built-in function
    obtain rfl := hsame rfl
    dsimp only
    cases Builtin.named? a' with
    | some b =>
      have hb : W.Stands (.builtin b) (.builtin b) := ⟨W.plain.every_builtin b, rfl⟩
      exact ⟨W, _, _, m, m', rfl, rfl, .refl W, hb, hm, rfl, rfl⟩
    | none => exact ⟨W, _, _, m, m', rfl, rfl, .refl W, rfl, hm, rfl, rfl⟩

theorem follows_bind (hk : W.modes[k]? = some μ) (ha : D.names μ a a') {o o' : Object}
    (ho : W.Stands o o') :
    Follows shows W (fun _ _ _ => True) (lift (Eval.bind k a o)) (Eval.bind (D.scope k) a' o') :=
  .lift fun _ _ hm =>
    ⟨W, .ok (), .ok (), _, _, rfl, rfl, .refl W, trivial, hm.set hk ha ho, rfl, rfl⟩

theorem mirrors_closure (hk : W.modes[k]? = some μ) {ps ps' : List Token} {u : Token}
    {ss ss' : List Statement} (hopens : D.Opens μ ν ps) (hnames : List.Forall₂ (D.Name ν) ps ps')
    (hbody : D.Corresponds ν (.statements ss) (.statements ss')) :
    Mirrors shows W (lift (Eval.closure k ps ⟨u, ss⟩)) (Eval.closure (D.scope k) ps' ⟨u, ss'⟩) := by
  refine .lift fun m m' hm => ?_
  let c : Closure := ⟨m.nextFunction, ps, ⟨u, ss⟩, k⟩
  let c' : Closure := ⟨m'.nextFunction, ps', ⟨u, ss'⟩, D.scope k⟩
  have hlast : (W.addFunction c').closures[c.identity]? = some c' := hm.closure_addFunction c'
  have hknown : (W.addFunction c').Knows c :=
    ⟨μ, c', hk, hlast, (hm.nextFunction 0).symm, rfl, rfl, ν, hopens, hnames, hbody⟩
  refine ⟨W.addFunction c', .ok (.function c), .ok (.function c'), _, _, rfl, rfl,
    W.grows_addFunction c', ⟨.function hknown, ?_⟩, hm.newFunction c', rfl, rfl⟩
  exact congrArg Object.function (World.closure_eq hlast).symm

theorem paired_zip {ps ps' : List Token} (hnames : List.Forall₂ (D.Name ν) ps ps')
    {arguments : List Object} (ha : ∀ x ∈ arguments, W.Holds x) :
    World.Links.Paired W ν ((ps.map (·.literal)).zip arguments)
      ((ps'.map (·.literal)).zip (arguments.map W.object)) := by
  induction hnames generalizing arguments with
  | nil => exact .nil
  | cons hp _ ih =>
    cases arguments with
    | nil => exact .nil
    | cons x xs =>
      obtain ⟨hx, hxs⟩ := List.forall_mem_cons.1 ha
      exact .cons ⟨hp.name, hx, rfl⟩ (ih hxs)

theorem follows_enter {c c' : Closure} (hc : W.modes[c.scope]? = some μ)
    (hscope : c'.scope = D.scope c.scope) (hopens : D.Opens μ ν c.parameters)
    (hnames : List.Forall₂ (D.Name ν) c.parameters c'.parameters) {arguments : List Object}
    (hlength : arguments.length = c.parameters.length) (ha : ∀ x ∈ arguments, W.Holds x) :
    Follows shows W (fun W' s s' => s' = D.scope s ∧ W'.modes[s]? = some ν)
      (lift (Eval.enter c arguments)) (Eval.enter c' (arguments.map W.object)) := by
  refine .lift fun m m' hm => ?_
  have hbound : ∀ a ∈ c.parameters.map (·.literal),
      a ∈ ((c.parameters.map (·.literal)).zip arguments).map (·.1) := by
    intro a hmem
    rwa [List.map_fst_zip (by simp [hlength])]
  have hlinks := hm.enter hc hopens (paired_zip hnames ha) hbound
  refine ⟨W.addScope ν, .ok m.nextScope, .ok m'.nextScope, _, _, rfl, rfl, W.grows_addScope ν,
    ⟨(hm.nextScope 0).symm, hm.mode_addScope ν⟩, ?_, m.output_entered _ _, m'.output_entered _ _⟩
  rw [hscope]
  exact hlinks

end Steps

/-! ## Loops -/

section Loops

variable {μ : D.Mode}

/-- Lists of objects that stand for each other. -/
structure StandAll (W : World D) (xs xs' : List Object) : Prop where
  holds : ∀ x ∈ xs, W.Holds x
  eq : xs' = xs.map W.object

/-- Entries that stand for each other. -/
structure StandEntries (W : World D) (es es' : List (Entry Object)) : Prop where
  holds : Eval.EntriesHold (fun x => ∀ c, x = .function c → W.Knows c) es
  eq : es' = es.map (Entry.mapClosures W.closure)

theorem StandEntries.mono (hg : W.Grows W') {es es' : List (Entry Object)}
    (h : StandEntries W es es') : StandEntries W' es es' where
  holds := h.holds.mono fun _ => World.Holds.mono hg
  eq := h.eq.trans <| List.map_congr_left fun e he => by
    obtain ⟨hk, hv⟩ := h.holds.contents e he
    have hkey : e.key.mapClosures W'.closure = e.key.mapClosures W.closure :=
      World.object_mono hg hk
    have hvalue : e.value.mapClosures W'.closure = e.value.mapClosures W.closure :=
      World.object_mono hg hv
    rw [Entry.mapClosures, Entry.mapClosures, hkey, hvalue]

theorem StandEntries.insert {es es' : List (Entry Object)} (h : StandEntries W es es')
    {hk : HashKey} {k k' v v' : Object} (hkey : k.hashKey? = some hk) (hkk : W.Stands k k')
    (hvv : W.Stands v v') :
    StandEntries W (Entry.insert ⟨hk, k, v⟩ es) (Entry.insert ⟨hk, k', v'⟩ es') where
  holds := h.holds.insert hkey hkk.holds hvv.holds
  eq := by
    rw [h.eq, hkk.eq, hvv.eq, ← Entry.insert_mapClosures]
    rfl

/-- Expressions that correspond, evaluated in any later world. -/
abbrev Evaluates (shows : Object → Prop) (W : World D) (μ : D.Mode) (eval : Expr → Traced Object)
    (eval' : Expr → Eval Object) : Prop :=
  ∀ W' e e', W.Grows W' → D.Corresponds μ (.expression e) (.expression e') →
    Mirrors shows W' (eval e) (eval' e')

theorem Evaluates.mono {eval : Expr → Traced Object} {eval' : Expr → Eval Object}
    (h : Evaluates shows W μ eval eval') (hg : W.Grows W') : Evaluates shows W' μ eval eval' :=
  fun W'' e e' hg' => h W'' e e' (hg.trans hg')

theorem follows_all {eval : Expr → Traced Object} {eval' : Expr → Eval Object}
    (heval : Evaluates shows W μ eval eval') {es es' : List Expr}
    (h : D.Corresponds μ (.expressions es) (.expressions es')) :
    Follows shows W StandAll (Eval.all eval es) (Eval.all eval' es') := by
  induction es generalizing es' W with
  | nil =>
    cases h
    exact .pure ⟨by simp, rfl⟩
  | cons e es ih =>
    cases h with
    | expressions he hes =>
      rw [Eval.all, Eval.all]
      refine .bind (heval W _ _ (.refl W) he) fun W₁ o o' hg ho => ?_
      refine .bind (ih (heval.mono hg) hes) fun W₂ xs xs' hg' hxs => .pure ?_
      refine ⟨List.forall_mem_cons.2 ⟨ho.holds.mono hg', hxs.holds⟩, ?_⟩
      rw [hxs.eq, (ho.mono hg').eq, List.map_cons]

theorem follows_pairs {eval : Expr → Traced Object} {eval' : Expr → Eval Object}
    (heval : Evaluates shows W μ eval eval') {ps ps' : List (Expr × Expr)}
    (h : D.Corresponds μ (.pairs ps) (.pairs ps')) {entries entries' : List (Entry Object)}
    (he : StandEntries W entries entries') :
    Follows shows W StandEntries (Eval.pairs eval entries ps) (Eval.pairs eval' entries' ps') := by
  induction ps generalizing ps' W entries entries' with
  | nil =>
    cases h
    exact .pure he
  | cons p ps ih =>
    cases h with
    | pairs hk hv hps =>
      rw [Eval.pairs, Eval.pairs]
      refine .bind (heval W _ _ (.refl W) hk) fun W₁ key key' hg hkey => ?_
      rw [hkey.eq, World.object, Object.hashKey?_mapClosures, Object.kind_mapClosures]
      cases hhash : key.hashKey? with
      | none => exact .exit rfl
      | some k =>
        refine .bind (heval W₁ _ _ hg hv) fun W₂ value value' hg' hvalue => ?_
        refine ih (heval.mono (hg.trans hg')) hps ?_
        have hkey' : W₂.Stands key (W₁.object key) :=
          ⟨hkey.holds.mono hg', (World.object_mono hg' hkey.holds).symm⟩
        exact (he.mono (hg.trans hg')).insert hhash hkey' hvalue

theorem mirrors_sequence {eval : Statement → Traced Object} {eval' : Statement → Eval Object}
    (heval : ∀ W' s s', W.Grows W' → D.Corresponds μ (.statement s) (.statement s') →
      Mirrors shows W' (eval s) (eval' s')) {ss ss' : List Statement}
    (h : D.Corresponds μ (.statements ss) (.statements ss')) {result result' : Object}
    (hr : W.Stands result result') :
    Mirrors shows W (Eval.sequence eval result ss) (Eval.sequence eval' result' ss') := by
  induction ss generalizing ss' W result result' with
  | nil =>
    cases h
    exact .pure hr
  | cons s ss ih =>
    cases h with
    | statements hs hss =>
      rw [Eval.sequence, Eval.sequence]
      refine .bind (heval W _ _ (.refl W) hs) fun W₁ o o' hg ho => ?_
      exact ih (fun W' s s' hg' => heval W' s s' (hg.trans hg')) hss ho

end Loops

/-! ## The evaluator -/

section Evaluator

/-- Objects of the sort `shows` are displayed as they are there. -/
def ShownAlike (D : Dictionary) (shows : Object → Prop) : Prop :=
  ∀ (W : World D) (o : Object), W.Holds o → shows o → (W.object o).display = o.display

theorem printed_alike (hshows : ShownAlike D shows) {b : Builtin} {arguments : List Object}
    (ha : ∀ x ∈ arguments, W.Holds x) (hs : b = .puts → ∀ x ∈ arguments, shows x) :
    b.printed (arguments.map W.object) = b.printed arguments := by
  cases b with
  | puts =>
    refine congrArg String.join ?_
    rw [List.map_map]
    refine List.map_congr_left fun o ho => ?_
    rw [Function.comp_apply, hshows W o (ha o ho) (hs rfl o ho)]
  | _ => rfl

theorem stands_result {b : Builtin} {arguments : List Object} (ha : ∀ x ∈ arguments, W.Holds x) :
    W.Stands (.ofExcept (b.result arguments)) (.ofExcept (b.result (arguments.map W.object))) where
  holds := by
    rcases Eval.reply_builtin W.plain ha with h | ⟨e, he⟩
    · exact h
    · rw [he]
      exact .error e
  eq := by
    have hresult : b.result (arguments.map W.object) = (b.result arguments).map W.object :=
      b.result_mapClosures W.closure arguments
    rw [hresult]
    exact Object.ofExcept_map W.closure _

/-- What a built-in function printed is known from the record of its call. -/
theorem mirrors_builtin (hshows : ShownAlike D shows) (b : Builtin) {arguments : List Object}
    (ha : ∀ x ∈ arguments, W.Holds x) :
    Mirrors shows W
      (record (.call (.builtin b) arguments) (do
        lift (Eval.print (b.printed arguments))
        return .ofExcept (b.result arguments)))
      (do
        Eval.print (b.printed (arguments.map W.object))
        return .ofExcept (b.result (arguments.map W.object))) := by
  intro m ts m' hm
  refine .some ⟨W, _, .refl W, stands_result ha, hm.print _ _, rfl, fun hshown before hbefore => ?_⟩
  have hs : b = .puts → ∀ x ∈ arguments, shows x := by
    rintro rfl
    exact hshown _ (.here List.mem_cons_self) arguments rfl
  show m'.output ++ b.printed (arguments.map W.object) = before ++ (m.output ++ b.printed arguments)
  rw [printed_alike hshows ha hs, hbefore, String.append_assoc]

structure Mirroring (D : Dictionary) (shows : Object → Prop) (n : Nat) : Prop where
  expression : ∀ (W : World D) s μ e e', W.modes[s]? = some μ →
    D.Corresponds μ (.expression e) (.expression e') →
    Mirrors shows W (expression n s e) (Eval.expression n (D.scope s) e')
  statement : ∀ (W : World D) s μ st st', W.modes[s]? = some μ →
    D.Corresponds μ (.statement st) (.statement st') →
    Mirrors shows W (statement n s st) (Eval.statement n (D.scope s) st')
  apply : ∀ (W : World D) f arguments, W.Holds f → (∀ x ∈ arguments, W.Holds x) →
    Mirrors shows W (apply n f arguments) (Eval.apply n (W.object f) (arguments.map W.object))

variable {n : Nat} {s : ScopeId} {μ : D.Mode}

theorem Mirroring.sequence (h : Mirroring D shows n) (hs : W.modes[s]? = some μ)
    {ss ss' : List Statement} (hss : D.Corresponds μ (.statements ss) (.statements ss')) :
    Mirrors shows W (Eval.sequence (Traced.statement n s) .null ss)
      (Eval.sequence (Eval.statement n (D.scope s)) .null ss') :=
  mirrors_sequence (fun W' st st' hg => h.statement W' s μ st st' (hg.mode hs)) hss .null

theorem mirroring_expression (ih : Mirroring D shows n) (hs : W.modes[s]? = some μ) {e e' : Expr}
    (he : D.Corresponds μ (.expression e) (.expression e')) :
    Mirrors shows W (expression (n + 1) s e) (Eval.expression (n + 1) (D.scope s) e') := by
  have part : Evaluates shows W μ (expression n s) (Eval.expression n (D.scope s)) :=
    fun W' e e' hg => ih.expression W' s μ e e' (hg.mode hs)
  have first {a a' : Expr} := part W a a' (.refl W)
  have branch {W' : World D} (hg : W.Grows W') {u : Token} {ss ss' : List Statement}
      (hss : D.Corresponds μ (.statements ss) (.statements ss')) :
      Mirrors shows W' (block (statement n s) s ⟨u, ss⟩)
        (Eval.sequence (Eval.statement n (D.scope s)) .null ss') :=
    (ih.sequence (hg.mode hs) hss).record _
  refine Follows.record ?_ (.expression s e)
  cases he with
  | identifier ha => exact mirrors_named hs ha.name
  | integer => exact .pure ⟨W.plain.every_integer _, rfl⟩
  | boolean => exact .pure ⟨W.plain.every_boolean _, rfl⟩
  | string => exact .pure ⟨W.plain.every_string _, rfl⟩
  | prefixed ha =>
    refine .bind (first ha) fun W₁ o o' _ ho => ?_
    -- operators do not look into functions
    rw [ho.eq, World.object, PrefixOp.apply_mapClosures]
    exact mirrors_settleExcept fun _ h => Eval.every_prefix W₁.plain h
  | binary ha hb =>
    refine .bind (first ha) fun W₁ l l' hg hl => .bind (part W₁ _ _ hg hb) fun W₂ r r' hg' hr => ?_
    rw [(hl.mono hg').eq, hr.eq, World.object, World.object, InfixOp.apply_mapClosures]
    exact mirrors_settleExcept fun _ h => Eval.every_infix W₂.plain h
  | conditional ha hss =>
    refine .bind (first ha) fun W₁ o o' hg ho => ?_
    rw [ho.eq, World.object, Object.truthy_mapClosures]
    split
    · exact branch hg hss
    · exact .pure .null
  | alternative ha hss hrs =>
    refine .bind (first ha) fun W₁ o o' hg ho => ?_
    rw [ho.eq, World.object, Object.truthy_mapClosures]
    split
    · exact branch hg hss
    · exact branch hg hrs
  | function hopens hnames hbody => exact mirrors_closure hs hopens hnames hbody
  | call ha hes =>
    refine .bind (first ha) fun W₁ f f' hg hf => ?_
    refine .bind (follows_all (part.mono hg) hes) fun W₂ xs xs' hg' hxs => ?_
    have hf' := hf.mono hg'
    rw [hf'.eq, hxs.eq]
    exact .bind (ih.apply W₂ f xs hf'.holds hxs.holds) fun _ _ _ _ ho => mirrors_settle ho
  | array hes =>
    refine .bind (follows_all part hes) fun W₁ xs xs' _ hxs => .pure ⟨?_, ?_⟩
    · exact W₁.plain.every_array hxs.holds
    · rw [hxs.eq, World.object, Object.mapClosures_array]
      rfl
  | hash hps =>
    refine .bind (follows_pairs part hps ⟨.nil, rfl⟩) fun W₁ es es' _ hes => .pure ⟨?_, ?_⟩
    · exact hes.holds.every_hash W₁.plain
    · rw [hes.eq, World.object, Object.mapClosures_hash]
  | index ha hb =>
    refine .bind (first ha) fun W₁ x x' hg hx => .bind (part W₁ _ _ hg hb) fun W₂ i i' hg' hi => ?_
    have hx' := hx.mono hg'
    rw [hx'.eq, hi.eq, World.object, World.object, Object.index_mapClosures]
    exact mirrors_settleExcept fun _ h => Eval.every_index W₂.plain hx'.holds h

theorem mirroring_statement (ih : Mirroring D shows n) (hs : W.modes[s]? = some μ)
    {st st' : Statement} (hst : D.Corresponds μ (.statement st) (.statement st')) :
    Mirrors shows W (statement (n + 1) s st) (Eval.statement (n + 1) (D.scope s) st') := by
  have value {e e' : Expr} := ih.expression W s μ e e' hs
  refine Follows.record ?_ (.statement s st)
  cases hst with
  | binding hn he =>
    refine .bind (value he) fun W₁ o o' hg ho => ?_
    exact .bind (follows_bind (hg.mode hs) hn.name ho) fun _ _ _ _ _ => .pure .null
  | bareReturn => exact .exit .null
  | returning he => exact .bind (value he) fun W₁ o o' _ ho => .exit ho
  | evaluated _ he => exact value he

theorem mirroring_apply (hshows : ShownAlike D shows) (ih : Mirroring D shows n) {f : Object}
    {arguments : List Object} (hf : W.Holds f) (ha : ∀ x ∈ arguments, W.Holds x) :
    Mirrors shows W (apply (n + 1) f arguments)
      (Eval.apply (n + 1) (W.object f) (arguments.map W.object)) := by
  cases f with
  | function c =>
    obtain ⟨μ, c', hμ, hc, hrenames⟩ := hf.self c rfl
    obtain ⟨ν, hopens, hnames, hbody⟩ := hrenames.inside
    have hobject : W.object (.function c) = .function c' :=
      congrArg Object.function (World.closure_eq hc)
    have hlength : c'.parameters.length = c.parameters.length := hnames.length_eq.symm
    rw [hobject, apply, Eval.apply, hlength, List.length_map]
    refine Follows.record ?_ _
    split
    · rename_i heq
      refine .bind (follows_enter hμ hrenames.scope hopens hnames heq ha) fun W₁ k k' _ hk => ?_
      rw [hk.1]
      exact ((ih.sequence hk.2 hbody).record _).concluded
    · exact .pure (.error _)
  | builtin b => exact mirrors_builtin hshows b ha
  | _ => exact Follows.record (.pure (.error _)) _

theorem mirroring (hshows : ShownAlike D shows) (n : Nat) : Mirroring D shows n := by
  induction n with
  | zero =>
    exact ⟨fun _ _ _ _ _ _ _ => .exhausted, fun _ _ _ _ _ _ _ => .exhausted,
      fun _ _ _ _ _ => .exhausted⟩
  | succ n ih =>
    exact ⟨fun _ _ _ _ _ hs => mirroring_expression ih hs,
      fun _ _ _ _ _ hs => mirroring_statement ih hs, fun _ _ _ => mirroring_apply hshows ih⟩

/-- What two programs end with, from `m` here and from `m'` there. -/
structure Together (shows : Object → Prop) (W : World D) (m m' : Machine)
    (u : Object × Machine × List Trace) (u' : Object × Machine) : Prop where
  result : W.Stands u.1 u'.1
  links : W.Links u.2.1 u'.2
  output : Trace.Shown shows u.2.2 → ∀ before, m'.output = before ++ m.output →
    u'.2.output = before ++ u.2.1.output

theorem programs_together (hshows : ShownAlike D shows) (n : Nat) {m m' : Machine}
    (hm : W.Links m m') (hs : W.modes[s]? = some μ) {p p' : Program}
    (hp : D.Corresponds μ (.statements p) (.statements p')) :
    Option.Rel (fun u u' => ∃ W', W.Grows W' ∧ Together shows W' m m' u u')
      (program n s p m) (Eval.program n (D.scope s) p' m') := by
  have hends := (mirroring hshows n).sequence hs hp m [] m' hm
  rw [program, Eval.program, Eval.outcome, Traced.concluded]
  generalize Eval.sequence (statement n s) .null p (m, []) = u,
    Eval.sequence (Eval.statement n (D.scope s)) .null p' m' = u' at hends
  cases hends with
  | none => exact .none
  | @some u u' h =>
    obtain ⟨W', new, h⟩ := h
    obtain ⟨r, m₁, ts⟩ := u
    obtain ⟨r', m₁'⟩ := u'
    have hrecord : ts = new := h.record
    have houtput := h.output
    rw [← hrecord] at houtput
    cases r <;> cases r'
    · exact .some ⟨W', h.grows, World.Signals.taken h.ends, h.links, houtput⟩
    · exact h.ends.elim
    · exact h.ends.elim
    · exact .some ⟨W', h.grows, h.ends, h.links, houtput⟩

end Evaluator

end Traced

end Treewalk
