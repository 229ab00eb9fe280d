import Treewalk.Proofs.Eval.Depth
import Treewalk.Proofs.Eval.Repeat

/-!
# A machine with more scopes

A machine may do what another one does and make scopes and functions of its own in between. What
both make then has other numbers on it, and is the same apart from that.
-/

namespace Treewalk

namespace Relabelling

/-- Both do the same to all that is known on the machine. -/
structure SameOn (h : Machine) (L L' : Relabelling) : Prop where
  token : L'.token = L.token
  lead : L'.lead = L.lead
  scope : ∀ k < h.scopes.size, L'.scope k = L.scope k
  identity : ∀ i < h.nextFunction, L'.identity i = L.identity i

namespace SameOn

variable {h h' : Machine} {L L' L'' : Relabelling}

theorem trans (hs : SameOn h L L') (hs' : SameOn h L' L'') : SameOn h L L'' where
  token := hs'.token.trans hs.token
  lead := hs'.lead.trans hs.lead
  scope k hk := (hs'.scope k hk).trans (hs.scope k hk)
  identity i hi := (hs'.identity i hi).trans (hs.identity i hi)

theorem anti (hs : SameOn h' L L') (hg : h.Grows h') : SameOn h L L' where
  token := hs.token
  lead := hs.lead
  scope k hk := hs.scope k (Nat.lt_of_lt_of_le hk hg.size)
  identity i hi := hs.identity i (Nat.lt_of_lt_of_le hi hg.functions)

theorem closure (hs : SameOn h L L') {c : Closure} (hc : h.Knows c) :
    L'.closure c = L.closure c := by
  rw [Relabelling.closure, Relabelling.closure, hs.token, hs.lead, hs.scope _ hc.1,
    hs.identity _ hc.2]

theorem object (hs : SameOn h L L') {o : Object} (ho : o.KnownTo h) : L'.object o = L.object o :=
  o.mapClosures_congr fun _ hc => hs.closure (ho.of_mem hc)

theorem contents (hs : SameOn h L L') (hh : h.WellScoped) {k : ScopeId} {s : Scope}
    (hk : h.scopes[k]? = some s) : L'.contents s = L.contents s := by
  obtain ⟨bs, js⟩ := s
  have hlt : k < h.scopes.size := (Array.getElem?_eq_some_iff.1 hk).1
  have hbindings : h.bindings k = bs := by simp [Machine.bindings, hk]
  have henclosing : h.enclosing k = js := by simp [Machine.enclosing, hk]
  have hbs : L'.bindings bs = L.bindings bs :=
    List.map_congr_left fun b hb => by rw [hs.object (hh.bindings k b (hbindings ▸ hb))]
  have hjs : js.map L'.scope = js.map L.scope :=
    List.map_congr_left fun j hj =>
      hs.scope j (Nat.lt_trans (hh.enclosing_lt hlt j (henclosing ▸ hj)) hlt)
  rw [Relabelling.contents, Relabelling.contents, hbs, hjs]

end SameOn

end Relabelling

/-- Numbers as `f` does below `n`, and those from `n` on as they come from `up` on. -/
def numbering (f : Nat → Nat) (n up k : Nat) : Nat := if k < n then f k else up + (k - n)

theorem numbering_of_lt {f : Nat → Nat} {n up k : Nat} (h : k < n) : numbering f n up k = f k :=
  if_pos h

theorem numbering_add (f : Nat → Nat) (n up i : Nat) : numbering f n up (n + i) = up + i := by
  rw [numbering, if_neg (Nat.not_lt.2 (Nat.le_add_right n i)), Nat.add_sub_cancel_left]

theorem numbering_injective {f : Nat → Nat} {n up : Nat} (hf : ∀ {k j}, f k = f j → k = j)
    (hup : ∀ k < n, f k < up) {k j : Nat} (h : numbering f n up k = numbering f n up j) :
    k = j := by
  unfold numbering at h
  split at h <;> split at h
  · exact hf h
  · have hk := hup k (by assumption)
    omega
  · have hj := hup j (by assumption)
    omega
  · omega

/-- Goes on with other numbers from some scope and some function on. -/
def Relabelling.onward (L : Relabelling) (n up f upf : Nat) (h : ∀ k < n, L.scope k < up) :
    Relabelling where
  token := L.token
  lead := L.lead
  literal := L.literal
  scope := numbering L.scope n up
  scope_injective := numbering_injective L.scope_injective h
  identity := numbering L.identity f upf

namespace Machine

/-- `m'` is `h` with more scopes and functions, both having started from `m`. -/
structure Alongside (m : Machine) (L : Relabelling) (h m' : Machine) : Prop where
  same : Relabelling.SameOn m (.again m m) L
  grows : m.Grows h
  wellScoped : h.WellScoped
  matching : h.Matches L m.output m.output m'

namespace Alongside

variable {m h m' m'' : Machine} {L : Relabelling}

theorem refl (hm : m.WellScoped) : m.Alongside (.again m m) m m where
  same := ⟨rfl, rfl, fun _ _ => rfl, fun _ _ => rfl⟩
  grows := .refl m
  wellScoped := hm
  matching := hm.matches_again (.refl m) (.refl m)

theorem object (hs : m.Alongside L h m') {o : Object} (ho : o.KnownTo m) : L.object o = o :=
  (hs.same.object ho).trans (Relabelling.object_again ho)

theorem scope_lt (hs : m.Alongside L h m') {k : ScopeId} (hk : k < h.scopes.size) :
    L.scope k < m'.scopes.size := by
  have hscope := hs.matching.scopes k
  rw [Array.getElem?_eq_getElem hk, Option.map_some] at hscope
  exact (Array.getElem?_eq_some_iff.1 hscope).1

theorem output (hs : m.Alongside L h m') : m'.output = h.output := by
  obtain ⟨text, hh, hm'⟩ := hs.matching.output
  rw [hh, hm']

theorem onward (hs : m.Alongside L h m') (hext : m'.Extends m'')
    (hout : m''.output = m'.output) :
    ∃ L', m.Alongside L' h m'' ∧ ∀ o : Object, o.KnownTo h → L'.object o = L.object o := by
  let L' := L.onward h.scopes.size m''.scopes.size h.nextFunction m''.nextFunction
    fun k hk => Nat.lt_of_lt_of_le (hs.scope_lt hk) hext.size
  have hsame : Relabelling.SameOn h L L' :=
    ⟨rfl, rfl, fun _ => numbering_of_lt, fun _ => numbering_of_lt⟩
  have hscope : ∀ i, L'.scope (h.scopes.size + i) = m''.scopes.size + i := numbering_add _ _ _
  have hmatches : h.Matches L' m.output m.output m'' := by
    refine ⟨fun k => ?_, hscope, numbering_add _ _ _, hout ▸ hs.matching.output⟩
    by_cases hk : k < h.scopes.size
    · have hcontents := hs.matching.scopes k
      rw [Array.getElem?_eq_getElem hk, Option.map_some] at hcontents ⊢
      rw [hsame.scope k hk, hext.same _ (hs.scope_lt hk), hcontents,
        hsame.contents hs.wellScoped (Array.getElem?_eq_getElem hk)]
    · -- Scopes that are not there yet go to scopes that are not there yet.
      obtain ⟨i, rfl⟩ := Nat.exists_eq_add_of_le (Nat.le_of_not_lt hk)
      rw [hscope, Array.getElem?_eq_none (Nat.le_add_right _ _),
        Array.getElem?_eq_none (Nat.le_add_right _ _), Option.map_none]
  have hbefore : Relabelling.SameOn m (.again m m) L' := hs.same.trans (hsame.anti hs.grows)
  exact ⟨L', ⟨hbefore, hs.grows, hs.wellScoped, hmatches⟩, fun o ho => hsame.object ho⟩

end Alongside

end Machine

namespace Eval

open Run Machine

/-- Calls an object and goes on with what comes back, unless that is a signal. -/
def applied (n : Nat) (f : Object) (arguments : List Object) : Eval Object := do
  settle (← apply n f arguments)

theorem refines_applied {n d : Nat} (h : n ≤ d) (f : Object) (arguments : List Object) :
    Run.Refines (applied n f arguments) (applied d f arguments) :=
  .bind (refines_apply h f arguments) fun _ => .refl _

theorem gives_applied {m : Machine} (n : Nat) {f : Object} {arguments : List Object}
    (hf : f.KnownTo m) (ha : ∀ x ∈ arguments, x.KnownTo m) : Gives m (applied n f arguments) :=
  .bind ((Law.giving scoped_upheld n).apply m f arguments hf ha) fun _ _ _ ho => Law.gives_settle ho

theorem extends_applied (n : Nat) (f : Object) (arguments : List Object) :
    Relates Extends (applied n f arguments) :=
  .bind composes_extends ((framed n).apply f arguments) fun _ => relates_settle composes_extends _

theorem follows_applied {L : Relabelling} {a b : String} (n : Nat) (f : Object)
    (arguments : List Object) : Follows L a b (Renamed L) (applied n f arguments)
      (applied n (L.object f) (arguments.map L.object)) := by
  refine .bind ((follow L a b n).apply f arguments) fun o o' ho => ?_
  rw [ho]
  exact follows_settle o

theorem applied_not_signal {m m' : Machine} {n : Nat} {f o : Object} {arguments : List Object}
    (h : applied n f arguments m = some (.ok o, m')) : o.isSignal = false := by
  rcases bind_ends h with ⟨s, -, hs⟩ | ⟨v, m₁, -, hv⟩
  · cases hs
  · cases v <;> cases hv <;> rfl

theorem applied_alongside {m h h' m' : Machine} {L : Relabelling} (hs : m.Alongside L h m')
    {n d : Nat} (hd : n ≤ d) {f : Object} {arguments : List Object} (hf : f.KnownTo m)
    (ha : ∀ x ∈ arguments, x.KnownTo h) {r : Except Signal Object}
    (hr : applied n f arguments h = some (r, h')) :
    ∃ r' m'', applied d f (arguments.map L.object) m' = some (r', m'') ∧
      EndsAlike (fun s s' => s' = L.signal s)
        (fun o o' => o' = L.object o ∧ o.KnownTo h' ∧ o.isSignal = false) r r' ∧
      h.Grows h' ∧ m.Alongside L h' m'' ∧ m'.Extends m'' := by
  have hcalls := follows_applied (L := L) n f arguments h m' hs.matching
  rw [hr, hs.object hf] at hcalls
  generalize hcall : applied n f (arguments.map L.object) m' = u at hcalls
  obtain @⟨_, ⟨r', m''⟩, hends, hmatches⟩ := hcalls
  obtain ⟨hg, hscoped, hknown⟩ :=
    gives_applied n (hf.mono hs.grows) ha hs.wellScoped _ _ hr
  have hext := extends_applied n _ _ _ _ _ hcall
  have hs' : m.Alongside L h' m'' := ⟨hs.same, hs.grows.trans hg, hscoped, hmatches⟩
  refine ⟨r', m'', refines_applied hd _ _ _ _ hcall, ?_, hg, hs', hext⟩
  cases r <;> cases r'
  · exact hends
  · exact hends.elim
  · exact hends.elim
  · exact ⟨hends, hknown, applied_not_signal hr⟩

end Eval

end Treewalk
