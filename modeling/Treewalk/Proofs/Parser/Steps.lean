import Treewalk.Parser.Lists
import Treewalk.Proofs.Runs

/-!
# What parser steps obey

A step drops tokens from the front of the window and adds errors behind the earlier ones. When it
adds none it has a result, and only then is anything said about the result.
-/

namespace Treewalk

namespace Window

def ahead (w : Window) : List Token := w.tokens.tail

@[simp] theorem tokens_advance (w : Window) : w.advance.tokens = w.ahead := rfl

theorem tokens_eq {w : Window} (he : w.eof.kind = .eof) (h : w.current.kind ≠ .eof) :
    w.tokens = w.current :: w.ahead := by
  obtain ⟨_ | ⟨t, ts⟩, e, es⟩ := w
  · exact absurd he h
  · rfl

theorem ahead_eq {w : Window} (he : w.eof.kind = .eof) (h : w.next.kind ≠ .eof) :
    w.ahead = w.next :: w.advance.ahead := by
  have h' := tokens_eq (w := w.advance) he (by rwa [current_advance])
  rwa [current_advance] at h'

structure Leads (w u : Window) : Prop where
  eof : u.eof = w.eof
  tokens : u.tokens <:+ w.tokens
  errors : w.errors <+: u.errors

namespace Leads

variable {w u v : Window}

theorem refl (w : Window) : w.Leads w := ⟨rfl, List.suffix_refl _, List.prefix_refl _⟩

theorem trans (h : w.Leads u) (h' : u.Leads v) : w.Leads v :=
  ⟨h'.eof.trans h.eof, h'.tokens.trans h.tokens, h.errors.trans h'.errors⟩

theorem advance (w : Window) : w.Leads w.advance :=
  ⟨rfl, List.tail_suffix _, List.prefix_refl _⟩

theorem record (e : SyntaxError) (w : Window) : w.Leads (w.record e) :=
  ⟨rfl, List.suffix_refl _, List.prefix_append _ _⟩

theorem synchronize (w : Window) : w.Leads w.synchronize :=
  ⟨rfl, restOfStatement_suffix _, List.prefix_refl _⟩

theorem quiet_left (h : w.Leads u) (h' : u.Leads v) (hq : v.errors = w.errors) :
    u.errors = w.errors := by
  have hle := h'.errors.length_le
  rw [hq] at hle
  exact (h.errors.eq_of_length_le hle).symm

end Leads

end Window

namespace Parser

variable {α β : Type}

/-! ## Single steps -/

section

variable {k : TokenKind} {w : Window}

theorem current_apply (w : Window) : current w = some (.ok w.current, w) := rfl

theorem next_apply (w : Window) : next w = some (.ok w.next, w) := rfl

theorem expect_eq (h : w.next.kind = k) : expect k w = some (.ok (), w.advance) := by
  rw [expect, Run.bind_ok (next_apply w), if_pos h]
  rfl

theorem expect_ne (h : w.next.kind ≠ k) :
    expect k w = some (.error (), w.record (.unexpected k w.next.kind w.next.line)) := by
  rw [expect, Run.bind_ok (next_apply w), if_neg h]
  rfl

theorem require_eq (h : w.next.kind = k) : require k w = some (.ok (), w.advance) := by
  rw [require, Run.bind_ok (next_apply w), if_pos h]
  rfl

theorem require_ne (h : w.next.kind ≠ k) : require k w =
    some (.error (), (w.record (.unexpected k w.next.kind w.next.line)).synchronize) := by
  rw [require, Run.bind_ok (next_apply w), if_neg h]
  rfl

theorem accept_eq (h : w.next.kind = k) : accept k w = some (.ok true, w.advance) := by
  rw [accept, Run.bind_ok (next_apply w), if_pos h]
  rfl

theorem accept_ne (h : w.next.kind ≠ k) : accept k w = some (.ok false, w) := by
  rw [accept, Run.bind_ok (next_apply w), if_neg h]
  rfl

theorem skip_eq (h : w.next.kind = k) : skip k w = some (.ok (), w.advance) := by
  rw [skip, Run.bind_ok (accept_eq h)]
  rfl

theorem skip_ne (h : w.next.kind ≠ k) : skip k w = some (.ok (), w) := by
  rw [skip, Run.bind_ok (accept_ne h)]
  rfl

end

/-! ## Laws -/

/-- Every end of the step leads on, and without a new error it has a result, with `post`. -/
def Obeys (x : Parser α) (w : Window) (post : α → Window → Prop) : Prop :=
  x.Meets w fun r u => w.Leads u ∧ (u.errors = w.errors → ∃ a, r = .ok a ∧ post a u)

namespace Obeys

variable {w : Window} {x : Parser α} {f : α → Parser β} {P P' : α → Window → Prop}
  {Q : β → Window → Prop}

theorem mono (h : Obeys x w P) (hp : ∀ a u, w.Leads u → P a u → P' a u) : Obeys x w P' := by
  intro r u hr
  obtain ⟨hu, hq⟩ := h r u hr
  refine ⟨hu, fun he => ?_⟩
  obtain ⟨a, ha, hP⟩ := hq he
  exact ⟨a, ha, hp a u hu hP⟩

theorem exhausted : Obeys (Run.exhausted : Parser α) w P := by
  intro r u hr
  cases hr

theorem pure {a : α} (h : P a w) : Obeys (Pure.pure a) w P := by
  intro r u hr
  cases hr
  exact ⟨.refl w, fun _ => ⟨a, rfl, h⟩⟩

/-- What the first step promises is known only if it has added no error. -/
theorem bind (hx : Obeys x w P) (hf : ∀ a u, w.Leads u → (u.errors = w.errors → P a u) →
    Obeys (f a) u fun b v => u.errors = w.errors → Q b v) : Obeys (x >>= f) w Q := by
  intro r v hr
  rcases Run.bind_ends hr with ⟨e, hxe, rfl⟩ | ⟨a, u, hxa, hfa⟩
  · obtain ⟨hv, hq⟩ := hx _ _ hxe
    refine ⟨hv, fun he => ?_⟩
    obtain ⟨a, ha, -⟩ := hq he
    cases ha
  · obtain ⟨hu, hP⟩ := hx _ _ hxa
    have hP' : u.errors = w.errors → P a u := fun he => by
      obtain ⟨a', ha, h⟩ := hP he
      cases ha
      exact h
    obtain ⟨hv, hQ⟩ := hf a u hu hP' r v hfa
    refine ⟨hu.trans hv, fun he => ?_⟩
    have hue := hu.quiet_left hv he
    obtain ⟨b, hb, h⟩ := hQ (he.trans hue.symm)
    exact ⟨b, hb, h hue⟩

/-! ## Steps -/

theorem current_bind {f : Token → Parser β} (h : Obeys (f w.current) w Q) :
    Obeys (current >>= f) w Q := h

theorem next_bind {f : Token → Parser β} (h : Obeys (f w.next) w Q) : Obeys (next >>= f) w Q := h

theorem after {u : Window} {y : Parser β} (hu : w.Leads u) (he : u.errors = w.errors)
    (hy : Obeys y u Q) {z : Parser β} (hz : z w = y u) : Obeys z w Q := by
  intro r v hr
  rw [hz] at hr
  obtain ⟨hv, hq⟩ := hy r v hr
  exact ⟨hu.trans hv, fun h => hq (h.trans he.symm)⟩

theorem advance_bind {f : Unit → Parser β} (h : Obeys (f ()) w.advance Q) :
    Obeys (advance >>= f) w Q := after (.advance w) rfl h rfl

theorem advanced (h : Obeys x w.advance P) : Obeys (Parser.advanced x) w P :=
  after (.advance w) rfl h rfl

theorem of_stops {u : Window} (hr : x w = some (.error (), u)) (hu : w.Leads u)
    (he : u.errors ≠ w.errors) : Obeys x w P := by
  intro r v hv
  rw [hr] at hv
  cases hv
  exact ⟨hu, fun h => absurd h he⟩

theorem errors_record_ne (e : SyntaxError) (w : Window) : (w.record e).errors ≠ w.errors := by
  simp [Window.record]

theorem record_fail (e : SyntaxError) : Obeys (record e >>= fun _ => (fail : Parser α)) w P :=
  of_stops rfl (.record e w) (errors_record_ne e w)

theorem record_bind {e : SyntaxError} {f : Unit → Parser β}
    (h : Obeys (f ()) (w.record e) fun _ _ => True) : Obeys (record e >>= f) w Q := by
  intro r v hr
  obtain ⟨hv, -⟩ := h r v hr
  refine ⟨(Window.Leads.record e w).trans hv, fun he => ?_⟩
  exact absurd ((Window.Leads.record e w).quiet_left hv he) (errors_record_ne e w)

theorem expect_bind {k : TokenKind} {f : Unit → Parser β}
    (h : w.next.kind = k → Obeys (f ()) w.advance Q) : Obeys (expect k >>= f) w Q := by
  by_cases hk : w.next.kind = k
  · exact after (.advance w) rfl (h hk) (Run.bind_ok (expect_eq hk))
  · exact of_stops (Run.bind_error (expect_ne hk)) (.record _ w) (errors_record_ne _ w)

theorem require_bind {k : TokenKind} {f : Unit → Parser β}
    (h : w.next.kind = k → Obeys (f ()) w.advance Q) : Obeys (require k >>= f) w Q := by
  by_cases hk : w.next.kind = k
  · exact after (.advance w) rfl (h hk) (Run.bind_ok (require_eq hk))
  · exact of_stops (Run.bind_error (require_ne hk))
      ((Window.Leads.record _ w).trans (.synchronize _)) (errors_record_ne _ w)

theorem accept_bind {k : TokenKind} {f : Bool → Parser β}
    (yes : w.next.kind = k → Obeys (f true) w.advance Q)
    (no : w.next.kind ≠ k → Obeys (f false) w Q) : Obeys (accept k >>= f) w Q := by
  by_cases hk : w.next.kind = k
  · exact after (.advance w) rfl (yes hk) (Run.bind_ok (accept_eq hk))
  · exact after (.refl w) rfl (no hk) (Run.bind_ok (accept_ne hk))

theorem skip_bind {k : TokenKind} {f : Unit → Parser β}
    (yes : w.next.kind = k → Obeys (f ()) w.advance Q)
    (no : w.next.kind ≠ k → Obeys (f ()) w Q) : Obeys (skip k >>= f) w Q := by
  by_cases hk : w.next.kind = k
  · exact after (.advance w) rfl (yes hk) (Run.bind_ok (skip_eq hk))
  · exact after (.refl w) rfl (no hk) (Run.bind_ok (skip_ne hk))

theorem attempt_bind {f : Except Unit α → Parser β} (hx : Obeys x w P)
    (hf : ∀ r u, w.Leads u → (u.errors = w.errors → ∃ a, r = .ok a ∧ P a u) →
      Obeys (f r) u fun b v => u.errors = w.errors → Q b v) : Obeys (x.attempt >>= f) w Q := by
  have ha : Obeys x.attempt w fun r u => ∃ a, r = .ok a ∧ P a u := by
    intro r u hr
    rw [Run.attempt_apply] at hr
    obtain ⟨⟨r', u'⟩, hx', h⟩ := Option.map_eq_some_iff.1 hr
    cases h
    obtain ⟨hu, hq⟩ := hx _ _ hx'
    exact ⟨hu, fun he => ⟨_, rfl, hq he⟩⟩
  exact ha.bind hf

end Obeys

end Parser

end Treewalk
