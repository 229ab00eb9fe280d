import Mathlib.Data.List.Perm.Subperm
import Treewalk.Proofs.Parser.Segments
import Treewalk.Proofs.Parser.Visits

/-!
# The parser goes on or ends

From one visit to the next the window only shrinks, and it has shrunk before a routine is entered
again. So the visits are few, whatever the tokens are.
-/

namespace Treewalk

/-- No visit comes with more tokens left than one before it, or with as many if it is to the same
routine. None comes after one that has no tokens left. -/
def Advancing (vs : List Visit) : Prop :=
  vs.Pairwise fun a b =>
    0 < a.left ∧ b.left ≤ a.left ∧ (a.routine = b.routine → b.left < a.left)

namespace Visiting

variable {α β : Type} {N n : Nat} {R : List Routine} {w u : Window} {vs : List Visit}

/-- The visits so far advance, from at most `N` tokens to no fewer than there are. -/
structure Sane (N : Nat) (w : Window) (vs : List Visit) : Prop where
  eof : w.eof.kind = .eof
  size_le : w.size ≤ N
  advancing : Advancing vs
  left_le : ∀ v ∈ vs, v.left ≤ N
  size_le_left : ∀ v ∈ vs, w.size ≤ v.left

/-- Besides, only routines of `R` have been entered at the current token, and none at the end. -/
structure Fresh (N : Nat) (R : List Routine) (w : Window) (vs : List Visit) : Prop
    extends Sane N w vs where
  here : ∀ v ∈ vs, v.left = w.size → 0 < w.size ∧ v.routine ∈ R

theorem Sane.moved (h : Sane N w vs) (hu : w.Leads u) : Sane N u vs where
  eof := hu.eof ▸ h.eof
  size_le := Nat.le_trans hu.size_le h.size_le
  advancing := h.advancing
  left_le := h.left_le
  size_le_left v hv := Nat.le_trans hu.size_le (h.size_le_left v hv)

theorem Sane.advance (h : Sane N w vs) (hw : 0 < w.size) : Fresh N [] w.advance vs where
  toSane := h.moved (.advance w)
  here v hv hleft := by
    have hle := h.size_le_left v hv
    have hsize := w.size_advance
    omega

theorem Fresh.mono {S : List Routine} (h : Fresh N R w vs) (hRS : R ⊆ S) : Fresh N S w vs where
  toSane := h.toSane
  here v hv hleft := (h.here v hv hleft).imp_right (hRS ·)

theorem Fresh.record (h : Fresh N R w vs) (e : SyntaxError) : Fresh N R (w.record e) vs where
  toSane := h.moved (.record e w)
  here := h.here

theorem Fresh.enter {r : Routine} (h : Fresh N R w vs) (hr : r ∉ R) :
    Sane N w (vs ++ [⟨r, w.size⟩]) where
  eof := h.eof
  size_le := h.size_le
  advancing := by
    refine List.pairwise_append.2 ⟨h.advancing, List.pairwise_singleton _ _, fun v hv x hx => ?_⟩
    obtain rfl := List.mem_singleton.1 hx
    have hle := h.size_le_left v hv
    -- an earlier visit was one of another routine here, or of any routine further in front
    rcases Nat.eq_or_lt_of_le hle with heq | hlt
    · obtain ⟨hpos, hmem⟩ := h.here v hv heq.symm
      exact ⟨heq ▸ hpos, hle, fun hsame : v.routine = r => absurd (hsame ▸ hmem) hr⟩
    · exact ⟨Nat.zero_lt_of_lt hlt, hle, fun _ => hlt⟩
  left_le := by
    simpa [or_imp, forall_and] using ⟨h.left_le, h.size_le⟩
  size_le_left := by
    simpa [or_imp, forall_and] using h.size_le_left

theorem Fresh.entered {r : Routine} (h : Fresh N R w vs) (hr : r ∉ R) (hw : 0 < w.size) :
    Fresh N (r :: R) w (vs ++ [⟨r, w.size⟩]) where
  toSane := h.enter hr
  here v hv hleft := by
    rcases List.mem_append.1 hv with hv | hv
    · exact (h.here v hv hleft).imp_right (List.mem_cons_of_mem r)
    · obtain rfl := List.mem_singleton.1 hv
      exact ⟨hw, List.mem_cons_self⟩

/-- Each token is skipped at most once. -/
theorem Fresh.synchronize {ts : List Token} {e : Token} {es : List SyntaxError}
    (h : Fresh N R ⟨ts, e, es⟩ vs) (hR : .skipping ∉ R) :
    Sane N ⟨Window.restOfStatement ts, e, es⟩ (vs ++ skips ts) := by
  induction ts generalizing R vs with
  | nil => simpa [skips, Window.restOfStatement] using h.toSane
  | cons t ts ih =>
    rw [Window.restOfStatement, skips]
    split
    · simpa using h.toSane
    · have hnext := (h.enter hR).advance (Nat.zero_lt_succ _)
      have hrest := ih hnext (by simp)
      rwa [List.append_assoc] at hrest

/-! ## Steps -/

/-- However the step ends, the visits advance. -/
def Orderly (N : Nat) (x : Visiting α) (w : Window) (vs : List Visit) : Prop :=
  x.Meets (w, vs) fun _ t => Sane N t.1 t.2

namespace Orderly

open Run (beside)

variable {x : Visiting α} {f : α → Visiting β}

theorem exhausted : Orderly N (Run.exhausted : Visiting α) w vs := by
  rintro r t ⟨⟩

theorem pure {a : α} (h : Sane N w vs) : Orderly N (Pure.pure a) w vs := by
  rintro r t hr
  cases hr
  exact h

theorem bind (hx : Orderly N x w vs) (hf : ∀ a u us, Sane N u us → Orderly N (f a) u us) :
    Orderly N (x >>= f) w vs := by
  rintro r t hr
  rcases Run.bind_ends hr with ⟨e, he, -⟩ | ⟨a, ⟨u, us⟩, ha, hu⟩
  · exact hx _ _ he
  · exact hf a u us (hx _ _ ha) r t hu

theorem bind_pure {g : α → β} (hx : Orderly N x w vs) :
    Orderly N (x >>= fun a => (Pure.pure (g a) : Visiting β)) w vs :=
  hx.bind fun _ _ _ h => .pure h

theorem attempt (hx : Orderly N x w vs) : Orderly N x.attempt w vs := by
  rintro r t hr
  rw [Run.attempt_apply] at hr
  obtain ⟨⟨r', t'⟩, hx', h⟩ := Option.map_eq_some_iff.1 hr
  cases h
  exact hx _ _ hx'

theorem beside {y : Parser α} (h : Sane N w vs) (hy : ∀ r u, y w = some (r, u) → w.Leads u) :
    Orderly N (beside y) w vs := by
  rintro r t hr
  obtain ⟨⟨r', u⟩, hu, h'⟩ := Option.map_eq_some_iff.1 hr
  cases h'
  exact h.moved (hy _ _ hu)

theorem fail (h : Sane N w vs) : Orderly N (Run.beside (Parser.fail : Parser α)) w vs := by
  refine .beside h fun r u hr => ?_
  cases hr
  exact .refl w

theorem of_eq {u : Window} {us : List Visit} {y : Visiting α} (hy : Orderly N y u us)
    (h : x (w, vs) = y (u, us)) : Orderly N x w vs := fun r t hr => hy r t (h ▸ hr)

theorem visit_bind {r : Routine} {f : Unit → Visiting β}
    (h : Orderly N (f ()) w (vs ++ [⟨r, w.size⟩])) : Orderly N (visit r >>= f) w vs := h

theorem current_bind {f : Token → Visiting β} (h : Orderly N (f w.current) w vs) :
    Orderly N (Run.beside Parser.current >>= f) w vs := h

theorem next_bind {f : Token → Visiting β} (h : Orderly N (f w.next) w vs) :
    Orderly N (Run.beside Parser.next >>= f) w vs := h

theorem advance_bind {f : Unit → Visiting β} (h : Orderly N (f ()) w.advance vs) :
    Orderly N (Run.beside Parser.advance >>= f) w vs := h

theorem advanced (h : Orderly N x w.advance vs) : Orderly N (Visiting.advanced x) w vs := h

theorem record_bind {e : SyntaxError} {f : Unit → Visiting β}
    (h : Orderly N (f ()) (w.record e) vs) :
    Orderly N (Run.beside (Parser.record e) >>= f) w vs := h

theorem expect_bind {k : TokenKind} {f : Unit → Visiting β} (hw : Sane N w vs)
    (h : w.next.kind = k → Orderly N (f ()) w.advance vs) :
    Orderly N (Run.beside (Parser.expect k) >>= f) w vs := by
  by_cases hk : w.next.kind = k
  · exact (h hk).of_eq (Run.bind_ok (Run.beside_eq (Parser.expect_eq hk) vs))
  · rintro r t hr
    rw [Run.bind_error (Run.beside_eq (Parser.expect_ne hk) vs)] at hr
    cases hr
    exact hw.moved (.record _ w)

theorem accept_bind {k : TokenKind} {f : Bool → Visiting β}
    (yes : w.next.kind = k → Orderly N (f true) w.advance vs) (no : Orderly N (f false) w vs) :
    Orderly N (Run.beside (Parser.accept k) >>= f) w vs := by
  by_cases hk : w.next.kind = k
  · exact (yes hk).of_eq (Run.bind_ok (Run.beside_eq (Parser.accept_eq hk) vs))
  · exact no.of_eq (Run.bind_ok (Run.beside_eq (Parser.accept_ne hk) vs))

theorem skip_pure {k : TokenKind} {a : β} (h : Sane N w vs) :
    Orderly N (Run.beside (Parser.skip k) >>= fun _ => (Pure.pure a : Visiting β)) w vs := by
  by_cases hk : w.next.kind = k
  · exact of_eq (.pure (h.moved (.advance w)))
      (Run.bind_ok (Run.beside_eq (Parser.skip_eq hk) vs))
  · exact of_eq (.pure h) (Run.bind_ok (Run.beside_eq (Parser.skip_ne hk) vs))

theorem require_bind {k : TokenKind} {f : Unit → Visiting β} (hw : Fresh N R w vs)
    (hR : .skipping ∉ R) (h : w.next.kind = k → Orderly N (f ()) w.advance vs) :
    Orderly N (require k >>= f) w vs := by
  by_cases hk : w.next.kind = k
  · refine (h hk).of_eq (Run.bind_ok ?_)
    rw [require, Run.bind_ok (Run.beside_eq (Parser.next_apply w) vs), if_pos hk]
    rfl
  · rintro r t hr
    have hfails : require k (w, vs) = some (.error (),
        (w.record (.unexpected k w.next.kind w.next.line)).synchronize, vs ++ skips w.tokens) := by
      rw [require, Run.bind_ok (Run.beside_eq (Parser.next_apply w) vs), if_neg hk]
      rfl
    rw [Run.bind_error hfails] at hr
    cases hr
    exact (hw.record _).synchronize hR

end Orderly

/-! ## Lists -/

section Lists

variable {closing : TokenKind}

theorem moreItems_orderly {item : Visiting α} (h : Sane N w vs)
    (hitem : ∀ u us, Sane N u us → 0 < u.size → Orderly N item u us) :
    Orderly N (moreItems item n) w vs := by
  induction n generalizing w vs with
  | zero => exact .exhausted
  | succ n ih =>
    refine .accept_bind (fun hc => .visit_bind ?_) (.pure h)
    have hsize := Window.size_of_next h.eof (by simp [hc])
    have hadvance := w.size_advance
    have hnext := (h.advance (by omega)).enter (r := .item) (by simp)
    refine (hitem _ _ hnext (by omega)).bind fun a u us hu => ?_
    exact (ih hu).bind_pure

theorem items_orderly {item : Visiting α} (h : Sane N w vs) (hw : 0 < w.size)
    (hitem : ∀ u us, Sane N u us → 0 < u.size → Orderly N item u us) :
    Orderly N (items closing item n) w vs := by
  refine .accept_bind (fun _ => .pure (h.moved (.advance w))) ?_
  refine (hitem w vs h hw).bind fun a u us hu => ?_
  refine (moreItems_orderly hu hitem).bind fun as v ws hv => ?_
  exact .expect_bind hv fun _ => .pure (hv.moved (.advance v))

theorem pairs_orderly {item : Visiting α} (h : Sane N w vs)
    (hw : w.next.kind ≠ .rightBrace → 0 < w.size ∧ Fresh N R w vs) (hR : .pair ∉ R)
    (hitem : ∀ u us, Fresh N [] u us → Orderly N item u us) :
    Orderly N (pairs item n) w vs := by
  induction n generalizing R w vs with
  | zero => exact .exhausted
  | succ n ih =>
    refine .next_bind ?_
    split
    · exact .pure h
    rename_i hne
    obtain ⟨hpos, hfresh⟩ := hw hne
    have hentered := hfresh.enter hR
    refine .visit_bind (.advance_bind ?_)
    refine (hitem _ _ (hentered.advance hpos)).bind fun key u us hu => ?_
    refine .expect_bind hu fun hc => .advance_bind ?_
    have hsize := Window.size_of_next hu.eof (by simp [hc])
    have hadvance := u.size_advance
    have hcolon : Sane N u.advance us := hu.moved (.advance u)
    refine (hitem _ _ (hcolon.advance (by omega))).bind fun value v ws hv => .next_bind ?_
    dsimp only
    split
    · refine .expect_bind hv fun hc => ?_
      have hsize := Window.size_of_next hv.eof (by simp [hc])
      have hadvance := v.size_advance
      have hnext := hv.advance (by omega)
      exact (ih hnext.toSane (fun _ => ⟨by omega, hnext⟩) (by simp)).bind_pure
    · -- without a comma nothing is passed, but then no pair follows either
      rename_i hend
      exact (ih (R := []) hv (fun h => absurd h hend) (by simp)).bind_pure

theorem untilKind_orderly {item : Visiting α} (h : Sane N w vs)
    (hw : 0 < w.size → Fresh N [] w vs)
    (hitem : ∀ u us, Fresh N [] u us → 0 < u.size → Orderly N item u us) :
    Orderly N (untilKind closing item n) w vs := by
  induction n generalizing w vs with
  | zero => exact .exhausted
  | succ n ih =>
    refine .current_bind ?_
    split
    · exact .pure h
    rename_i hopen
    have hpos := Window.size_of_current h.eof fun hk => hopen (.inr hk)
    refine (hitem w vs (hw hpos) hpos).attempt.bind fun r u us hu => .advance_bind ?_
    -- whatever the item did, the token on which it ended is passed, unless none is left
    have hadvance := u.size_advance
    have hrest : Orderly N (untilKind closing item n) u.advance us :=
      ih (hu.moved (.advance u)) fun hsize => hu.advance (by omega)
    cases r <;> exact hrest.bind_pure

theorem block_orderly {item : Visiting Statement} (h : Sane N w vs)
    (hitem : ∀ u us, Fresh N [] u us → 0 < u.size → Orderly N item u us) :
    Orderly N (block item n) w vs := by
  refine .expect_bind h fun hc => .visit_bind (.current_bind (.advance_bind ?_))
  have hsize := Window.size_of_next h.eof (by simp [hc])
  have hadvance := w.size_advance
  have hbrace := (h.advance (by omega)).enter (r := .block) (by simp)
  have hinside := hbrace.advance (by omega)
  refine (untilKind_orderly hinside.toSane (fun _ => hinside) hitem).bind fun ss u us hu => ?_
  refine .current_bind ?_
  dsimp only
  split
  · exact .record_bind (.pure (hu.moved (.record _ u)))
  · exact .pure hu

theorem alternative_orderly {branch : Visiting Block} (h : Sane N w vs)
    (hbranch : ∀ u us, Sane N u us → Orderly N branch u us) :
    Orderly N (alternative branch) w vs :=
  .accept_bind (fun _ => (hbranch _ _ (h.moved (.advance w))).bind_pure) (.pure h)

theorem returnValue_orderly {value : Visiting Expr} (h : Sane N w vs) (hw : 0 < w.size)
    (hvalue : ∀ u us, Fresh N [] u us → Orderly N value u us) :
    Orderly N (returnValue value) w vs := by
  refine .accept_bind (fun _ => .pure (h.moved (.advance w))) (.next_bind ?_)
  split
  · exact .pure h
  · exact (Orderly.advanced (hvalue _ _ (h.advance hw))).bind fun e u us hu => .skip_pure hu

end Lists

/-! ## The grammar -/

/-- What each routine has to find in order for the visits to advance. -/
structure Progresses (N n : Nat) : Prop where
  expression : ∀ p w vs, Fresh N [.statement] w vs → Orderly N (expression n p) w vs
  extend : ∀ p left w vs, Sane N w vs → Orderly N (extend n p left) w vs
  suffix : ∀ left w vs, Fresh N [] w vs → 0 < w.size → Orderly N (suffix n left) w vs
  operand : ∀ w vs, Sane N w vs → (0 < w.size → Fresh N [.expression, .statement] w vs) →
    Orderly N (operand n) w vs
  statement : ∀ w vs, Fresh N [] w vs → 0 < w.size → Orderly N (statement n) w vs

section Grammar

variable (ih : Progresses N n)

include ih

theorem Progresses.value (h : Fresh N [] w vs) (p : Precedence) :
    Orderly N (Visiting.expression n p) w vs :=
  ih.expression p w vs (h.mono (List.nil_subset _))

theorem Progresses.item (h : Sane N w vs) (hw : 0 < w.size) (p : Precedence) :
    Orderly N (advanced (Visiting.expression n p)) w vs :=
  .advanced (ih.value (h.advance hw) p)

theorem Progresses.body (h : Sane N w vs) : Orderly N (block (Visiting.statement n) n) w vs :=
  block_orderly h ih.statement

theorem progresses_expression (h : Fresh N [.statement] w vs) (p : Precedence) :
    Orderly N (expression (n + 1) p) w vs := by
  rw [expression]
  refine .visit_bind ?_
  have hentered := ih.operand w _ (h.enter (by simp)) fun hw => h.entered (by simp) hw
  exact hentered.bind fun left u us hu => ih.extend p left u us hu

theorem progresses_extend (h : Sane N w vs) (p : Precedence) (left : Expr) :
    Orderly N (extend (n + 1) p left) w vs := by
  rw [extend]
  refine .next_bind ?_
  split
  · rename_i hp
    have hne : w.next.kind ≠ .eof := by
      intro hk
      rw [hk] at hp
      exact Nat.not_lt_zero _ hp.2
    have hsize := Window.size_of_next h.eof hne
    have hadvance := w.size_advance
    refine .advance_bind ?_
    refine (ih.suffix left _ vs (h.advance (by omega)) (by omega)).bind fun whole u us hu => ?_
    exact ih.extend p whole u us hu
  · exact .pure h

theorem progresses_suffix (h : Fresh N [] w vs) (hw : 0 < w.size) (left : Expr) :
    Orderly N (suffix (n + 1) left) w vs := by
  have hentered : Sane N w (vs ++ [⟨.suffix, w.size⟩]) := h.enter (by simp)
  have item (u : Window) (us : List Visit) (hu : Sane N u us) (hsize : 0 < u.size) :=
    ih.item hu hsize .lowest
  rw [suffix]
  refine .visit_bind (.current_bind ?_)
  split
  · exact (items_orderly hentered hw item).bind_pure
  · refine (item w _ hentered hw).bind fun e u us hu => ?_
    exact .expect_bind hu fun _ => .pure (hu.moved (.advance u))
  · split
    · exact (ih.item hentered hw _).bind_pure
    · exact .fail hentered

theorem progresses_conditional (h : Sane N w vs) (hk : w.current.kind = .ifWord) :
    Orderly N (operand (n + 1)) w vs := by
  rw [operand]
  refine .current_bind ?_
  simp only [hk]
  refine .expect_bind h fun ho => ?_
  have hsize := Window.size_of_next h.eof (by simp [ho])
  have hadvance := w.size_advance
  refine (ih.item (h.moved (.advance w)) (by omega) .lowest).bind fun c u us hu => ?_
  refine .expect_bind hu fun _ => ?_
  refine (ih.body (hu.moved (.advance u))).bind fun b v ws hv => ?_
  exact (alternative_orderly hv fun x xs hx => ih.body hx).bind_pure

theorem progresses_function (h : Sane N w vs) (hk : w.current.kind = .function) :
    Orderly N (operand (n + 1)) w vs := by
  have hparameter (u : Window) (us : List Visit) (hu : Sane N u us) (_ : 0 < u.size) :
      Orderly N (Run.beside Parser.parameter) u us :=
    .beside hu fun r v hr => (Parser.parameter_obeys hu.eof r v hr).1
  rw [operand]
  refine .current_bind ?_
  simp only [hk]
  refine .expect_bind h fun ho => ?_
  have hsize := Window.size_of_next h.eof (by simp [ho])
  have hadvance := w.size_advance
  refine (items_orderly (h.moved (.advance w)) (by omega) hparameter).bind fun ps u us hu => ?_
  exact (ih.body hu).bind_pure

theorem progresses_operand (h : Sane N w vs)
    (hw : 0 < w.size → Fresh N [.expression, .statement] w vs) :
    Orderly N (operand (n + 1)) w vs := by
  have item (u : Window) (us : List Visit) (hu : Sane N u us) (hsize : 0 < u.size) :=
    ih.item hu hsize .lowest
  have hpos : w.current.kind ≠ .eof → 0 < w.size := Window.size_of_current h.eof
  cases hk : w.current.kind with
  | ifWord => exact progresses_conditional ih h hk
  | function => exact progresses_function ih h hk
  | leftBrace =>
    rw [operand]
    refine .current_bind ?_
    simp only [hk]
    have hsize : 0 < w.size := hpos (by simp [hk])
    refine (pairs_orderly h (fun _ => ⟨hsize, hw hsize⟩) (by simp) fun u us hu =>
      ih.value hu .lowest).bind fun ps u us hu => ?_
    exact .expect_bind hu fun _ => .pure (hu.moved (.advance u))
  | int =>
    rw [operand]
    refine .current_bind ?_
    simp only [hk]
    exact .beside h fun r u hr => (Parser.integer_obeys h.eof hk r u hr).1
  | leftParen =>
    rw [operand]
    refine .current_bind ?_
    simp only [hk]
    refine (item w vs h (hpos (by simp [hk]))).bind fun e u us hu => ?_
    exact .expect_bind hu fun _ => .pure (hu.moved (.advance u))
  | leftBracket =>
    rw [operand]
    refine .current_bind ?_
    simp only [hk]
    exact (items_orderly h (hpos (by simp [hk])) item).bind_pure
  | _ =>
    rw [operand]
    refine .current_bind ?_
    simp only [hk]
    first
      | exact .pure h
      | exact (ih.item h (hpos (by simp [hk])) .prefixed).bind_pure
      | exact .record_bind (.fail (h.moved (.record _ w)))

theorem progresses_statement (h : Fresh N [] w vs) (hw : 0 < w.size) :
    Orderly N (statement (n + 1)) w vs := by
  have hentered : Fresh N [.statement] w (vs ++ [⟨.statement, w.size⟩]) := h.entered (by simp) hw
  rw [statement]
  refine .visit_bind (.current_bind ?_)
  split
  · refine .require_bind hentered (by simp) fun hname => .current_bind ?_
    have hsize := Window.size_of_next h.eof (by simp [hname])
    have hadvance := w.size_advance
    have hnamed := hentered.advance hw
    refine .require_bind hnamed (by simp) fun hassign => ?_
    have hsize' := Window.size_of_next hnamed.eof (by simp [hassign])
    have hadvance' := w.advance.size_advance
    have hassigned : Sane N w.advance.advance _ := hnamed.moved (.advance _)
    exact (ih.item hassigned (by omega) .lowest).bind fun e u us hu => .skip_pure hu
  · refine (returnValue_orderly hentered.toSane hw fun u us hu => ?_).bind_pure
    exact ih.value hu .lowest
  · exact (ih.expression .lowest w _ hentered).bind fun e u us hu => .skip_pure hu

end Grammar

theorem progresses (N n : Nat) : Progresses N n := by
  induction n with
  | zero =>
    exact ⟨fun _ _ _ _ => .exhausted, fun _ _ _ _ _ => .exhausted, fun _ _ _ _ _ => .exhausted,
      fun _ _ _ _ => .exhausted, fun _ _ _ _ => .exhausted⟩
  | succ n ih =>
    exact {
      expression := fun p w vs h => progresses_expression ih h p
      extend := fun p left w vs h => progresses_extend ih h p left
      suffix := fun left w vs h hw => progresses_suffix ih h hw left
      operand := fun w vs h hw => progresses_operand ih h hw
      statement := fun w vs h hw => progresses_statement ih h hw }

end Visiting

/-! ## How many visits there are -/

namespace Routine

def all : List Routine := [statement, expression, suffix, block, item, pair, skipping]

theorem mem_all (r : Routine) : r ∈ all := by cases r <;> decide

end Routine

namespace Advancing

variable {vs : List Visit}

theorem nodup (h : Advancing vs) : vs.Nodup := by
  refine h.imp ?_
  rintro a _ ⟨-, -, hless⟩ rfl
  exact Nat.lt_irrefl _ (hless rfl)

/-- Each routine is entered at most once at each token, and once at the end. -/
theorem length_le {N : Nat} (h : Advancing vs) (hN : ∀ v ∈ vs, v.left ≤ N) :
    vs.length ≤ 7 * (N + 1) := by
  let possible := (List.range (N + 1)).flatMap fun left => Routine.all.map (Visit.mk · left)
  have hsubset : vs ⊆ possible := by
    intro v hv
    refine List.mem_flatMap.2 ⟨v.left, List.mem_range.2 (Nat.lt_succ_of_le (hN v hv)), ?_⟩
    exact List.mem_map.2 ⟨v.routine, v.routine.mem_all, rfl⟩
  have hlength : possible.length = 7 * (N + 1) := by
    simp [possible, List.length_flatMap, Routine.all, Nat.mul_comm]
  rw [← hlength]
  exact (h.nodup.subperm hsubset).length_le

end Advancing

/-! ## More ends of input -/

namespace Parser

/-- The second window is the first one with its end of input any number of times behind it. -/
def Padded (w w' : Window) : Prop :=
  w.eof.kind = .eof ∧ ∃ k, w' = { w with tokens := w.tokens ++ List.replicate k w.eof }

theorem restOfStatement_padded {e : Token} (he : e.kind = .eof) (ts : List Token) (k : Nat) :
    Window.restOfStatement (ts ++ List.replicate k e) =
      Window.restOfStatement ts ++ List.replicate k e := by
  induction ts with
  | nil => cases k <;> simp [Window.restOfStatement, List.replicate_succ, he]
  | cons t ts ih =>
    have hnext : (ts ++ List.replicate k e).head?.map (·.kind) = some .rightBrace ↔
        ts.head?.map (·.kind) = some .rightBrace := by
      cases ts with
      | nil => cases k <;> simp [List.replicate_succ, he]
      | cons u us => rfl
    simp only [List.cons_append, Window.restOfStatement, hnext]
    split
    · rfl
    · exact ih

theorem indistinct_padded : Window.Indistinct Padded where
  current := by
    rintro ⟨ts, e, es⟩ _ ⟨-, k, rfl⟩
    cases ts <;> cases k <;> rfl
  next := by
    rintro ⟨ts, e, es⟩ _ ⟨-, k, rfl⟩
    rcases ts with _ | ⟨t, _ | ⟨u, ts⟩⟩ <;> rcases k with _ | _ | k <;> rfl
  advance := by
    rintro ⟨ts, e, es⟩ _ ⟨he, k, rfl⟩
    cases ts with
    | nil => exact ⟨he, k - 1, by simp [Window.advance]⟩
    | cons t ts => exact ⟨he, k, rfl⟩
  record := by
    rintro w _ e ⟨he, k, rfl⟩
    exact ⟨he, k, rfl⟩
  synchronize := by
    rintro w _ ⟨he, k, rfl⟩
    exact ⟨he, k, by simp [Window.synchronize, restOfStatement_padded he]⟩

end Parser

theorem Parser.Padded.ofTokens (ts : List Token) (k : Nat) : Padded (Window.ofTokens ts)
    (Window.ofTokens (ts ++ List.replicate k (Window.ofTokens ts).eof)) := by
  refine ⟨rfl, k, ?_⟩
  cases k with
  | zero => simp
  | succ k => simp [Window.ofTokens, List.getLast?_append, List.getLast?_replicate, Token.eof]

open Treewalk.Parser

theorem parseTokens_padded (ts : List Token) (k : Nat) :
    parseTokens (ts ++ List.replicate k (Window.ofTokens ts).eof) = parseTokens ts := by
  obtain ⟨⟨r, u⟩, hr⟩ := program_answers (w := Window.ofTokens ts) rfl
  obtain ⟨p, rfl⟩ := untilKind_ok hr
  have hparse : parseTokens ts = ⟨p, u.errors⟩ := parseTokens_of_ends hr
  obtain ⟨u', hread, -, _, hu'⟩ := ReadsProgram.of_alike indistinct_padded (.ofTokens ts k) hr
  have herrors : u'.errors = u.errors := by rw [hu']
  rw [hparse, parseTokens_of_readsProgram hread, herrors]

/-- Whatever the tokens are, a depth of `2 * ts.length + 3` suffices to parse them, and any larger
one gives the same. On the way each routine, and each round of a loop, comes with fewer tokens left
than the last time it was entered, and none comes after one that found no tokens left; so there are
at most seven for each token and seven at the end. More ends of input on the line of the last token
change nothing. -/
theorem parsing_terminates (ts : List Token) :
    (∀ spare : Nat, ∃ p u visits,
      Visiting.program (2 * ts.length + 3 + spare) (Window.ofTokens ts) =
        some (.ok p, u, visits) ∧
      untilKind .eof (statement (2 * ts.length + 3 + spare)) (2 * ts.length + 3 + spare)
        (Window.ofTokens ts) = some (.ok p, u) ∧
      parseTokens ts = ⟨p, u.errors⟩ ∧
      Advancing visits ∧ (∀ v ∈ visits, v.left ≤ ts.length) ∧
      visits.length ≤ 7 * (ts.length + 1)) ∧
    ∀ k : Nat, parseTokens (ts ++ List.replicate k (.eof ((ts.getLast?.map (·.line)).getD 1))) =
      parseTokens ts := by
  refine ⟨fun spare => ?_, parseTokens_padded ts⟩
  let w := Window.ofTokens ts
  have hempty : Visiting.Fresh ts.length [] w [] :=
    ⟨⟨rfl, Nat.le_refl _, .nil, by simp, by simp⟩, by simp⟩
  generalize hdepth : 2 * ts.length + 3 + spare = depth
  obtain ⟨⟨r, u⟩, hr⟩ := statements_answer (w := w) (n := depth) rfl
    (by rw [← hdepth]; exact Nat.le_add_right _ _)
  obtain ⟨p, rfl⟩ := untilKind_ok hr
  -- The recorded run is the same run, and its visits advance.
  have herased := Visiting.program_erases depth w
  rw [hr] at herased
  obtain ⟨⟨_, _, visits⟩, hvisits, hsame⟩ := Option.map_eq_some_iff.1 herased
  cases hsame
  have hsane := Visiting.untilKind_orderly hempty.toSane (fun _ => hempty)
    (Visiting.progresses _ depth).statement _ _ hvisits
  exact ⟨p, u, visits, hvisits, hr, parseTokens_of_readsProgram (.of_answer hr),
    hsane.advancing, hsane.left_le, hsane.advancing.length_le hsane.left_le⟩

-- A brace that is not closed, with one name behind it.
example : (Visiting.program 7 (Window.ofTokens [⟨.leftBrace, "\x7b", 1⟩, ⟨.ident, "a", 1⟩])).map
    (·.2.2) = some [⟨.statement, 2⟩, ⟨.expression, 2⟩, ⟨.pair, 2⟩, ⟨.expression, 1⟩] := rfl

end Treewalk
