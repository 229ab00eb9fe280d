import Treewalk.Eval.Operators

/-!
# Laws of the operators on two objects

The pairs of objects that an operator takes, its error for every other pair, and what this makes of
the comparisons.
-/

namespace Treewalk

/-! ## Errors of operators -/

namespace RuntimeError

/-- The same complaint about the operands in the other order. -/
def swapped : RuntimeError → RuntimeError
  | unknownInfix l op r => unknownInfix r op l
  | typeMismatch l op r => typeMismatch r op l
  | e => e

/-- The same complaint by another operator. -/
def about (op : InfixOp) : RuntimeError → RuntimeError
  | unknownInfix l _ r => unknownInfix l op r
  | typeMismatch l _ r => typeMismatch l op r
  | e => e

end RuntimeError

namespace InfixOp

/-- The operands that an operator takes: integers, where it does not divide by zero; strings, to put
them together; booleans and null, to compare them. -/
inductive Takes : InfixOp → Object → Object → Prop
  | integers (op : InfixOp) (a b : Int64) : ¬(op = div ∧ b = 0) →
    Takes op (.integer a) (.integer b)
  | strings (s t : String) : Takes add (.string s) (.string t)
  | comparison (op : InfixOp) (l r : Object) : op ∈ [equal, notEqual] →
    l.kind ∈ [.boolean, .null] → r.kind ∈ [.boolean, .null] → Takes op l r

/-- The error for operands of these kinds that the operator does not take. -/
def refusal (op : InfixOp) (l r : Kind) : RuntimeError :=
  if l = .integer ∧ r = .integer then .divisionByZero
  else if l ≠ r then .typeMismatch l op r
  else .unknownInfix l op r

theorem swapped_refusal (op : InfixOp) (l r : Kind) :
    (op.refusal r l).swapped = op.refusal l r := by
  unfold refusal
  by_cases hint : l = .integer ∧ r = .integer
  · rw [if_pos hint, if_pos hint.symm]
    rfl
  · rw [if_neg hint, if_neg fun h => hint h.symm]
    by_cases hkinds : l = r
    · subst hkinds
      simp [RuntimeError.swapped]
    · rw [if_pos hkinds, if_pos (Ne.symm hkinds)]
      rfl

theorem about_refusal (op op' : InfixOp) (l r : Kind) :
    (op.refusal l r).about op' = op'.refusal l r := by
  unfold refusal
  repeat' split
  all_goals rfl

/-! ## Which operands are taken -/

theorem comparable_iff (o : Object) : comparable o = true ↔ o.kind ∈ [.boolean, .null] := by
  cases o <;> simp [comparable, Object.kind]

theorem apply_of_comparable (op : InfixOp) {l : Object} (hl : comparable l = true) (r : Object) :
    op.apply l r = op.onOthers l r := by
  cases l <;> first | rfl | cases hl

theorem equal_of_comparable {l r : Object} (hl : l.kind ∈ [.boolean, .null])
    (hr : r.kind ∈ [.boolean, .null]) : equal.apply l r = .ok (.boolean (l = r)) := by
  rw [← comparable_iff] at hl hr
  rw [apply_of_comparable equal hl]
  exact if_pos ⟨rfl, hl, hr⟩

theorem notEqual_of_comparable {l r : Object} (hl : l.kind ∈ [.boolean, .null])
    (hr : r.kind ∈ [.boolean, .null]) : notEqual.apply l r = .ok (.boolean (l ≠ r)) := by
  rw [← comparable_iff] at hl hr
  rw [apply_of_comparable notEqual hl, onOthers, if_neg (by simp)]
  exact if_pos ⟨rfl, hl, hr⟩

theorem onIntegers_ok {op : InfixOp} {a b : Int64} (h : ¬(op = div ∧ b = 0)) :
    ∃ o, op.onIntegers a b = .ok o ∧ o.kind ≠ .error := by
  cases op
  case div =>
    have hb : b ≠ 0 := fun hb => h ⟨rfl, hb⟩
    exact ⟨.integer (a / b), if_neg hb, nofun⟩
  all_goals exact ⟨_, rfl, nofun⟩

theorem onOthers_refusal {op : InfixOp} {l r : Object} (h : ¬ op.Takes l r)
    (hint : ¬(l.kind = .integer ∧ r.kind = .integer)) :
    op.onOthers l r = .error (op.refusal l.kind r.kind) := by
  have hcompared (hop : op ∈ [equal, notEqual]) : ¬(comparable l ∧ comparable r) := fun hc =>
    h (.comparison op l r hop ((comparable_iff l).1 hc.1) ((comparable_iff r).1 hc.2))
  unfold onOthers refusal
  rw [if_neg fun hc => hcompared (by simp [hc.1]) hc.2,
    if_neg fun hc => hcompared (by simp [hc.1]) hc.2, if_neg hint]
  split <;> rfl

theorem Takes.ok {op : InfixOp} {l r : Object} (h : op.Takes l r) :
    ∃ o, op.apply l r = .ok o ∧ o.kind ≠ .error := by
  cases h with
  | integers _ a b hdiv => exact onIntegers_ok hdiv
  | strings s t => exact ⟨.string (s ++ t), rfl, nofun⟩
  | comparison _ _ _ hop hl hr =>
    simp only [List.mem_cons, List.not_mem_nil, or_false] at hop
    rcases hop with rfl | rfl
    · exact ⟨_, equal_of_comparable hl hr, nofun⟩
    · exact ⟨_, notEqual_of_comparable hl hr, nofun⟩

theorem apply_refusal {op : InfixOp} {l r : Object} (h : ¬ op.Takes l r) :
    op.apply l r = .error (op.refusal l.kind r.kind) := by
  unfold apply
  split
  · rename_i a b
    have hzero : op = div ∧ b = 0 := Decidable.not_not.1 fun hdiv => h (.integers op a b hdiv)
    obtain ⟨rfl, rfl⟩ := hzero
    rfl
  · rename_i s t
    cases op
    case add => exact absurd (.strings s t) h
    all_goals rfl
  · rename_i hint _
    refine onOthers_refusal h fun hkinds => ?_
    cases l <;> cases hkinds.1
    cases r <;> cases hkinds.2
    exact hint _ _ rfl rfl

/-! ## Comparisons -/

theorem equal_apply {l r : Object} (h : equal.Takes l r) :
    equal.apply l r = .ok (.boolean (l = r)) := by
  cases h with
  | integers _ a b _ => simp [apply, onIntegers]
  | comparison _ _ _ _ hl hr => exact equal_of_comparable hl hr

theorem notEqual_apply {l r : Object} (h : notEqual.Takes l r) :
    notEqual.apply l r = .ok (.boolean (l ≠ r)) := by
  cases h with
  | integers _ a b _ => simp [apply, onIntegers]
  | comparison _ _ _ _ hl hr => exact notEqual_of_comparable hl hr

/-- The kinds of objects that are compared with each other. -/
def comparedKinds : List (List Kind) := [[.integer], [.boolean, .null]]

theorem equal_takes_iff {l r : Object} :
    equal.Takes l r ↔ ∃ kinds ∈ comparedKinds, l.kind ∈ kinds ∧ r.kind ∈ kinds := by
  constructor
  · intro h
    cases h with
    | integers _ a b _ => exact ⟨[.integer], by simp [comparedKinds], by simp [Object.kind]⟩
    | comparison _ _ _ _ hl hr => exact ⟨_, by simp [comparedKinds], hl, hr⟩
  · rintro ⟨kinds, hkinds, hl, hr⟩
    simp only [comparedKinds, List.mem_cons, List.not_mem_nil, or_false] at hkinds
    rcases hkinds with rfl | rfl
    · cases l <;> cases List.mem_singleton.1 hl
      cases r <;> cases List.mem_singleton.1 hr
      exact .integers equal _ _ nofun
    · exact .comparison equal l r (by simp) hl hr

theorem Takes.compares {op op' : InfixOp} {l r : Object} (h : op.Takes l r)
    (hop : op ∈ [equal, notEqual]) (hop' : op' ∈ [equal, notEqual]) : op'.Takes l r := by
  cases h with
  | integers _ a b _ =>
    refine .integers op' a b fun hdiv => ?_
    simp [hdiv.1] at hop'
  | strings s t => simp at hop
  | comparison _ _ _ _ hl hr => exact .comparison op' l r hop' hl hr

theorem notEqual_takes_iff {l r : Object} : notEqual.Takes l r ↔ equal.Takes l r :=
  ⟨fun h => h.compares (by simp) (by simp), fun h => h.compares (by simp) (by simp)⟩

theorem equal_takes_symm {l r : Object} (h : equal.Takes l r) : equal.Takes r l := by
  obtain ⟨kinds, hkinds, hl, hr⟩ := equal_takes_iff.1 h
  exact equal_takes_iff.2 ⟨kinds, hkinds, hr, hl⟩

theorem equal_symm (l r : Object) :
    equal.apply l r = (equal.apply r l).mapError .swapped := by
  by_cases h : equal.Takes l r
  · have hsame : decide (l = r) = decide (r = l) := decide_eq_decide.2 eq_comm
    rw [equal_apply h, equal_apply (equal_takes_symm h), hsame]
    rfl
  · rw [apply_refusal h, apply_refusal fun h' => h (equal_takes_symm h'), ← swapped_refusal]
    rfl

theorem notEqual_eq (l r : Object) : notEqual.apply l r =
    ((equal.apply l r).bind PrefixOp.not.apply).mapError (.about notEqual) := by
  by_cases h : equal.Takes l r
  · rw [equal_apply h, notEqual_apply (notEqual_takes_iff.2 h)]
    show Except.ok (Object.boolean (l ≠ r)) = .ok (.boolean !decide (l = r))
    rw [decide_not]
  · rw [apply_refusal h, apply_refusal fun h' => h (notEqual_takes_iff.1 h'),
      ← about_refusal equal]
    rfl

theorem greater_eq (l r : Object) :
    greater.apply l r = (less.apply r l).mapError fun e => e.swapped.about greater := by
  by_cases h : less.Takes r l
  · cases h with
    | integers _ a b _ => rfl
    | comparison _ _ _ hop _ _ => simp at hop
  · have h' : ¬ greater.Takes l r := by
      intro hg
      cases hg with
      | integers _ a b _ => exact h (.integers less b a nofun)
      | comparison _ _ _ hop _ _ => simp at hop
    rw [apply_refusal h, apply_refusal h', ← about_refusal less, ← swapped_refusal]
    rfl

theorem equal_equivalence {kinds : List Kind} (hkinds : kinds ∈ comparedKinds) :
    Equivalence fun l r : {o : Object // o.kind ∈ kinds} =>
      equal.apply l.1 r.1 = .ok (.boolean true) := by
  have htrue (l r : {o : Object // o.kind ∈ kinds}) :
      equal.apply l.1 r.1 = .ok (.boolean true) ↔ l.1 = r.1 := by
    rw [equal_apply (equal_takes_iff.2 ⟨kinds, hkinds, l.2, r.2⟩)]
    simp
  simp only [htrue]
  exact ⟨fun _ => rfl, Eq.symm, Eq.trans⟩

/-- An operator has a result just for the operands that it takes, and else the error for their
kinds. So `l == r` is `r == l`, `l != r` is `!(l == r)` and `l > r` is `r < l`, where an error names
the kinds in the order of the operands and the operator that is applied; and what `==` compares, it
divides into classes. -/
theorem operators_lawful :
    (∀ (op : InfixOp) (l r : Object),
      (op.Takes l r ↔ ∃ o, op.apply l r = .ok o ∧ o.kind ≠ .error) ∧
      (¬ op.Takes l r → op.apply l r = .error (op.refusal l.kind r.kind))) ∧
    (∀ l r, equal.apply l r = (equal.apply r l).mapError .swapped) ∧
    (∀ l r, notEqual.apply l r =
      ((equal.apply l r).bind PrefixOp.not.apply).mapError (.about notEqual)) ∧
    (∀ l r, greater.apply l r = (less.apply r l).mapError fun e => e.swapped.about greater) ∧
    (∀ l r, equal.Takes l r ↔ ∃ kinds ∈ comparedKinds, l.kind ∈ kinds ∧ r.kind ∈ kinds) ∧
    ∀ kinds ∈ comparedKinds, Equivalence fun l r : {o : Object // o.kind ∈ kinds} =>
      equal.apply l.1 r.1 = .ok (.boolean true) := by
  refine ⟨fun op l r => ⟨⟨Takes.ok, fun ⟨o, ho, _⟩ => ?_⟩, apply_refusal⟩, equal_symm, notEqual_eq,
    greater_eq, fun _ _ => equal_takes_iff, fun _ => equal_equivalence⟩
  refine Classical.byContradiction fun h => ?_
  rw [apply_refusal h] at ho
  cases ho

theorem operators_lawful_mixed :
    ¬ less.Takes (.integer 1) (.boolean true) ∧
      less.apply (.integer 1) (.boolean true) = .error (.typeMismatch .integer less .boolean) ∧
    ¬ div.Takes (.integer 1) (.integer 0) ∧
      div.apply (.integer 1) (.integer 0) = .error .divisionByZero ∧
    [Kind.boolean, .null] ∈ comparedKinds ∧
      Equivalence fun l r : {o : Object // o.kind ∈ [Kind.boolean, .null]} =>
        equal.apply l.1 r.1 = .ok (.boolean true) := by
  have hmixed : ¬ less.Takes (.integer 1) (.boolean true) := by
    rintro ⟨⟩
    simp_all
  have hzero : ¬ div.Takes (.integer 1) (.integer 0) := by
    rintro ⟨⟩
    all_goals simp_all
  have hkinds : [Kind.boolean, .null] ∈ comparedKinds := by simp [comparedKinds]
  obtain ⟨laws, -, -, -, -, hclasses⟩ := operators_lawful
  exact ⟨hmixed, (laws less _ _).2 hmixed, hzero, (laws div _ _).2 hzero, hkinds,
    hclasses _ hkinds⟩

end InfixOp

end Treewalk
