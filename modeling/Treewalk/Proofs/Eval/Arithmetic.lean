import Mathlib.Algebra.Group.Int.Defs
import Mathlib.Algebra.Group.Nat.Defs
import Treewalk.Eval.Evaluate

/-!
# Arithmetic

Integer literals under negation, sums, differences, products and quotients. Every step is reduced
to 64 bits; without quotients it comes to the same to reduce once, at the end.
-/

namespace Treewalk

/-- The representative modulo 2 ^ 64 that 64 bits hold: from -2 ^ 63 on and below 2 ^ 63. -/
def reduced (z : Int) : Int := (z + 2 ^ 63) % 2 ^ 64 - 2 ^ 63

theorem reduced_eq (z : Int) : reduced z = z.bmod (2 ^ 64) := by
  unfold reduced
  rw [Int.bmod_def]
  omega

theorem reduced_neg (x : Int) : reduced (-reduced x) = reduced (-x) := by
  unfold reduced
  omega

/-- What an operation gives on integers of any size. A quotient is cut toward zero, and there is
none by zero; a comparison gives no integer. -/
def InfixOp.unbounded? : InfixOp → Int → Int → Option Int
  | add, x, y => some (x + y)
  | sub, x, y => some (x - y)
  | mul, x, y => some (x * y)
  | div, x, y => if y = 0 then none else some (x.tdiv y)
  | _, _, _ => none

namespace Expr

/-- Integer literals under negation and these operations. -/
inductive ArithmeticIn (ops : List InfixOp) : Expr → Prop
  | literal (t : Token) (n : Int64) : ArithmeticIn ops (.integer t n)
  | negation (t : Token) {a : Expr} : ArithmeticIn ops a → ArithmeticIn ops (.prefixed t .negate a)
  | operation (t : Token) {op : InfixOp} {a b : Expr} : op ∈ ops → ArithmeticIn ops a →
    ArithmeticIn ops b → ArithmeticIn ops (.binary t op a b)

/-- The value of arithmetic with what each step gives taken through `f`. There is none if a divisor
is zero. -/
def valueBy (f : Int → Int) : Expr → Option Int
  | .integer _ n => some n.toInt
  | .prefixed _ .negate a => do return f (-(← a.valueBy f))
  | .binary _ op a b => do
    let x ← a.valueBy f
    let y ← b.valueBy f
    (op.unbounded? x y).map f
  | _ => none

/-- How deep arithmetic nests. -/
def height : Expr → Nat
  | .prefixed _ _ a => a.height + 1
  | .binary _ _ a b => max a.height b.height + 1
  | _ => 1

/-- Some divisor in the tree has the value zero. -/
inductive DividesByZero : Expr → Prop
  | divisor (t : Token) (a : Expr) {b : Expr} : b.valueBy reduced = some 0 →
    DividesByZero (.binary t .div a b)
  | operand (t : Token) (op : PrefixOp) {a : Expr} : DividesByZero a →
    DividesByZero (.prefixed t op a)
  | left (t : Token) (op : InfixOp) {a : Expr} (b : Expr) : DividesByZero a →
    DividesByZero (.binary t op a b)
  | right (t : Token) (op : InfixOp) (a : Expr) {b : Expr} : DividesByZero b →
    DividesByZero (.binary t op a b)

end Expr

/-! ## One operation -/

namespace InfixOp

/-- The operations of arithmetic. -/
def arithmetic : List InfixOp := [add, sub, mul, div]

theorem unbounded?_eq_none_iff {op : InfixOp} (hop : op ∈ arithmetic) {x y : Int} :
    op.unbounded? x y = none ↔ op = div ∧ y = 0 := by
  simp only [arithmetic, List.mem_cons, List.not_mem_nil, or_false] at hop
  rcases hop with rfl | rfl | rfl | rfl
  all_goals simp [unbounded?]

theorem onIntegers_of_unbounded? {op : InfixOp} {a b : Int64} {z : Int}
    (h : op.unbounded? a.toInt b.toInt = some z) :
    ∃ v : Int64, v.toInt = reduced z ∧ op.onIntegers a b = .ok (.integer v) := by
  rw [reduced_eq]
  cases op <;> simp only [unbounded?, Option.some.injEq, reduceCtorEq] at h
  case add => exact ⟨a + b, h ▸ Int64.toInt_add a b, rfl⟩
  case sub => exact ⟨a - b, h ▸ Int64.toInt_sub a b, rfl⟩
  case mul => exact ⟨a * b, h ▸ Int64.toInt_mul a b, rfl⟩
  case div =>
    split at h
    · cases h
    · rename_i hb
      have hb' : b ≠ 0 := by
        rintro rfl
        exact hb rfl
      cases h
      exact ⟨a / b, Int64.toInt_div a b, if_neg hb'⟩

theorem unbounded?_reduced {op : InfixOp} (hop : op ∈ [add, sub, mul]) (x y : Int) :
    ∃ z z', op.unbounded? x y = some z ∧ op.unbounded? (reduced x) (reduced y) = some z' ∧
      reduced z' = reduced z := by
  simp only [List.mem_cons, List.not_mem_nil, or_false] at hop
  rcases hop with rfl | rfl | rfl
  all_goals refine ⟨_, _, rfl, rfl, ?_⟩
  all_goals simp only [reduced_eq]
  · rw [Int.bmod_add_bmod, Int.add_bmod_bmod]
  · rw [Int.bmod_sub_bmod, Int.sub_bmod_bmod]
  · rw [Int.bmod_mul_bmod, Int.mul_bmod_bmod]

end InfixOp

/-! ## Trees -/

namespace Expr.ArithmeticIn

open InfixOp (arithmetic)

variable {ops : List InfixOp} {e : Expr}

theorem mono {ops' : List InfixOp} (h : e.ArithmeticIn ops) (hops : ops ⊆ ops') :
    e.ArithmeticIn ops' := by
  induction h with
  | literal t n => exact .literal t n
  | negation t _ ih => exact .negation t ih
  | operation t hop _ _ iha ihb => exact .operation t (hops hop) iha ihb

theorem reduced_once (h : e.ArithmeticIn [.add, .sub, .mul]) :
    ∃ z, e.valueBy id = some z ∧ e.valueBy reduced = some (reduced z) := by
  induction h with
  | literal t n =>
    refine ⟨n.toInt, rfl, congrArg some ?_⟩
    have hlow := n.le_toInt
    have hhigh := n.toInt_lt
    unfold reduced
    omega
  | negation t _ ih =>
    obtain ⟨z, hz, hr⟩ := ih
    refine ⟨-z, by simp [valueBy, hz], ?_⟩
    simp [valueBy, hr, reduced_neg]
  | operation t hop _ _ iha ihb =>
    obtain ⟨x, hx, hxr⟩ := iha
    obtain ⟨y, hy, hyr⟩ := ihb
    obtain ⟨z, z', hz, hz', hreduced⟩ := InfixOp.unbounded?_reduced hop x y
    refine ⟨z, by simp [valueBy, hx, hy, hz], ?_⟩
    simp [valueBy, hxr, hyr, hz', hreduced]

theorem valueBy_eq_none_iff (h : e.ArithmeticIn arithmetic) :
    e.valueBy reduced = none ↔ e.DividesByZero := by
  induction h with
  | literal t n => exact ⟨nofun, nofun⟩
  | @negation t a _ ih =>
    have hvalue : valueBy reduced (.prefixed t .negate a) = none ↔ a.valueBy reduced = none := by
      cases ha : a.valueBy reduced <;> simp [valueBy, ha]
    rw [hvalue, ih]
    constructor
    · exact .operand t .negate
    · rintro ⟨⟩
      assumption
  | @operation t op a b hop _ _ iha ihb =>
    have hvalue : valueBy reduced (.binary t op a b) = none ↔
        a.valueBy reduced = none ∨ b.valueBy reduced = none ∨
          op = .div ∧ b.valueBy reduced = some 0 := by
      cases ha : a.valueBy reduced with
      | none => simp [valueBy, ha]
      | some x =>
        cases hb : b.valueBy reduced with
        | none => simp [valueBy, ha, hb]
        | some y =>
          have hnone := InfixOp.unbounded?_eq_none_iff hop (x := x) (y := y)
          cases hz : op.unbounded? x y <;> simp_all [valueBy]
    rw [hvalue, iha, ihb]
    constructor
    · rintro (hz | hz | ⟨rfl, hz⟩)
      · exact .left t op b hz
      · exact .right t op a hz
      · exact .divisor t a hz
    · intro hz
      cases hz with
      | divisor _ _ hz => exact .inr (.inr ⟨rfl, hz⟩)
      | left _ _ _ hz => exact .inl hz
      | right _ _ _ hz => exact .inr (.inl hz)

end Expr.ArithmeticIn

/-! ## Evaluation -/

namespace Eval

/-- The run changes nothing and ends with this integer, or with the error of a division by zero if
there is none. -/
def Computes (x : Eval Object) : Option Int → Prop
  | some z => ∃ v : Int64, v.toInt = z ∧ ∀ m, x m = some (.ok (.integer v), m)
  | none => ∀ m, x m = some (.error (.error .divisionByZero), m)

theorem computes_integer (v : Int64) : Computes (return .integer v) (some v.toInt) :=
  ⟨v, rfl, fun _ => rfl⟩

theorem Computes.bind {x : Eval Object} {f : Object → Eval Object} {z : Option Int}
    {k : Int → Option Int} (hx : Computes x z)
    (hf : ∀ v : Int64, Computes (f (.integer v)) (k v.toInt)) : Computes (x >>= f) (z.bind k) := by
  cases z with
  | none => exact fun m => Run.bind_error (hx m)
  | some z =>
    obtain ⟨v, rfl, hv⟩ := hx
    have hstep : x >>= f = f (.integer v) := funext fun m => Run.bind_ok (hv m)
    rw [hstep]
    exact hf v

theorem computes_negate (v : Int64) :
    Computes (settleExcept (PrefixOp.apply .negate (.integer v))) (some (reduced (-v.toInt))) := by
  have hneg : (-v).toInt = reduced (-v.toInt) := by rw [reduced_eq, Int64.toInt_neg]
  rw [← hneg]
  exact computes_integer (-v)

theorem computes_operation {op : InfixOp} (hop : op ∈ InfixOp.arithmetic) (v w : Int64) :
    Computes (settleExcept (op.apply (.integer v) (.integer w)))
      ((op.unbounded? v.toInt w.toInt).map reduced) := by
  rw [InfixOp.apply]
  cases hz : op.unbounded? v.toInt w.toInt with
  | none =>
    obtain ⟨rfl, hw⟩ := (InfixOp.unbounded?_eq_none_iff hop).1 hz
    obtain rfl : w = 0 := Int64.toInt_inj.1 hw
    intro m
    rfl
  | some z =>
    obtain ⟨u, hu, hresult⟩ := InfixOp.onIntegers_of_unbounded? hz
    rw [hresult, Option.map_some, ← hu]
    exact computes_integer u

theorem arithmetic_computes {e : Expr} (h : e.ArithmeticIn InfixOp.arithmetic) {n : Nat}
    (hn : e.height ≤ n) (s : ScopeId) : Computes (expression n s e) (e.valueBy reduced) := by
  induction h generalizing n with
  | literal t v =>
    cases n with
    | zero => simp [Expr.height] at hn
    | succ n => exact computes_integer v
  | negation t _ ih =>
    cases n with
    | zero => simp [Expr.height] at hn
    | succ n => exact (ih (Nat.le_of_succ_le_succ hn)).bind fun v => computes_negate v
  | @operation t op a b hop _ _ iha ihb =>
    cases n with
    | zero => simp [Expr.height] at hn
    | succ n =>
      obtain ⟨ha, hb⟩ := Nat.max_le.1 (Nat.le_of_succ_le_succ hn)
      exact (iha ha).bind fun v => (ihb hb).bind fun w => computes_operation hop v w

end Eval

/-- Deep enough and on any machine, arithmetic evaluates to its value reduced at every step, or to
the error of a division by zero just if some divisor is zero. Without quotients it evaluates to its
exact value, reduced once. -/
theorem arithmetic_evaluates :
    (∀ e : Expr, e.ArithmeticIn InfixOp.arithmetic → ∀ n, e.height ≤ n → ∀ s m,
      (¬ e.DividesByZero → ∃ v : Int64, e.valueBy reduced = some v.toInt ∧
        Eval.expression n s e m = some (.ok (.integer v), m)) ∧
      (e.DividesByZero →
        Eval.expression n s e m = some (.error (.error .divisionByZero), m))) ∧
    ∀ e : Expr, e.ArithmeticIn [.add, .sub, .mul] → ∀ n, e.height ≤ n → ∀ s m,
      ∃ (z : Int) (v : Int64), e.valueBy id = some z ∧ v.toInt = reduced z ∧
        Eval.expression n s e m = some (.ok (.integer v), m) := by
  refine ⟨fun e he n hn s m => ⟨fun hz => ?_, fun hz => ?_⟩, fun e he n hn s m => ?_⟩
  · have hends := Eval.arithmetic_computes he hn s
    cases hvalue : e.valueBy reduced with
    | none => exact absurd (he.valueBy_eq_none_iff.1 hvalue) hz
    | some z =>
      rw [hvalue] at hends
      obtain ⟨v, rfl, hv⟩ := hends
      exact ⟨v, rfl, hv m⟩
  · have hends := Eval.arithmetic_computes he hn s
    rw [he.valueBy_eq_none_iff.2 hz] at hends
    exact hends m
  · obtain ⟨z, hz, hvalue⟩ := he.reduced_once
    have hmore : e.ArithmeticIn InfixOp.arithmetic := he.mono (by simp [InfixOp.arithmetic])
    have hends := Eval.arithmetic_computes hmore hn s
    rw [hvalue] at hends
    obtain ⟨v, hv, hend⟩ := hends
    exact ⟨z, v, hz, hv, hend m⟩

/-- The least integer is its own negation, also as a quotient, and a divisor of zero counts wherever
it stands. -/
theorem arithmetic_evaluates_least :
    let token : Token := ⟨.int, "", 1⟩
    let int (n : Int64) : Expr := .integer token n
    let least : Expr := .binary token .sub (.prefixed token .negate (int Int64.maxValue)) (int 1)
    let product : Expr := .binary token .mul least (.prefixed token .negate (int 1))
    let quotient : Expr := .binary token .div least (.prefixed token .negate (int 1))
    let late : Expr := .binary token .add quotient (.binary token .div product (int 0))
    let m := Machine.empty
    (quotient.ArithmeticIn InfixOp.arithmetic ∧ quotient.height = 4 ∧ ¬ quotient.DividesByZero ∧
      ∃ v : Int64, some (-2 ^ 63) = some v.toInt ∧
        Eval.expression 4 0 quotient m = some (.ok (.integer v), m)) ∧
    (late.ArithmeticIn InfixOp.arithmetic ∧ late.height = 6 ∧ late.DividesByZero ∧
      Eval.expression 6 0 late m = some (.error (.error .divisionByZero), m)) ∧
    product.ArithmeticIn [.add, .sub, .mul] ∧ product.height = 4 ∧
      ∃ (z : Int) (v : Int64), some (2 ^ 63) = some z ∧ v.toInt = reduced z ∧
        Eval.expression 4 0 product m = some (.ok (.integer v), m) := by
  intro token int least product quotient late m
  have hone {ops : List InfixOp} : (Expr.prefixed token .negate (int 1)).ArithmeticIn ops :=
    .negation token (.literal token 1)
  have hleast {ops : List InfixOp} (h : .sub ∈ ops) : least.ArithmeticIn ops :=
    .operation token h (.negation token (.literal token _)) (.literal token 1)
  have hproduct : product.ArithmeticIn [.add, .sub, .mul] :=
    .operation token (by decide) (hleast (by decide)) hone
  have hquotient : quotient.ArithmeticIn InfixOp.arithmetic :=
    .operation token (by decide) (hleast (by decide)) hone
  have hlate : late.ArithmeticIn InfixOp.arithmetic :=
    .operation token (by decide) hquotient
      (.operation token (by decide) (hproduct.mono (by decide)) (.literal token 0))
  have hvalue : quotient.valueBy reduced = some (-2 ^ 63) := by decide +kernel
  have hdefined : ¬ quotient.DividesByZero := by
    rw [← hquotient.valueBy_eq_none_iff, hvalue]
    exact Option.some_ne_none _
  have hzero : late.DividesByZero := .right token .add quotient (.divisor token product rfl)
  refine ⟨⟨hquotient, rfl, hdefined, ?_⟩, ⟨hlate, rfl, hzero, ?_⟩, hproduct, rfl, ?_⟩
  · exact hvalue ▸ (arithmetic_evaluates.1 quotient hquotient 4 (Nat.le_refl 4) 0 m).1 hdefined
  · exact (arithmetic_evaluates.1 late hlate 6 (Nat.le_refl 6) 0 m).2 hzero
  · exact arithmetic_evaluates.2 product hproduct 4 (Nat.le_refl 4) 0 m

end Treewalk
