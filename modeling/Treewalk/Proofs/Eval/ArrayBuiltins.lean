import Mathlib.Algebra.Group.Int.Defs
import Mathlib.Algebra.Group.Nat.Defs
import Mathlib.Data.List.Basic
import Treewalk.Eval.Evaluate

/-!
# Arrays by built-in functions and by index

What the built-in functions make of an array is what indexing finds in it, at both its ends and
behind them. Each of these functions is given the arguments that it reads.
-/

namespace Treewalk

/-! ## Positions -/

section

variable {xs : List Object} {i : Int64}

theorem elementAt_of_toInt {k : Nat} (h : i.toInt = k) : elementAt xs i = xs[k]?.getD .null := by
  have hpositive : ¬i < 0 := by
    rw [Int64.lt_iff_toInt_lt, h]
    exact Int.not_lt.2 (Int.natCast_nonneg k)
  rw [elementAt, if_neg hpositive, h, Int.toNat_natCast]

theorem elementAt_of_neg (h : i.toInt < 0) : elementAt xs i = .null :=
  if_pos (Int64.lt_iff_toInt_lt.2 h)

theorem elementAt_outside (h : i.toInt < 0 ∨ xs.length ≤ i.toInt) : elementAt xs i = .null := by
  rcases h with h | h
  · exact elementAt_of_neg h
  · obtain ⟨k, hk⟩ := Int.eq_ofNat_of_zero_le (Int.le_trans (Int.natCast_nonneg _) h)
    rw [hk] at h
    rw [elementAt_of_toInt hk, List.getElem?_eq_none (Int.ofNat_le.1 h), Option.getD_none]

theorem elementAt_inside {k : Nat} (h : i.toInt = k) (hk : k < xs.length) :
    elementAt xs i = xs[k] := by
  rw [elementAt_of_toInt h, List.getElem?_eq_getElem hk, Option.getD_some]

theorem elementAt_zero : elementAt xs 0 = xs.head?.getD .null := by
  rw [elementAt_of_toInt (k := 0) rfl, List.head?_eq_getElem?]

theorem toInt_add_one (h : i.toInt < 2 ^ 63 - 1) : (i + 1).toInt = i.toInt + 1 := by
  have hone : (1 : Int64).toInt = 1 := rfl
  have hle := i.le_toInt
  rw [Int64.toInt_add, hone]
  exact Int.bmod_eq_of_le (by omega) (by omega)

theorem toInt_sub_one (h : -2 ^ 63 < i.toInt) : (i - 1).toInt = i.toInt - 1 := by
  have hone : (1 : Int64).toInt = 1 := rfl
  have hlt := i.toInt_lt
  rw [Int64.toInt_sub, hone]
  exact Int.bmod_eq_of_le (by omega) (by omega)

/-- The position after one in an array, also after the greatest one, which the least one follows. -/
theorem elementAt_cons_succ {x : Object} (hsize : xs.length < 2 ^ 63) (hi : 0 ≤ i) :
    elementAt (x :: xs) (i + 1) = elementAt xs i := by
  obtain ⟨k, hk⟩ := Int.eq_ofNat_of_zero_le (Int64.le_iff_toInt_le.1 hi)
  by_cases hlast : i.toInt < 2 ^ 63 - 1
  · have hsucc : (i + 1).toInt = (k + 1 : Nat) := by
      rw [toInt_add_one hlast, hk]
      rfl
    rw [elementAt_of_toInt hsucc, elementAt_of_toInt hk, List.getElem?_cons_succ]
  · have hgreatest : i.toInt = 2 ^ 63 - 1 := by
      have := i.toInt_lt
      omega
    have hleast : (i + 1).toInt < 0 := by
      rw [Int64.toInt_inj.1 (hgreatest.trans (by rfl : _ = Int64.maxValue.toInt))]
      decide
    rw [elementAt_of_neg hleast, elementAt_outside (.inr (by omega))]

theorem elementAt_snoc {x : Object} {size : Int64} (hsize : size.toInt = xs.length) :
    elementAt (xs ++ [x]) i = if i = size then x else elementAt xs i := by
  split
  · rename_i heq
    rw [elementAt_of_toInt (heq ▸ hsize), List.getElem?_concat_length, Option.getD_some]
  · rename_i hne
    have hposition : i.toInt ≠ xs.length := fun h => hne (Int64.toInt_inj.1 (h.trans hsize.symm))
    by_cases hneg : i.toInt < 0
    · rw [elementAt_of_neg hneg, elementAt_of_neg hneg]
    obtain ⟨k, hk⟩ := Int.eq_ofNat_of_zero_le (Int.not_lt.1 hneg)
    rw [elementAt_of_toInt hk, elementAt_of_toInt hk]
    by_cases hlt : k < xs.length
    · rw [List.getElem?_append_left hlt]
    · have hbehind : xs.length + 1 ≤ k := by omega
      rw [List.getElem?_eq_none (Nat.not_lt.1 hlt), List.getElem?_eq_none (by simpa using hbehind)]

end

/-! ## Calls of built-in functions -/

/-- A count of arguments that is right. -/
def Arity.Admits : Arity → Nat → Prop
  | exactly n, count => count = n
  | any, _ => True

namespace Builtin

/-- What a built-in function does with its arguments, reading them by their positions; `none` if it
reads one that is missing. -/
def body : Builtin → List Object → Option (Except RuntimeError Object)
  | len, arguments => arguments[0]?.map length
  | first, arguments =>
    arguments[0]?.map fun o => (elements first o).map fun xs => xs.head?.getD .null
  | last, arguments =>
    arguments[0]?.map fun o => (elements last o).map fun xs => xs.getLast?.getD .null
  | rest, arguments =>
    arguments[0]?.map fun o => (elements rest o).map fun xs =>
      if xs.isEmpty then .null else .array xs.tail
  | push, arguments => do
    match elements push (← arguments[0]?) with
    | .ok xs => return .ok (.array (xs ++ [← arguments[1]?]))
    | .error e => return .error e
  | puts, _ => some (.ok .null)

variable {b : Builtin} {arguments : List Object}

theorem body_of_admits (h : b.arity.Admits arguments.length) :
    b.body arguments = some (b.result arguments) := by
  cases b with
  | puts => rfl
  | push =>
    obtain ⟨o, x, rfl⟩ := List.length_eq_two.1 h
    cases o <;> rfl
  | rest =>
    obtain ⟨o, rfl⟩ := List.length_eq_one_iff.1 h
    cases o with
    | array xs => cases xs <;> rfl
    | _ => rfl
  | _ =>
    obtain ⟨o, rfl⟩ := List.length_eq_one_iff.1 h
    rfl

theorem result_of_not_admits (h : ¬b.arity.Admits arguments.length) :
    ∃ want, b.arity = .exactly want ∧ b.result arguments = .error (.builtinArity b want) := by
  rcases arguments with _ | ⟨o, _ | ⟨x, _ | ⟨y, rest⟩⟩⟩
  all_goals
    cases b <;> first
      | exact ⟨_, rfl, rfl⟩
      | exact absurd rfl h
      | exact absurd trivial h

theorem printed_eq_empty (h : b ≠ puts) : b.printed arguments = "" := by
  cases b <;> first | rfl | exact absurd rfl h

theorem apply_eq (n : Nat) (m : Machine) : Eval.apply (n + 1) (.builtin b) arguments m =
    some (.ok (.ofExcept (b.result arguments)), m.print (b.printed arguments)) := rfl

/-- A call of the function gives the object, and does nothing else. -/
def Gives (b : Builtin) (arguments : List Object) (o : Object) : Prop :=
  ∀ n m, Eval.apply (n + 1) (.builtin b) arguments m = some (.ok o, m)

theorem Gives.of_result {o : Object} (h : b.result arguments = .ok o) (hb : b ≠ puts) :
    b.Gives arguments o := by
  intro n m
  rw [apply_eq, h, printed_eq_empty hb, Machine.print, String.append_empty]
  rfl

theorem apply_reads_arguments (b : Builtin) (arguments : List Object) (n : Nat) (m : Machine) :
    (b.arity.Admits arguments.length → ∃ r, b.body arguments = some r ∧
      Eval.apply (n + 1) (.builtin b) arguments m =
        some (.ok (.ofExcept r), m.print (b.printed arguments))) ∧
    (¬b.arity.Admits arguments.length → ∃ want, b.arity = .exactly want ∧
      Eval.apply (n + 1) (.builtin b) arguments m =
        some (.ok (.error (.builtinArity b want)), m)) := by
  refine ⟨fun h => ⟨_, body_of_admits h, rfl⟩, fun h => ?_⟩
  obtain ⟨want, hwant, hresult⟩ := result_of_not_admits h
  have hb : b ≠ puts := by
    rintro rfl
    cases hwant
  refine ⟨want, hwant, ?_⟩
  rw [apply_eq, hresult, printed_eq_empty hb, Machine.print, String.append_empty]
  rfl

end Builtin

/-! ## What they make of arrays -/

section

open Builtin

variable {xs : List Object} {size : Int64}

theorem len_gives (h : xs.length < 2 ^ 63) :
    ∃ size : Int64, size.toInt = xs.length ∧ len.Gives [.array xs] (.integer size) :=
  ⟨.ofNat xs.length, Int64.toInt_ofNat_of_lt h, .of_result rfl (by decide)⟩

theorem first_gives :
    ∃ o, first.Gives [.array xs] o ∧ (Object.array xs).index (.integer 0) = .ok o :=
  ⟨xs.head?.getD .null, .of_result rfl (by decide), congrArg Except.ok elementAt_zero⟩

theorem last_gives (hsize : size.toInt = xs.length) : ∃ o, last.Gives [.array xs] o ∧
    (InfixOp.sub.apply (.integer size) (.integer 1)).bind (Object.array xs).index = .ok o := by
  refine ⟨xs.getLast?.getD .null, .of_result rfl (by decide), ?_⟩
  have hlast : (size - 1).toInt = xs.length - 1 := by rw [toInt_sub_one (by omega), hsize]
  have helement : elementAt xs (size - 1) = xs.getLast?.getD .null := by
    rcases List.eq_nil_or_concat xs with rfl | ⟨init, x, rfl⟩
    -- the last position of no elements is -1
    · exact elementAt_of_neg (by simp [hlast])
    · rw [elementAt_of_toInt (k := init.length) (by simp [hlast])]
      simp
  exact congrArg Except.ok helement

theorem rest_gives (hsize : size.toInt = xs.length) : ∃ o, rest.Gives [.array xs] o ∧
    (o = .null ↔ xs = []) ∧ (xs ≠ [] → len.Gives [o] (.integer (size - 1)) ∧
      ∀ i : Int64, 0 ≤ i → o.index (.integer i) =
        (InfixOp.add.apply (.integer i) (.integer 1)).bind (Object.array xs).index) := by
  cases xs with
  | nil => exact ⟨.null, .of_result rfl (by decide), by simp, fun h => absurd rfl h⟩
  | cons x xs =>
    have hlt := size.toInt_lt
    rw [List.length_cons] at hsize
    have htail : Int64.ofNat xs.length = size - 1 := by
      refine Int64.toInt_inj.1 ?_
      rw [Int64.toInt_ofNat_of_lt (by omega), toInt_sub_one (by omega)]
      omega
    refine ⟨.array xs, .of_result rfl (by decide), by simp, fun _ => ⟨?_, fun i hi => ?_⟩⟩
    · exact .of_result (congrArg (fun n => Except.ok (Object.integer n)) htail) (by decide)
    · exact congrArg Except.ok (elementAt_cons_succ (by omega) hi).symm

theorem push_gives (hsize : size.toInt = xs.length) (x : Object) :
    ∃ o, push.Gives [.array xs, x] o ∧ len.Gives [o] (.integer (size + 1)) ∧
      ∀ i : Int64, o.index (.integer i) =
        if i = size then .ok x else (Object.array xs).index (.integer i) := by
  have hlength : Int64.ofNat (xs ++ [x]).length = size + 1 := by
    have hlt := size.toInt_lt
    have hxs : Int64.ofNat xs.length = size := by
      rw [← Int64.toInt_inj, Int64.toInt_ofNat_of_lt (by omega), hsize]
    rw [List.length_append, Int64.ofNat_add, hxs]
    rfl
  refine ⟨.array (xs ++ [x]), .of_result rfl (by decide), ?_, fun i => ?_⟩
  · exact .of_result (congrArg (fun n => Except.ok (Object.integer n)) hlength) (by decide)
  · show Except.ok (elementAt (xs ++ [x]) i) = _
    rw [elementAt_snoc hsize]
    split <;> rfl

end

/-- Arrays of a length that 64 bits hold. An index gives the element at its position, and null
outside; `first` and `last` give what the first and the last position hold, `rest` null for no
elements and else the array in which every position holds what the next one did, and `push` the
array that holds the new element behind the others, all with the sums and differences of 64 bits.
No call of a built-in function reads an argument that it was not given. -/
theorem array_builtins_agree :
    (∀ (xs : List Object) (x : Object), xs.length < 2 ^ 63 →
      ∃ size : Int64, size.toInt = xs.length ∧ Builtin.len.Gives [.array xs] (.integer size) ∧
        (∀ (i : Int64) (k : Nat) (hk : k < xs.length), i.toInt = k →
          (Object.array xs).index (.integer i) = .ok xs[k]) ∧
        (∀ i : Int64, i.toInt < 0 ∨ xs.length ≤ i.toInt →
          (Object.array xs).index (.integer i) = .ok .null) ∧
        (∃ o, Builtin.first.Gives [.array xs] o ∧
          (Object.array xs).index (.integer 0) = .ok o) ∧
        (∃ o, Builtin.last.Gives [.array xs] o ∧
          (InfixOp.sub.apply (.integer size) (.integer 1)).bind (Object.array xs).index = .ok o) ∧
        (∃ o, Builtin.rest.Gives [.array xs] o ∧ (o = .null ↔ xs = []) ∧
          (xs ≠ [] → Builtin.len.Gives [o] (.integer (size - 1)) ∧
            ∀ i : Int64, 0 ≤ i → o.index (.integer i) =
              (InfixOp.add.apply (.integer i) (.integer 1)).bind (Object.array xs).index)) ∧
        ∃ o, Builtin.push.Gives [.array xs, x] o ∧
          Builtin.len.Gives [o] (.integer (size + 1)) ∧
          ∀ i : Int64, o.index (.integer i) =
            if i = size then .ok x else (Object.array xs).index (.integer i)) ∧
    ∀ (b : Builtin) (arguments : List Object) (n : Nat) (m : Machine),
      (b.arity.Admits arguments.length → ∃ r, b.body arguments = some r ∧
        Eval.apply (n + 1) (.builtin b) arguments m =
          some (.ok (.ofExcept r), m.print (b.printed arguments))) ∧
      (¬b.arity.Admits arguments.length → ∃ want, b.arity = .exactly want ∧
        Eval.apply (n + 1) (.builtin b) arguments m =
          some (.ok (.error (.builtinArity b want)), m)) := by
  refine ⟨fun xs x h => ?_, Builtin.apply_reads_arguments⟩
  obtain ⟨size, hsize, hlen⟩ := len_gives h
  exact ⟨size, hsize, hlen, fun i k hk hi => congrArg Except.ok (elementAt_inside hi hk),
    fun i hi => congrArg Except.ok (elementAt_outside hi), first_gives, last_gives hsize,
    rest_gives hsize, push_gives hsize x⟩

/-- An array of two, at its ends and at the greatest index; no elements; and `push` with one
argument. -/
theorem array_builtins_agree_ends :
    let a : Object := .array [.string "a", .boolean true]
    (∃ o, Builtin.rest.Gives [a] o ∧ Builtin.len.Gives [o] (.integer 1) ∧
      o.index (.integer 0) = .ok (.boolean true) ∧
      o.index (.integer Int64.maxValue) = .ok .null) ∧
    Builtin.last.Gives [.array []] .null ∧ Builtin.rest.Gives [.array []] .null ∧
    (∃ r, Builtin.puts.body [] = some r) ∧
    ∀ m, Eval.apply 1 (.builtin .push) [a] m = some (.ok (.error (.builtinArity .push 2)), m) := by
  intro a
  obtain ⟨arrays, calls⟩ := array_builtins_agree
  obtain ⟨two, htwo, -, -, -, -, -, ⟨tail, hrest, -, htail⟩, -⟩ :=
    arrays [.string "a", .boolean true] .null (by decide)
  obtain ⟨none, hnone, -, -, -, -, ⟨o, hlast, hbefore⟩, ⟨o', hrest', hnull, -⟩, -⟩ :=
    arrays [] .null (by decide)
  obtain rfl : two = 2 := Int64.toInt_inj.1 htwo
  obtain rfl : none = 0 := Int64.toInt_inj.1 hnone
  obtain ⟨hlen, hindex⟩ := htail (by simp)
  cases hbefore
  obtain rfl := hnull.2 rfl
  refine ⟨⟨tail, hrest, hlen, hindex 0 (by decide), hindex _ (by decide)⟩, hlast, hrest', ?_, ?_⟩
  · obtain ⟨r, hr, -⟩ := (calls .puts [] 0 .empty).1 trivial
    exact ⟨r, hr⟩
  · intro m
    obtain ⟨want, hwant, happly⟩ := (calls .push [a] 0 m).2 (by decide : ¬1 = 2)
    cases hwant
    exact happly

end Treewalk
