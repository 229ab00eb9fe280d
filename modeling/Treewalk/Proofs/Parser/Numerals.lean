import Mathlib.Data.List.Induction
import Mathlib.Data.Nat.Digits.Defs
import Treewalk.Host.Interpret
import Treewalk.Proofs.Parser.Segments
import Treewalk.Proofs.Token.Layout

/-!
# Numerals

A numeral is read as the integer that it denotes, however many digits it has, if 64 bits hold that
integer, and else reported.
-/

namespace Treewalk

/-! ## What numerals denote -/

/-- The value of decimal digits, the highest first. -/
def valueOfDigits (digits : List Char) : Nat :=
  Nat.ofDigits 10 (digits.reverse.map fun d => d.toNat - '0'.toNat)

/-- Digits, at least one, with at most one sign before them, denote an integer of any size. -/
inductive Denotes : List Char → Int → Prop
  | unsigned {ds : List Char} : ds ≠ [] → (∀ d ∈ ds, d.isDigit) → Denotes ds (valueOfDigits ds)
  | plus {ds : List Char} : ds ≠ [] → (∀ d ∈ ds, d.isDigit) →
    Denotes ('+' :: ds) (valueOfDigits ds)
  | minus {ds : List Char} : ds ≠ [] → (∀ d ∈ ds, d.isDigit) →
    Denotes ('-' :: ds) (-valueOfDigits ds)

theorem decimalValue_eq (ds : List Char) : decimalValue ds = valueOfDigits ds := by
  induction ds using List.reverseRecOn with
  | nil => rfl
  | append_singleton ds d ih =>
    rw [decimalValue] at ih ⊢
    rw [List.foldl_append, List.foldl_cons, List.foldl_nil, ih, valueOfDigits, valueOfDigits,
      List.reverse_append, List.reverse_singleton, List.singleton_append, List.map_cons,
      Nat.ofDigits_cons]
    omega

theorem readDigits_eq_some_iff {ds : List Char} {n : Nat} :
    readDigits ds = some n ↔ ds ≠ [] ∧ (∀ d ∈ ds, d.isDigit) ∧ n = valueOfDigits ds := by
  unfold readDigits
  split
  · rename_i h
    rw [List.all_eq_true] at h
    rw [decimalValue_eq, Option.some_inj]
    exact ⟨fun hn => ⟨h.1, h.2, hn.symm⟩, fun hread => hread.2.2.symm⟩
  · rename_i h
    rw [List.all_eq_true] at h
    simp only [reduceCtorEq, false_iff]
    exact fun hread => h ⟨hread.1, hread.2.1⟩

theorem readSigned_eq_some_iff {cs : List Char} {z : Int} :
    readSigned cs = some z ↔ Denotes cs z := by
  constructor
  · intro h
    unfold readSigned at h
    split at h
    all_goals
      obtain ⟨_, hz, rfl⟩ := Option.map_eq_some_iff.1 h
      obtain ⟨n, hn, hcast⟩ := Option.bind_eq_some_iff.1 hz
      cases hcast
      obtain ⟨hne, hdigits, rfl⟩ := readDigits_eq_some_iff.1 hn
    · exact .minus hne hdigits
    · exact .plus hne hdigits
    · exact .unsigned hne hdigits
  · intro h
    cases h with
    | unsigned hne hdigits =>
      have hread := readDigits_eq_some_iff.2 ⟨hne, hdigits, rfl⟩
      unfold readSigned
      split
      · exact absurd (hdigits '-' List.mem_cons_self) (by decide)
      · exact absurd (hdigits '+' List.mem_cons_self) (by decide)
      · rw [hread]
        rfl
    | plus hne hdigits =>
      rw [readSigned, readDigits_eq_some_iff.2 ⟨hne, hdigits, rfl⟩]
      rfl
    | minus hne hdigits =>
      rw [readSigned, readDigits_eq_some_iff.2 ⟨hne, hdigits, rfl⟩]
      rfl

/-! ## What 64 bits hold -/

theorem fitsInt64_iff {z : Int} : fitsInt64 z = true ↔ -2 ^ 63 ≤ z ∧ z < 2 ^ 63 := by
  have hmax : Int64.maxValue.toInt = 2 ^ 63 - 1 := by decide
  have hmin : Int64.minValue.toInt = -2 ^ 63 := by decide
  rw [fitsInt64, hmax, hmin, Bool.and_eq_true, decide_eq_true_eq, decide_eq_true_eq]
  omega

theorem exists_toInt_iff {z : Int} : (∃ v : Int64, v.toInt = z) ↔ -2 ^ 63 ≤ z ∧ z < 2 ^ 63 := by
  constructor
  · rintro ⟨v, rfl⟩
    exact ⟨v.le_toInt, v.toInt_lt⟩
  · rintro ⟨hle, hlt⟩
    exact ⟨.ofInt z, Int64.toInt_ofInt_of_le hle hlt⟩

theorem readInt64_eq_some_iff {s : String} {v : Int64} :
    readInt64 s = some v ↔ Denotes s.toList v.toInt := by
  rw [readInt64, ← readSigned_eq_some_iff]
  cases hz : readSigned s.toList with
  | none => simp
  | some z =>
    dsimp only
    rw [Option.some_inj]
    split
    · rename_i hfits
      obtain ⟨w, rfl⟩ := exists_toInt_iff.2 (fitsInt64_iff.1 hfits)
      rw [Int64.ofInt_toInt, Option.some_inj, Int64.toInt_inj]
    · rename_i hfits
      simp only [reduceCtorEq, false_iff]
      rintro rfl
      exact hfits (fitsInt64_iff.2 (exists_toInt_iff.1 ⟨v, rfl⟩))

theorem readInt64_eq_none_iff {s : String} :
    readInt64 s = none ↔ ¬∃ z, Denotes s.toList z ∧ -2 ^ 63 ≤ z ∧ z < 2 ^ 63 := by
  rw [Option.eq_none_iff_forall_ne_some]
  constructor
  · rintro h ⟨z, hz, hrange⟩
    obtain ⟨v, rfl⟩ := exists_toInt_iff.2 hrange
    exact h v (readInt64_eq_some_iff.2 hz)
  · intro h v hv
    exact h ⟨v.toInt, readInt64_eq_some_iff.1 hv, exists_toInt_iff.1 ⟨v, rfl⟩⟩

/-! ## Integer tokens -/

namespace Parser

variable {w : Window}

theorem operand_of_int (h : w.current.kind = .int) (n : Nat) :
    operand (n + 1) w = match readInt64 w.current.literal with
      | some v => some (.ok (.integer w.current v), w)
      | none => some (.error (),
        w.record (.invalidInteger w.current.literal w.current.line)) := by
  rw [operand, Run.bind_ok (current_apply w)]
  simp only [h]
  rw [integer, Run.bind_ok (current_apply w)]
  cases readInt64 w.current.literal <;> rfl

theorem statement_of_unreadable (h : w.current.kind = .int)
    (hread : readInt64 w.current.literal = none) (n : Nat) :
    statement (n + 3) w =
      some (.error (), w.record (.invalidInteger w.current.literal w.current.line)) := by
  have hoperand := operand_of_int h n
  rw [hread] at hoperand
  have hexpression : expression (n + 2) .lowest w =
      some (.error (), w.record (.invalidInteger w.current.literal w.current.line)) := by
    rw [expression, Run.bind_error hoperand]
  rw [statement, Run.bind_ok (current_apply w)]
  simp only [h]
  rw [Run.bind_error hexpression]

theorem untilKind_of_eof {α : Type} {item : Parser α} (h : w.current.kind = .eof) (n : Nat) :
    untilKind .eof item (n + 1) w = some (.ok [], w) := by
  rw [untilKind, Run.bind_ok (current_apply w), if_pos (.inl h)]
  rfl

end Parser

section

variable {t : Token} {rest : List Token}

theorem parseTokens_of_unreadable (ht : t.kind = .int) (hread : readInt64 t.literal = none)
    (hrest : Ends rest) :
    parseTokens (t :: rest) = ⟨[], [.invalidInteger t.literal t.line]⟩ := by
  let w := Window.ofTokens (t :: rest)
  let u := w.record (.invalidInteger t.literal t.line)
  have hw : w.current.kind = .int := ht
  have hlost : Parser.statement w.depth w = some (.error (), u) :=
    Parser.statement_of_unreadable hw hread _
  have hend : u.advance.current.kind = .eof := by
    cases rest with
    | nil => rfl
    | cons e rest => exact hrest e rfl
  have hopen : ¬(w.current.kind = .eof ∨ w.current.kind = .eof) := by simp [hw]
  have hloop : Parser.untilKind .eof (Parser.statement w.depth) w.depth w =
      some (.ok [], u.advance) :=
    (Parser.untilKind_lost hopen hlost).trans (Parser.untilKind_of_eof hend _)
  rw [parseTokens_of_ends hloop]
  rfl

theorem parseTokens_of_readable {v : Int64} (ht : t.kind = .int)
    (hread : readInt64 t.literal = some v) (hrest : Ends rest) :
    parseTokens (t :: rest) = ⟨[.expression t (.integer t v)], []⟩ := by
  have hexpression : Derives (.expression 0 (.integer t v)) [t] := .integer ht hread
  have hstatement : Derives (.statements [.expression t (.integer t v)]) ([t] ++ []) :=
    .unended (.expression hexpression) rfl .nil
  have hparse := parseTokens_append_of_derives hstatement hrest
  rwa [List.append_nil, List.singleton_append] at hparse

end

theorem scan_of_digits {d : String} (hne : d ≠ "") (h : ∀ c ∈ d.toList, c.isDigit) :
    scan d = [⟨.int, d, 1⟩, .eof 1] := by
  let t : Token := ⟨.int, d, 1⟩
  have hgenuine : t.Genuine := by
    have htext : t.text = d := rfl
    rw [Token.Genuine, htext]
    cases hd : d.toList with
    | nil => exact absurd (String.toList_eq_nil_iff.1 hd) hne
    | cons c cs =>
      obtain ⟨hc, hcs⟩ := List.forall_mem_cons.1 (hd ▸ h)
      exact .int hc hcs
  have hscan : ScansTo isWordChar d [t] :=
    (ScansTo.token hgenuine (by simp [t])).weaken fun _ => isWordChar_of_isDigit
  exact hscan.scan

/-! ## Digits as a text -/

section

variable {d : String} (hne : d ≠ "") (hdigits : ∀ c ∈ d.toList, c.isDigit)

include hne hdigits

theorem denotes_digits {z : Int} : Denotes d.toList z ↔ z = valueOfDigits d.toList := by
  have hvalue : Denotes d.toList (valueOfDigits d.toList) :=
    .unsigned (fun h => hne (String.toList_eq_nil_iff.1 h)) hdigits
  rw [← readSigned_eq_some_iff] at hvalue ⊢
  rw [hvalue, Option.some_inj, eq_comm]

theorem parse_digits : parse d = parseTokens [⟨.int, d, 1⟩, .eof 1] := by
  rw [parse, scan_of_digits hne hdigits]

theorem digits_evaluate (h : valueOfDigits d.toList ≤ 2 ^ 63 - 1) : (parse d).errors = [] ∧
    ∃ v : Int64, v.toInt = valueOfDigits d.toList ∧
      ∀ n s m, interpret (n + 2) s d m = some (.ok (.integer v), m) := by
  obtain ⟨v, hv⟩ := (exists_toInt_iff (z := valueOfDigits d.toList)).2 (by omega)
  have hread : readInt64 d = some v :=
    readInt64_eq_some_iff.2 ((denotes_digits hne hdigits).2 hv)
  have hends : Ends [.eof 1] := by simp [Ends, Token.eof]
  have hparse := (parse_digits hne hdigits).trans (parseTokens_of_readable rfl hread hends)
  refine ⟨by rw [hparse], v, hv, fun n s m => ?_⟩
  rw [interpret, hparse]
  rfl

theorem digits_reported (h : 2 ^ 63 - 1 < valueOfDigits d.toList) :
    parse d = ⟨[], [.invalidInteger d 1]⟩ := by
  have hread : readInt64 d = none := by
    rw [readInt64_eq_none_iff]
    rintro ⟨z, hz, hrange⟩
    rw [denotes_digits hne hdigits] at hz
    omega
  have hends : Ends [.eof 1] := by simp [Ends, Token.eof]
  exact (parse_digits hne hdigits).trans (parseTokens_of_unreadable rfl hread hends)

end

/-! ## Any text as a numeral -/

section

variable {t : Token} (ht : t.kind = .int)

include ht

theorem accepted_iff {z : Int} : (Denotes t.literal.toList z ∧ -2 ^ 63 ≤ z ∧ z < 2 ^ 63) ↔
    ∃ v : Int64, v.toInt = z ∧ parseTokens [t] = ⟨[.expression t (.integer t v)], []⟩ ∧
      ∀ (n : Nat) (w : Window), w.current = t →
        Parser.operand (n + 1) w = some (.ok (.integer t v), w) := by
  have hends : Ends [] := by simp [Ends]
  constructor
  · rintro ⟨hz, hrange⟩
    obtain ⟨v, rfl⟩ := exists_toInt_iff.2 hrange
    have hread := readInt64_eq_some_iff.2 hz
    refine ⟨v, rfl, parseTokens_of_readable ht hread hends, ?_⟩
    rintro n w rfl
    rw [Parser.operand_of_int ht, hread]
  · rintro ⟨v, rfl, hparse, -⟩
    refine ⟨readInt64_eq_some_iff.1 ?_, exists_toInt_iff.1 ⟨v, rfl⟩⟩
    cases hread : readInt64 t.literal with
    | none => simp [parseTokens_of_unreadable ht hread hends] at hparse
    | some u => simpa [parseTokens_of_readable ht hread hends] using hparse

theorem reported_of_not_held
    (h : ¬∃ z, Denotes t.literal.toList z ∧ -2 ^ 63 ≤ z ∧ z < 2 ^ 63) :
    parseTokens [t] = ⟨[], [.invalidInteger t.literal t.line]⟩ ∧
      ∀ (n : Nat) (w : Window), w.current = t → Parser.operand (n + 1) w =
        some (.error (), w.record (.invalidInteger t.literal t.line)) := by
  have hread := readInt64_eq_none_iff.2 h
  refine ⟨parseTokens_of_unreadable ht hread (by simp [Ends]), ?_⟩
  rintro n w rfl
  rw [Parser.operand_of_int ht, hread]

end

/-- Digits, leading zeros included, are read as their value up to 2 ^ 63 - 1, and evaluate to it;
above they leave an error that carries them, and no statement. An integer token of whatever text is
accepted just if it is a numeral of an integer that 64 bits hold, as that integer, and else reported
in its place. -/
theorem numerals_read :
    (∀ d : String, d ≠ "" → (∀ c ∈ d.toList, c.isDigit) →
      (valueOfDigits d.toList ≤ 2 ^ 63 - 1 → (parse d).errors = [] ∧
        ∃ v : Int64, v.toInt = valueOfDigits d.toList ∧
          ∀ n s m, interpret (n + 2) s d m = some (.ok (.integer v), m)) ∧
      (2 ^ 63 - 1 < valueOfDigits d.toList → parse d = ⟨[], [.invalidInteger d 1]⟩)) ∧
    ∀ t : Token, t.kind = .int →
      (∀ z, (Denotes t.literal.toList z ∧ -2 ^ 63 ≤ z ∧ z < 2 ^ 63) ↔ ∃ v : Int64, v.toInt = z ∧
        parseTokens [t] = ⟨[.expression t (.integer t v)], []⟩ ∧
        ∀ (n : Nat) (w : Window), w.current = t →
          Parser.operand (n + 1) w = some (.ok (.integer t v), w)) ∧
      ((¬∃ z, Denotes t.literal.toList z ∧ -2 ^ 63 ≤ z ∧ z < 2 ^ 63) →
        parseTokens [t] = ⟨[], [.invalidInteger t.literal t.line]⟩ ∧
        ∀ (n : Nat) (w : Window), w.current = t → Parser.operand (n + 1) w =
          some (.error (), w.record (.invalidInteger t.literal t.line))) :=
  ⟨fun _ hne hdigits => ⟨digits_evaluate hne hdigits, digits_reported hne hdigits⟩,
    fun _ ht => ⟨fun _ => accepted_iff ht, reported_of_not_held ht⟩⟩

/-- The greatest integer behind zeros, the least one with its sign, and one more than 64 bits
hold. -/
theorem numerals_read_limits :
    let zeros := "0009223372036854775807"
    let least : Token := ⟨.int, "-9223372036854775808", 3⟩
    let tooMany : Token := ⟨.int, "+9223372036854775808", 4⟩
    (∀ n s m, interpret (n + 2) s zeros m =
      some (.ok (.integer 9223372036854775807), m)) ∧
    parse "9223372036854775808" = ⟨[], [.invalidInteger "9223372036854775808" 1]⟩ ∧
    parseTokens [least] = ⟨[.expression least (.integer least Int64.minValue)], []⟩ ∧
    parseTokens [tooMany] = ⟨[], [.invalidInteger "+9223372036854775808" 4]⟩ := by
  intro zeros least tooMany
  obtain ⟨texts, tokens⟩ := numerals_read
  obtain ⟨-, v, hv, hzeros⟩ := (texts zeros (by decide) (by simp [zeros])).1 (by decide +kernel)
  have hgreatest : v = 9223372036854775807 := Int64.toInt_inj.1 (hv.trans (by decide +kernel))
  have hreported := (texts "9223372036854775808" (by decide) (by simp)).2 (by decide +kernel)
  have hleast : Denotes least.literal.toList (-2 ^ 63) :=
    readSigned_eq_some_iff.1 (by decide +kernel)
  obtain ⟨u, hu, hparse, -⟩ := ((tokens least rfl).1 (-2 ^ 63)).1 ⟨hleast, by decide, by decide⟩
  have hmin : u = Int64.minValue := Int64.toInt_inj.1 (hu.trans (by decide))
  have htooMany : ¬∃ z, Denotes tooMany.literal.toList z ∧ -2 ^ 63 ≤ z ∧ z < 2 ^ 63 := by
    rintro ⟨z, hz, hrange⟩
    have hread : readSigned tooMany.literal.toList = some (2 ^ 63) := by decide +kernel
    rw [← readSigned_eq_some_iff, hread] at hz
    cases hz
    exact absurd hrange.2 (by decide)
  exact ⟨hgreatest ▸ hzeros, hreported, hmin ▸ hparse, ((tokens tooMany rfl).2 htooMany).1⟩

end Treewalk
