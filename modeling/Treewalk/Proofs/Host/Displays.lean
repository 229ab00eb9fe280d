import Treewalk.Host.Interpret
import Treewalk.Proofs.Token.Layout
import Treewalk.Proofs.Value.Filing
import Treewalk.Value.Display

/-!
# Values that print as their own source

Integers, booleans, arrays and hashes of these print as text that evaluates to them again. The least
integer does not: its digits alone are no integer of 64 bits.
-/

namespace Treewalk

/-! ## Plain values -/

/-- An integer but the least one, or a boolean. -/
def Object.isScalar : Object → Bool
  | .integer n => n ≠ Int64.minValue
  | .boolean _ => true
  | _ => false

/-- Built from scalars by arrays and hashes, with scalars for hash keys. -/
inductive Object.Plain : Object → Prop
  | scalar {o : Object} : o.isScalar → Plain o
  | array {os : List Object} : (∀ o ∈ os, Plain o) → Plain (.array os)
  | hash {pairs : List (Object × Object)} : (∀ p ∈ pairs, p.1.isScalar) →
      (∀ p ∈ pairs, Plain p.2) → Plain (.ofPairs pairs)

/-! ## Numerals -/

theorem isDigit_of_mem_decimal (m : Nat) : ∀ c ∈ Nat.toDigits 10 m, c.isDigit := fun _ hc =>
  Nat.isDigit_of_mem_toDigits (by decide) (by decide) hc

theorem readDigits_repr (m : Nat) : readDigits m.repr.toList = some m := by
  have hdigits : (Nat.toDigits 10 m).all Char.isDigit :=
    List.all_eq_true.2 (isDigit_of_mem_decimal m)
  have hvalue : decimalValue (Nat.toDigits 10 m) = m := Nat.ofDigitChars_ten_toDigits
  rw [Nat.repr_eq_ofList_toDigits, String.toList_ofList, readDigits,
    if_pos ⟨Nat.toDigits_ne_nil, hdigits⟩, hvalue]

def Token.numeral (m : Nat) : Token := ⟨.int, m.repr, 1⟩

theorem Token.genuine_numeral (m : Nat) : (numeral m).Genuine := by
  have htext : (numeral m).text.toList = Nat.toDigits 10 m := by
    simp [text, numeral, Nat.repr_eq_ofList_toDigits]
  have hdigits := isDigit_of_mem_decimal m
  rw [Genuine, htext]
  cases hm : Nat.toDigits 10 m with
  | nil => exact absurd hm Nat.toDigits_ne_nil
  | cons c cs =>
    obtain ⟨hc, hcs⟩ := List.forall_mem_cons.1 (hm ▸ hdigits)
    exact .int hc hcs

theorem ScansTo.numeral (m : Nat) : ScansTo isWordChar m.repr [.numeral m] :=
  (token (Token.genuine_numeral m) (by simp [Token.numeral])).weaken fun _ => isWordChar_of_isDigit

/-! ## Evaluating literals -/

/-- Deep enough, the expression evaluates to the object and does nothing else. -/
def Expr.Yields (e : Expr) (o : Object) : Prop :=
  ∃ d, ∀ n, d ≤ n → ∀ s m, Eval.expression n s e m = some (.ok o, m)

namespace Expr.Yields

variable {t u : Token} {e : Expr} {o : Object} {es : List Expr} {os : List Object}

theorem of_succ {d : Nat}
    (h : ∀ n, d ≤ n → ∀ s m, Eval.expression (n + 1) s e m = some (.ok o, m)) : e.Yields o := by
  refine ⟨d + 1, fun n hn s m => ?_⟩
  cases n with
  | zero => exact absurd hn (Nat.not_succ_le_zero d)
  | succ n => exact h n (Nat.le_of_succ_le_succ hn) s m

theorem integer (t : Token) (n : Int64) : (Expr.integer t n).Yields (.integer n) :=
  of_succ (d := 0) fun _ _ _ _ => rfl

theorem boolean (t : Token) (b : Bool) : (Expr.boolean t b).Yields (.boolean b) :=
  of_succ (d := 0) fun _ _ _ _ => rfl

theorem negated {n : Int64} (h : e.Yields (.integer n)) :
    (Expr.prefixed t .negate e).Yields (.integer (-n)) := by
  obtain ⟨d, h⟩ := h
  refine of_succ (d := d) fun k hk s m => ?_
  rw [Eval.expression, Run.bind_ok (h k hk s m)]
  rfl

theorem all (h : List.Forall₂ Yields es os) :
    ∃ d, ∀ n, d ≤ n → ∀ s m, Eval.all (Eval.expression n s) es m = some (.ok os, m) := by
  induction h with
  | nil => exact ⟨0, fun _ _ _ _ => rfl⟩
  | cons he _ ih =>
    obtain ⟨d, he⟩ := he
    obtain ⟨d', hes⟩ := ih
    refine ⟨max d d', fun n hn s m => ?_⟩
    obtain ⟨hd, hd'⟩ := Nat.max_le.1 hn
    rw [Eval.all, Run.bind_ok (he n hd s m), Run.bind_ok (hes n hd' s m)]
    rfl

theorem array (h : List.Forall₂ Yields es os) : (Expr.array t es).Yields (.array os) := by
  obtain ⟨d, h⟩ := all h
  refine of_succ (d := d) fun n hn s m => ?_
  rw [Eval.expression, Run.bind_ok (h n hn s m)]
  rfl

theorem pairs {ps : List (Expr × Expr)} {entries : List (Entry Object)}
    (h : List.Forall₂ (fun p e => p.1.Yields e.key ∧ p.2.Yields e.value) ps entries)
    (hkeys : ∀ e ∈ entries, e.key.hashKey? = some e.hashKey) :
    ∃ d, ∀ n, d ≤ n → ∀ before, Entry.Filed (before ++ entries) → ∀ s m,
      Eval.pairs (Eval.expression n s) before ps m = some (.ok (before ++ entries), m) := by
  induction h with
  | nil => exact ⟨0, fun _ _ before _ _ _ => by rw [List.append_nil]; rfl⟩
  | @cons p e ps entries hp _ ih =>
    obtain ⟨⟨d, hk⟩, d', hv⟩ := hp
    obtain ⟨hkey, hkeys⟩ := List.forall_mem_cons.1 hkeys
    obtain ⟨d'', hps⟩ := ih hkeys
    refine ⟨max (max d d') d'', fun n hn before hfiled s m => ?_⟩
    obtain ⟨hn, hd''⟩ := Nat.max_le.1 hn
    obtain ⟨hd, hd'⟩ := Nat.max_le.1 hn
    have hlast : Entry.insert e before = before ++ [e] :=
      Entry.insert_eq_snoc fun x hx => (List.pairwise_append.1 hfiled).2.2 x hx e List.mem_cons_self
    have hrest := hps n hd'' (before ++ [e]) (by simpa using hfiled) s m
    rw [Eval.pairs, Run.bind_ok (hk n hd s m)]
    simp only [hkey]
    rw [Run.bind_ok (hv n hd' s m), hlast, hrest, List.append_assoc]
    rfl

theorem hash {ps : List (Expr × Expr)} {entries : List (Entry Object)}
    (h : List.Forall₂ (fun p e => p.1.Yields e.key ∧ p.2.Yields e.value) ps entries)
    (hkeys : ∀ e ∈ entries, e.key.hashKey? = some e.hashKey) (hfiled : Entry.Filed entries) :
    (Expr.hash t ps).Yields (.hash entries) := by
  obtain ⟨d, h⟩ := pairs h hkeys
  refine of_succ (d := d) fun n hn s m => ?_
  rw [Eval.expression, Run.bind_ok (h n hn [] hfiled s m)]
  rfl

end Expr.Yields

/-! ## Displays read back -/

/-- The tokens are those of the object's display, and spell an expression for it. -/
structure Object.ReadsBack (o : Object) (e : Expr) (ts : List Token) : Prop where
  scans : ScansTo isWordChar o.display ts
  derives : Derives (.expression 0 e) ts
  yields : e.Yields o

namespace Object.ReadsBack

theorem readInt64_repr {m : Nat} (h : m < 2 ^ 63) : readInt64 m.repr = some (.ofNat m) :=
  readInt64_of_readDigits (readDigits_repr m) h

theorem natural {n : Int64} {m : Nat} (h : n.toInt = m) :
    (Object.integer n).ReadsBack (.integer (.numeral m) n) [.numeral m] := by
  have hm : m < 2 ^ 63 := by
    have hlt := n.toInt_lt
    omega
  have hn : Int64.ofNat m = n := by
    rw [← Int64.ofInt_toInt n, h, Int64.ofInt_eq_ofNat]
  exact {
    scans := by
      rw [display, h]
      exact ScansTo.numeral m
    derives := .integer rfl (hn ▸ readInt64_repr hm)
    yields := .integer _ _ }

theorem negative {n : Int64} {m : Nat} (h : n.toInt = .negSucc m) (hmin : n ≠ Int64.minValue) :
    (Object.integer n).ReadsBack
      (.prefixed (.mark .minus) .negate (.integer (.numeral (m + 1)) (.ofNat (m + 1))))
      [.mark .minus, .numeral (m + 1)] := by
  have hm : m + 1 < 2 ^ 63 := by
    have hle := n.le_toInt
    have hne : n.toInt ≠ -2 ^ 63 := fun heq => hmin (Int64.toInt_inj.1 heq)
    omega
  -- the sign is an operator on the digits, so these have to fit without it
  have hn : -Int64.ofNat (m + 1) = n := by
    rw [← Int64.ofInt_toInt n, h, ← Int64.ofInt_eq_ofNat, ← Int64.ofInt_neg]
    rfl
  exact {
    scans := by
      rw [display, h]
      exact (ScansTo.mark "-" .minus).free (.numeral (m + 1))
    derives := .prefixed (Nat.zero_le _) rfl (.integer rfl (readInt64_repr hm))
    yields := hn ▸ .negated (.integer _ _) }

theorem integer {n : Int64} (h : n ≠ Int64.minValue) :
    ∃ e ts, (Object.integer n).ReadsBack e ts := by
  cases hn : n.toInt with
  | ofNat m => exact ⟨_, _, natural hn⟩
  | negSucc m => exact ⟨_, _, negative hn h⟩

theorem boolean (b : Bool) : ∃ e ts, (Object.boolean b).ReadsBack e ts := by
  cases b with
  | true =>
    let t : Token := ⟨.trueWord, "true", 1⟩
    have ht : t.Genuine := .keyword (by decide)
    exact ⟨.boolean t true, [t], .fixed ht rfl rfl rfl, .trueWord rfl, .boolean t true⟩
  | false =>
    let t : Token := ⟨.falseWord, "false", 1⟩
    have ht : t.Genuine := .keyword (by decide)
    exact ⟨.boolean t false, [t], .fixed ht rfl rfl rfl, .falseWord rfl, .boolean t false⟩

theorem scalar {o : Object} (h : o.isScalar) : ∃ e ts, o.ReadsBack e ts := by
  cases o with
  | integer n => exact integer (of_decide_eq_true h)
  | boolean b => exact boolean b
  | _ => cases h

theorem array {os : List Object} (h : ∀ o ∈ os, ∃ e ts, o.ReadsBack e ts) :
    ∃ e ts, (Object.array os).ReadsBack e ts := by
  obtain ⟨xs, hd, hscans, hyields⟩ : ∃ xs : List (Expr × List Token),
      (∀ x ∈ xs, Derives (.expression 0 x.1) x.2) ∧
      List.Forall₂ (ScansTo isWordChar) (displayAll os) (xs.map (·.2)) ∧
      List.Forall₂ Expr.Yields (xs.map (·.1)) os := by
    induction os with
    | nil => exact ⟨[], by simp, .nil, .nil⟩
    | cons o os ih =>
      obtain ⟨⟨e, ts, ho⟩, hos⟩ := List.forall_mem_cons.1 h
      obtain ⟨xs, hd, hscans, hyields⟩ := ih hos
      exact ⟨(e, ts) :: xs, List.forall_mem_cons.2 ⟨ho.derives, hd⟩, .cons ho.scans hscans,
        .cons ho.yields hyields⟩
  have hopen : ScansTo never "[" [.mark .leftBracket] := .mark _ _
  refine ⟨.array (.mark .leftBracket) (xs.map (·.1)), _, ?_,
    .array rfl hd (commaSeparated_withCommas _) (c := .mark .rightBracket) rfl, .array hyields⟩
  rw [display]
  exact (hopen.brackets hscans).of_never

theorem entries {es : List (Entry Object)} (hkeys : ∀ e ∈ es, ∃ x ts, e.key.ReadsBack x ts)
    (hvalues : ∀ e ∈ es, ∃ x ts, e.value.ReadsBack x ts) :
    ∃ xs : List SpelledPair, (∀ x ∈ xs, x.Derived) ∧
      List.Forall₂ (ScansTo isWordChar) (displayEntries es) (xs.map (·.text)) ∧
      List.Forall₂ (fun p e => p.1.Yields e.key ∧ p.2.Yields e.value) (xs.map (·.pair)) es := by
  induction es with
  | nil => exact ⟨[], by simp, .nil, .nil⟩
  | cons e es ih =>
    obtain ⟨⟨k, kts, hk⟩, hkeys⟩ := List.forall_mem_cons.1 hkeys
    obtain ⟨⟨v, vts, hv⟩, hvalues⟩ := List.forall_mem_cons.1 hvalues
    obtain ⟨xs, hd, hscans, hyields⟩ := ih hkeys hvalues
    have hx : SpelledPair.Derived ⟨k, kts, .mark .colon, v, vts⟩ := ⟨hk.derives, rfl, hv.derives⟩
    exact ⟨⟨k, kts, .mark .colon, v, vts⟩ :: xs, List.forall_mem_cons.2 ⟨hx, hd⟩,
      .cons (hk.scans.pair hv.scans) hscans, .cons ⟨hk.yields, hv.yields⟩ hyields⟩

theorem hash {es : List (Entry Object)} (hfiled : Entry.Filed es)
    (hkeyed : ∀ e ∈ es, e.key.hashKey? = some e.hashKey)
    (hkeys : ∀ e ∈ es, ∃ x ts, e.key.ReadsBack x ts)
    (hvalues : ∀ e ∈ es, ∃ x ts, e.value.ReadsBack x ts) :
    ∃ e ts, (Object.hash es).ReadsBack e ts := by
  obtain ⟨xs, hd, hscans, hyields⟩ := entries hkeys hvalues
  have hopen : ScansTo never "\x7b" [.mark .leftBrace] := .mark _ _
  refine ⟨.hash (.mark .leftBrace) (xs.map (·.pair)), _, ?_,
    .hash rfl (fun x hx => (hd x hx).key) (fun x hx => (hd x hx).colon)
      (fun x hx => (hd x hx).value) (commaEnded_withCommas _) (c := .mark .rightBrace) rfl,
    .hash hyields hkeyed hfiled⟩
  rw [display]
  exact (hopen.braces hscans).of_never

end Object.ReadsBack

theorem Object.Plain.readsBack {o : Object} (h : o.Plain) : ∃ e ts, o.ReadsBack e ts := by
  induction h with
  | scalar h => exact ReadsBack.scalar h
  | array _ ih => exact ReadsBack.array ih
  | @hash pairs hkeys _ ih =>
    obtain ⟨es, heq, hes⟩ := Object.ofPairs_filed pairs
    rw [heq]
    exact ReadsBack.hash hes.filed hes.keyed
      (fun e he => ReadsBack.scalar (hkeys _ (hes.listed e he)))
      fun e he => ih _ (hes.listed e he)

theorem Object.Plain.verdict {o : Object} (h : o.Plain) : Treewalk.verdict o = .ok o := by
  cases h with
  | scalar h =>
    cases o with
    | error e => cases h
    | _ => rfl
  | array _ | hash _ _ => rfl

/-- Deep enough, a plain value's display runs to the value, in whatever scope, and prints and binds
nothing. -/
theorem displays_run (o : Object) (h : o.Plain) :
    ∃ d, ∀ n, d ≤ n → ∀ s m, interpret n s o.display m = some (.ok o, m) := by
  obtain ⟨e, ts, hscan, hd, d, hyields⟩ := h.readsBack
  obtain ⟨t, us, rfl, -⟩ := hd.starts
  have hends : Ends [.eof 1] := by simp [Ends, Token.eof]
  have hstatements : Derives (.statements [.expression t e]) (t :: us ++ []) :=
    .unended (.expression hd) rfl .nil
  have hparse : parse o.display = ⟨[.expression t e], []⟩ := by
    rw [parse, hscan.scan, ← List.append_nil (t :: us)]
    exact parseTokens_append_of_derives hstatements hends
  refine ⟨d + 1, fun n hn s m => ?_⟩
  cases n with
  | zero => exact absurd hn (Nat.not_succ_le_zero d)
  | succ n =>
    have hlast : Eval.sequence (Eval.statement (n + 1) s) .null [.expression t e] m =
        some (.ok o, m) := by
      rw [Eval.sequence, Eval.statement, Run.bind_ok (hyields n (Nat.le_of_succ_le_succ hn) s m)]
      rfl
    simp [interpret, hparse, Eval.program, Eval.outcome, hlast, h.verdict]

/-- A hash with a negative key, another hash in an array and the most negative of the integers that
print as their own source. -/
theorem displays_run_negative :
    let o : Object := .ofPairs [(.boolean false, .integer (-9223372036854775807)),
      (.integer (-1), .array [.boolean true, .ofPairs []])]
    o.Plain ∧ o.display = "\x7b-1: [true, \x7b\x7d], false: -9223372036854775807\x7d" ∧
      ∃ d, ∀ n, d ≤ n → interpret n Machine.root o.display .fresh = some (.ok o, .fresh) := by
  intro o
  have hempty : (Object.ofPairs []).Plain := .hash (by simp) (by simp)
  have harray : (Object.array [.boolean true, .ofPairs []]).Plain := .array (by
    simpa using ⟨.scalar rfl, hempty⟩)
  have hleast : (Object.integer (-9223372036854775807)).isScalar := by decide
  have hkey : (Object.integer (-1)).isScalar := by decide
  have hplain : o.Plain := .hash (by simpa using ⟨rfl, hkey⟩)
    (by simpa using ⟨.scalar hleast, harray⟩)
  obtain ⟨d, h⟩ := displays_run o hplain
  exact ⟨hplain, by decide +kernel, d, fun n hn => h n hn _ _⟩

end Treewalk
