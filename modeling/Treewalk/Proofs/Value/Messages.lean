import Mathlib.Data.List.Infix
import Treewalk.Value.Error

/-!
# What messages tell apart

The message of an error says all that the error does, as long as counts of arguments come from the
table of built-in functions: from four on they share one word.
-/

namespace Treewalk

/-- An error about the arguments of a built-in function gives the count that the function takes. -/
def RuntimeError.TrueToArity : RuntimeError → Prop
  | builtinArity builtin want => builtin.arity = .exactly want
  | _ => True

/-! ## Parts of messages -/

theorem parted_inj {a b u v : List Char} {c : Char} (ha : c ∉ a) (hb : c ∉ b)
    (h : a ++ c :: u = b ++ c :: v) : a = b ∧ u = v := by
  induction a generalizing b with
  | nil =>
    cases b with
    | nil => exact ⟨rfl, (List.cons.inj h).2⟩
    | cons y b => exact absurd ((List.cons.inj h).1 ▸ List.mem_cons_self) hb
  | cons x a ih =>
    cases b with
    | nil => exact absurd ((List.cons.inj h).1 ▸ List.mem_cons_self) ha
    | cons y b =>
      obtain ⟨rfl, htail⟩ := List.cons.inj h
      obtain ⟨rfl, rfl⟩ :=
        ih (List.not_mem_of_not_mem_cons ha) (List.not_mem_of_not_mem_cons hb) htail
      exact ⟨rfl, rfl⟩

namespace Kind

theorem name_inj {k k' : Kind} (h : k.name = k'.name) : k = k' := by
  cases k <;> cases k' <;> first | rfl | exact absurd h (by decide)

theorem space_notMem_name (k : Kind) : ' ' ∉ k.name.toList := by
  cases k <;> decide

theorem bracket_notMem_name (k : Kind) : '[' ∉ k.name.toList := by
  cases k <;> decide

end Kind

theorem Builtin.name_inj {b b' : Builtin} (h : b.name = b'.name) : b = b' := by
  cases b <;> cases b' <;> first | rfl | exact absurd h (by decide)

theorem Builtin.quote_notMem_name (b : Builtin) : '`' ∉ b.name.toList := by
  cases b <;> decide

theorem PrefixOp.symbol_inj {op op' : PrefixOp} (h : op.symbol = op'.symbol) : op = op' := by
  cases op <;> cases op' <;> first | rfl | exact absurd h (by decide)

theorem PrefixOp.length_symbol (op : PrefixOp) : op.symbol.toList.length = 1 := by
  cases op <;> rfl

theorem PrefixOp.space_notMem_symbol (op : PrefixOp) : ' ' ∉ op.symbol.toList := by
  cases op <;> decide

theorem InfixOp.symbol_inj {op op' : InfixOp} (h : op.symbol = op'.symbol) : op = op' := by
  cases op <;> cases op' <;> first | rfl | exact absurd h (by decide)

theorem InfixOp.space_notMem_symbol (op : InfixOp) : ' ' ∉ op.symbol.toList := by
  cases op <;> decide

theorem comma_notMem_repr (n : Nat) : ',' ∉ n.repr.toList := by
  intro h
  rw [Nat.toList_repr] at h
  exact absurd (Nat.isDigit_of_mem_toDigits (by decide) (by decide) h) (by decide)

theorem eq_of_toList_repr_eq {m n : Nat} (h : m.repr.toList = n.repr.toList) : m = n := by
  have hvalue := congrArg (Nat.ofDigitChars 10 · 0) h
  simpa [Nat.toList_repr] using hvalue

theorem prefixed_inj {op op' : PrefixOp} {k k' : Kind}
    (h : op.symbol ++ k.name = op'.symbol ++ k'.name) : op = op' ∧ k = k' := by
  have hchars := congrArg String.toList h
  rw [String.toList_append, String.toList_append] at hchars
  have hlength : op.symbol.toList.length = op'.symbol.toList.length := by
    rw [op.length_symbol, op'.length_symbol]
  obtain ⟨hop, hk⟩ := List.append_inj hchars hlength
  exact ⟨PrefixOp.symbol_inj (String.toList_inj.1 hop), Kind.name_inj (String.toList_inj.1 hk)⟩

theorem operation_inj {l l' r r' : Kind} {op op' : InfixOp}
    (h : l.name ++ " " ++ op.symbol ++ " " ++ r.name =
      l'.name ++ " " ++ op'.symbol ++ " " ++ r'.name) : l = l' ∧ op = op' ∧ r = r' := by
  have hchars := congrArg String.toList h
  simp only [String.toList_append, String.reduceToList, List.append_assoc,
    List.singleton_append] at hchars
  obtain ⟨hl, hrest⟩ := parted_inj l.space_notMem_name l'.space_notMem_name hchars
  obtain ⟨hop, hr⟩ := parted_inj op.space_notMem_symbol op'.space_notMem_symbol hrest
  exact ⟨Kind.name_inj (String.toList_inj.1 hl), InfixOp.symbol_inj (String.toList_inj.1 hop),
    Kind.name_inj (String.toList_inj.1 hr)⟩

/-- Only infix operators stand between spaces. -/
theorem prefixed_ne_operation (op : PrefixOp) (op' : InfixOp) (k l r : Kind) :
    op.symbol ++ k.name ≠ l.name ++ " " ++ op'.symbol ++ " " ++ r.name := by
  intro h
  have hspace : ' ' ∈ (op.symbol ++ k.name).toList := by simp [h]
  rw [String.toList_append, List.mem_append] at hspace
  exact hspace.elim op.space_notMem_symbol k.space_notMem_name

/-- Only an array is shown with a position. -/
theorem name_ne_position (k index : Kind) : k.name ≠ "ARRAY[" ++ index.name ++ "]" := by
  intro h
  have hbracket : '[' ∈ k.name.toList := by simp [h]
  exact k.bracket_notMem_name hbracket

theorem position_inj {k k' : Kind} (h : "ARRAY[" ++ k.name ++ "]" = "ARRAY[" ++ k'.name ++ "]") :
    k = k' :=
  Kind.name_inj ((String.append_right_inj _).1 ((String.append_left_inj _).1 h))

theorem quoted_inj {b b' : Builtin} {s s' t t' : String} (hs : s.toList.head? = some '`')
    (hs' : s'.toList.head? = some '`') (h : b.name ++ s ++ t = b'.name ++ s' ++ t') :
    b = b' ∧ s ++ t = s' ++ t' := by
  obtain ⟨u, hu⟩ := List.head?_eq_some_iff.1 hs
  obtain ⟨u', hu'⟩ := List.head?_eq_some_iff.1 hs'
  have hchars := congrArg String.toList h
  simp only [String.toList_append, hu, hu', List.append_assoc, List.cons_append] at hchars
  obtain ⟨hb, hrest⟩ := parted_inj b.quote_notMem_name b'.quote_notMem_name hchars
  refine ⟨Builtin.name_inj (String.toList_inj.1 hb), String.toList_inj.1 ?_⟩
  rw [String.toList_append, String.toList_append, hu, hu', List.cons_append, List.cons_append,
    hrest]

theorem unsupported_ne_expected (k k' : Kind) :
    "` not supported, got " ++ k.name ≠ "` must be ARRAY, got " ++ k'.name := by
  intro h
  have hchars := congrArg String.toList h
  simp at hchars

theorem counts_inj {want want' got got' : Nat}
    (h : toString want ++ ", got=" ++ toString got = toString want' ++ ", got=" ++ toString got') :
    want = want' ∧ got = got' := by
  have hchars := congrArg String.toList h
  simp only [Nat.toString_eq_repr, String.toList_append, String.reduceToList, List.append_assoc,
    List.cons_append] at hchars
  obtain ⟨hwant, hgot⟩ := parted_inj (comma_notMem_repr want) (comma_notMem_repr want') hchars
  exact ⟨eq_of_toList_repr_eq hwant, eq_of_toList_repr_eq (by simpa using hgot)⟩

/-! ## What messages begin with -/

/-- What all messages of one sort begin with. -/
inductive Lead
  | identifier | operator | mismatch | division | hashKey
  | index | callee | count | arity | argument

namespace Lead

def text : Lead → String
  | identifier => "identifier not found: "
  | operator => "unknown operator: "
  | mismatch => "type mismatch: "
  | division => "division by zero"
  | hashKey => "unusable as hash key: "
  | index => "index operator not supported: "
  | callee => "not a function: "
  | count => "wrong number of arguments: want="
  | arity => "`"
  | argument => "argument to `"

theorem eq_of_prefix {a b : Lead} (h : a.text.toList <+: b.text.toList) : a = b := by
  cases a <;> cases b <;> first | rfl | exact absurd h (by decide)

end Lead

namespace RuntimeError

def lead : RuntimeError → Lead
  | unknownIdentifier _ => .identifier
  | unknownPrefix _ _ | unknownInfix _ _ _ => .operator
  | typeMismatch _ _ _ => .mismatch
  | divisionByZero => .division
  | unusableAsHashKey _ => .hashKey
  | indexNotSupported _ | arrayIndexNotInteger _ => .index
  | notAFunction _ => .callee
  | wrongArgumentCount _ _ => .count
  | builtinArity _ _ => .arity
  | builtinArgument _ _ | builtinExpectedArray _ _ => .argument

/-- What follows the lead. -/
def detail : RuntimeError → String
  | unknownIdentifier name => name
  | unknownPrefix op operand => op.symbol ++ operand.name
  | unknownInfix left op right | typeMismatch left op right =>
    left.name ++ " " ++ op.symbol ++ " " ++ right.name
  | divisionByZero => ""
  | unusableAsHashKey kind | indexNotSupported kind | notAFunction kind => kind.name
  | arrayIndexNotInteger index => "ARRAY[" ++ index.name ++ "]"
  | wrongArgumentCount want got => toString want ++ ", got=" ++ toString got
  | builtinArity builtin want => builtin.name ++ "` takes " ++ argumentCount want
  | builtinArgument builtin got => builtin.name ++ "` not supported, got " ++ got.name
  | builtinExpectedArray builtin got => builtin.name ++ "` must be ARRAY, got " ++ got.name

theorem message_eq (e : RuntimeError) : e.message = e.lead.text ++ e.detail := by
  unfold message detail
  cases e with
  | divisionByZero => exact String.append_empty.symm
  | arrayIndexNotInteger index =>
    have hlead : "index operator not supported: ARRAY[" = Lead.index.text ++ "ARRAY[" := by decide
    simp only [lead, hlead, String.append_assoc]
  | _ => simp only [lead, Lead.text, String.append_assoc]

theorem lead_inj {e e' : RuntimeError} (h : e.message = e'.message) : e.lead = e'.lead := by
  have hlead (x : RuntimeError) : x.lead.text.toList <+: x.message.toList := by
    rw [message_eq, String.toList_append]
    exact List.prefix_append _ _
  have hlead' := hlead e'
  rw [← h] at hlead'
  rcases List.prefix_or_prefix_of_prefix (hlead e) hlead' with h | h
  · exact Lead.eq_of_prefix h
  · exact (Lead.eq_of_prefix h).symm

theorem detail_inj {e e' : RuntimeError} (h : e.message = e'.message) : e.detail = e'.detail := by
  have hlead := lead_inj h
  rw [message_eq, message_eq, hlead] at h
  exact (String.append_right_inj _).1 h

/-! ## Messages -/

theorem message_inj {e e' : RuntimeError} (he : e.TrueToArity) (he' : e'.TrueToArity)
    (h : e.message = e'.message) : e = e' := by
  have hlead := lead_inj h
  have hdetail := detail_inj h
  -- the beginnings of messages leave three pairs of errors to tell apart
  cases e with
  | unknownIdentifier name =>
    cases e' with
    | unknownIdentifier name' => exact congrArg _ hdetail
    | _ => nomatch hlead
  | unknownPrefix op operand =>
    cases e' with
    | unknownPrefix op' operand' =>
      obtain ⟨rfl, rfl⟩ := prefixed_inj hdetail
      rfl
    | unknownInfix left op' right => exact absurd hdetail (prefixed_ne_operation _ _ _ _ _)
    | _ => nomatch hlead
  | unknownInfix left op right =>
    cases e' with
    | unknownPrefix op' operand' => exact absurd hdetail.symm (prefixed_ne_operation _ _ _ _ _)
    | unknownInfix left' op' right' =>
      obtain ⟨rfl, rfl, rfl⟩ := operation_inj hdetail
      rfl
    | _ => nomatch hlead
  | typeMismatch left op right =>
    cases e' with
    | typeMismatch left' op' right' =>
      obtain ⟨rfl, rfl, rfl⟩ := operation_inj hdetail
      rfl
    | _ => nomatch hlead
  | divisionByZero =>
    cases e' with
    | divisionByZero => rfl
    | _ => nomatch hlead
  | unusableAsHashKey kind =>
    cases e' with
    | unusableAsHashKey kind' => exact congrArg _ (Kind.name_inj hdetail)
    | _ => nomatch hlead
  | indexNotSupported kind =>
    cases e' with
    | indexNotSupported kind' => exact congrArg _ (Kind.name_inj hdetail)
    | arrayIndexNotInteger index => exact absurd hdetail (name_ne_position _ _)
    | _ => nomatch hlead
  | arrayIndexNotInteger index =>
    cases e' with
    | indexNotSupported kind => exact absurd hdetail.symm (name_ne_position _ _)
    | arrayIndexNotInteger index' => exact congrArg _ (position_inj hdetail)
    | _ => nomatch hlead
  | notAFunction kind =>
    cases e' with
    | notAFunction kind' => exact congrArg _ (Kind.name_inj hdetail)
    | _ => nomatch hlead
  | wrongArgumentCount want got =>
    cases e' with
    | wrongArgumentCount want' got' =>
      obtain ⟨rfl, rfl⟩ := counts_inj hdetail
      rfl
    | _ => nomatch hlead
  | builtinArity builtin want =>
    cases e' with
    | builtinArity builtin' want' =>
      obtain ⟨rfl, -⟩ := quoted_inj rfl rfl hdetail
      obtain rfl := Arity.exactly.inj (he.symm.trans he')
      rfl
    | _ => nomatch hlead
  | builtinArgument builtin got =>
    cases e' with
    | builtinArgument builtin' got' =>
      obtain ⟨rfl, hrest⟩ := quoted_inj rfl rfl hdetail
      exact congrArg _ (Kind.name_inj ((String.append_right_inj _).1 hrest))
    | builtinExpectedArray builtin' got' =>
      exact absurd (quoted_inj rfl rfl hdetail).2 (unsupported_ne_expected _ _)
    | _ => nomatch hlead
  | builtinExpectedArray builtin got =>
    cases e' with
    | builtinArgument builtin' got' =>
      exact absurd (quoted_inj rfl rfl hdetail).2.symm (unsupported_ne_expected _ _)
    | builtinExpectedArray builtin' got' =>
      obtain ⟨rfl, hrest⟩ := quoted_inj rfl rfl hdetail
      exact congrArg _ (Kind.name_inj ((String.append_right_inj _).1 hrest))
    | _ => nomatch hlead

/-- No built-in function takes so many arguments. -/
example : (builtinArity .len 4).message = (builtinArity .len 5).message := rfl

end RuntimeError

end Treewalk
