import Treewalk.Proofs.Parser.Complete

/-!
# An empty error list means a faithful parse

The parser reads exactly the texts that the grammar derives, each to the tree that it spells, and
what the tree does not keep is punctuation.
-/

namespace Treewalk

/-! ## Recorded tokens -/

mutual

/-- The tokens that an expression keeps, in the order of its text. -/
def Expr.tokens : Expr → List Token
  | .identifier t | .integer t _ | .boolean t _ | .string t => [t]
  | .prefixed t _ operand => t :: operand.tokens
  | .binary t _ left right => left.tokens ++ t :: right.tokens
  | .conditional t condition consequence alternative =>
    t :: (condition.tokens ++ consequence.tokens ++ tokensElse alternative)
  | .function t parameters body => t :: (parameters ++ body.tokens)
  | .call t callee arguments => callee.tokens ++ t :: tokensAll arguments
  | .array t elements => t :: tokensAll elements
  | .hash t pairs => t :: tokensPairs pairs
  | .index t base position => base.tokens ++ t :: position.tokens

def tokensAll : List Expr → List Token
  | [] => []
  | x :: xs => x.tokens ++ tokensAll xs

def tokensPairs : List (Expr × Expr) → List Token
  | [] => []
  | (key, value) :: pairs => key.tokens ++ value.tokens ++ tokensPairs pairs

def tokensElse : Option Block → List Token
  | none => []
  | some block => block.tokens

def tokensValue : Option Expr → List Token
  | none => []
  | some value => value.tokens

/-- An expression statement has its first token from its expression. -/
def Statement.tokens : Statement → List Token
  | .binding t name value => t :: name :: value.tokens
  | .returning t value => t :: tokensValue value
  | .expression _ value => value.tokens

def tokensStatements : List Statement → List Token
  | [] => []
  | s :: ss => s.tokens ++ tokensStatements ss

def Block.tokens : Block → List Token
  | ⟨t, statements⟩ => t :: tokensStatements statements

end

def Program.tokens (p : Program) : List Token := tokensStatements p

def Phrase.tokens : Phrase → List Token
  | .expression _ x => x.tokens
  | .block b => b.tokens
  | .statement s => s.tokens
  | .statements ss => tokensStatements ss

/-- Tokens that a tree may do without: parentheses, where they group or enclose a condition or
parameters, closing delimiters, `=`, `,`, `:`, `;` and `else`. -/
def TokenKind.isSilent : TokenKind → Bool
  | .leftParen | .rightParen | .rightBrace | .rightBracket => true
  | .assign | .comma | .colon | .semicolon | .elseWord => true
  | _ => false

/-- The second list is the first one without some silent tokens. -/
inductive Omits : List Token → List Token → Prop
  | nil : Omits [] []
  | keep {t : Token} {ts us : List Token} : Omits ts us → Omits (t :: ts) (t :: us)
  | drop {t : Token} {ts us : List Token} : t.kind.isSilent → Omits ts us → Omits (t :: ts) us

namespace Omits

variable {t : Token} {ts us vs ws : List Token}

theorem append (h : Omits ts us) (h' : Omits vs ws) : Omits (ts ++ vs) (us ++ ws) := by
  induction h with
  | nil => exact h'
  | keep _ ih => exact .keep ih
  | drop ht _ ih => exact .drop ht ih

theorem refl : ∀ ts, Omits ts ts
  | [] => .nil
  | _ :: ts => .keep (refl ts)

theorem snoc (h : Omits ts us) (ht : t.kind.isSilent) : Omits (ts ++ [t]) us := by
  have h' := h.append (.drop ht .nil)
  rwa [List.append_nil] at h'

theorem trans (h : Omits ts us) (h' : Omits us vs) : Omits ts vs := by
  induction h generalizing vs with
  | nil => exact h'
  | keep _ ih =>
    cases h' with
    | keep h' => exact .keep (ih h')
    | drop ht h' => exact .drop ht (ih h')
  | drop ht _ ih => exact .drop ht (ih h')

theorem commaLed {tss : List (List Token)} (h : CommaLed tss ts) : Omits ts tss.flatten := by
  induction h with
  | nil => exact .nil
  | cons hc _ ih => exact .drop (by rw [hc]; rfl) (append (refl _) ih)

theorem commaSeparated {tss : List (List Token)} (h : CommaSeparated tss ts) :
    Omits ts tss.flatten := by
  cases h with
  | nil => exact .nil
  | cons h => exact append (refl _) (commaLed h)

theorem commaEnded {tss : List (List Token)} (h : CommaEnded tss ts) : Omits ts tss.flatten := by
  induction h with
  | nil => exact .nil
  | last =>
    rw [List.flatten_cons, List.flatten_nil, List.append_nil]
    exact refl _
  | cons hc _ ih => exact append (refl _) (.drop (by rw [hc]; rfl) ih)

theorem all {xs : List (Expr × List Token)} (hx : ∀ x ∈ xs, Omits x.2 x.1.tokens) :
    Omits (xs.map (·.2)).flatten (tokensAll (xs.map (·.1))) := by
  induction xs with
  | nil => exact .nil
  | cons x xs ih => exact append (hx x (by simp)) (ih fun y hy => hx y (by simp [hy]))

theorem pairs {xs : List SpelledPair} (hk : ∀ x ∈ xs, Omits x.keyText x.key.tokens)
    (hc : ∀ x ∈ xs, x.colon.kind = .colon) (hv : ∀ x ∈ xs, Omits x.valueText x.value.tokens) :
    Omits (xs.map (·.text)).flatten (tokensPairs (xs.map (·.pair))) := by
  induction xs with
  | nil => exact .nil
  | cons x xs ih =>
    have hx : Omits x.text (x.key.tokens ++ x.value.tokens) :=
      append (hk x (by simp)) (.drop (by rw [hc x (by simp)]; rfl) (hv x (by simp)))
    exact append hx (ih (fun y hy => hk y (by simp [hy])) (fun y hy => hc y (by simp [hy]))
      fun y hy => hv y (by simp [hy]))

end Omits

theorem Derives.omits {x : Phrase} {ts : List Token} (h : Derives x ts) : Omits ts x.tokens := by
  induction h with
  | identifier _ | string _ | trueWord _ | falseWord _ => exact .keep .nil
  | integer _ _ => exact .keep .nil
  | group ho _ hc ih => exact .drop (by rw [ho]; rfl) (ih.snoc (by rw [hc]; rfl))
  | prefixed _ _ _ ih => exact .keep ih
  | binary _ _ _ _ ihx ihy => exact ihx.append (.keep ihy)
  | call _ _ _ _ hus hc ihx iha =>
    have harguments := (Omits.commaSeparated hus).trans (.all iha)
    exact ihx.append (.keep (harguments.snoc (by rw [hc]; rfl)))
  | index _ _ _ _ hc ihx ihy => exact ihx.append (.keep (ihy.snoc (by rw [hc]; rfl)))
  | array _ _ hus hc iha =>
    have helements := (Omits.commaSeparated hus).trans (.all iha)
    exact .keep (helements.snoc (by rw [hc]; rfl))
  | hash _ _ hcolons _ hus hc ihk ihv =>
    have hpairs := (Omits.commaEnded hus).trans (.pairs ihk hcolons ihv)
    exact .keep (hpairs.snoc (by rw [hc]; rfl))
  | conditional _ ho _ hc _ ihx ihb =>
    have hbranch := ihx.append (.drop (by rw [hc]; rfl) ihb)
    rw [Phrase.tokens, Expr.tokens, tokensElse, List.append_nil]
    exact .keep (.drop (by rw [ho]; rfl) hbranch)
  | alternative _ ho _ hc _ hw _ ihx ihb ihd =>
    have hblocks := ihb.append (.drop (by rw [hw]; rfl) ihd)
    have hbranches := ihx.append (.drop (by rw [hc]; rfl) hblocks)
    rw [Phrase.tokens, Expr.tokens, tokensElse, List.append_assoc]
    exact .keep (.drop (by rw [ho]; rfl) hbranches)
  | function _ ho _ hus hc _ ihb =>
    have hparameters := Omits.commaSeparated hus
    rw [← List.flatMap_def, List.flatMap_singleton'] at hparameters
    exact .keep (.drop (by rw [ho]; rfl) (hparameters.append (.drop (by rw [hc]; rfl) ihb)))
  | block _ _ hc ih => exact .keep (ih.snoc (by rw [hc]; rfl))
  | binding _ _ ha _ ih => exact .keep (.keep (.drop (by rw [ha]; rfl) ih))
  | bareReturn _ => exact .keep .nil
  | returning _ _ ih => exact .keep ih
  | expression _ ih => exact ih
  | nil => exact .nil
  | ended _ hc _ ihs ihss => exact ihs.append (.drop (by rw [hc]; rfl) ihss)
  | unended _ _ _ ihs ihss => exact ihs.append ihss

/-! ## Programs -/

open Treewalk.Parser

theorem parseTokens_of_ends {ts : List Token} {r : Except Unit Program} {u : Window}
    (h : untilKind .eof (statement (Window.ofTokens ts).depth) (Window.ofTokens ts).depth
      (Window.ofTokens ts) = some (r, u)) :
    parseTokens ts = ⟨r.toOption.getD [], u.errors⟩ := by
  rw [parseTokens, Window.program, h]
  cases r <;> rfl

/-- What stands behind a program: nothing, or the end of input. -/
def Ends (rest : List Token) : Prop := ∀ t ∈ rest.head?, t.kind = .eof

theorem parseTokens_append_of_derives {p : Program} {ts rest : List Token}
    (h : Derives (.statements p) ts) (hrest : Ends rest) : parseTokens (ts ++ rest) = ⟨p, []⟩ := by
  let w := Window.ofTokens (ts ++ rest)
  have he : w.eof.kind = .eof := rfl
  have hcurrent : (Window.mk rest w.eof []).current.kind = .eof := by
    cases rest with
    | nil => exact he
    | cons t rest => exact hrest t rfl
  have hreadable : Readable w.eof [] (.statements p) ts := readable h
  have hread := hreadable .eof rest id (.inr rfl) hcurrent Nat.le_refl
  obtain ⟨r, hr⟩ := program_answers (w := w) he
  have heq := hread.eq_of_refines (fun n => refines_untilKind (deepens n).statement .eof n) hr
  rw [heq] at hr
  exact parseTokens_of_ends hr

theorem parseTokens_of_derives {p : Program} {ts : List Token} (h : Derives (.statements p) ts) :
    parseTokens ts = ⟨p, []⟩ := by
  have hends : Ends [] := by simp [Ends]
  have hparse := parseTokens_append_of_derives h hends
  rwa [List.append_nil] at hparse

theorem derives_of_errors_eq_nil {ts : List Token} (h : (parseTokens ts).errors = []) :
    ∃ text rest, ts = text ++ rest ∧ Derives (.statements (parseTokens ts).program) text ∧
      Ends rest := by
  have he : (Window.ofTokens ts).eof.kind = .eof := rfl
  obtain ⟨⟨r, u⟩, hr⟩ := program_answers (w := Window.ofTokens ts) he
  rw [parseTokens_of_ends hr] at h ⊢
  have hobeys : Obeys (untilKind .eof (statement (Window.ofTokens ts).depth)
      (Window.ofTokens ts).depth) (Window.ofTokens ts) _ := untilKind_obeys he (sound _).statement
  obtain ⟨-, hquiet⟩ := hobeys r u hr
  obtain ⟨p, rfl, text, htext, hd, hclosed⟩ := hquiet h
  refine ⟨text, u.tokens, htext, hd, fun t ht => ?_⟩
  have hcurrent : u.current = t := by rw [Window.current, ht]; rfl
  rwa [Closed, or_self, hcurrent] at hclosed

theorem derives_of_parseTokens {ts : List Token} (hts : ∀ t ∈ ts, t.kind ≠ .eof)
    (h : (parseTokens ts).errors = []) : Derives (.statements (parseTokens ts).program) ts := by
  obtain ⟨text, rest, heq, hd, hrest⟩ := derives_of_errors_eq_nil h
  -- the end of input is no token of the list, so nothing is left
  obtain rfl : rest = [] := by
    cases rest with
    | nil => rfl
    | cons t rest => exact absurd (hrest t rfl) (hts t (by simp [heq]))
  rwa [← List.append_nil text, ← heq] at hd

/-- A list of tokens without an end of input inside parses without an error just if the grammar
derives it, namely to the program that it parses to. No other program is derived by it, and the
program keeps all but silent tokens of it, in order. -/
theorem parse_faithful (ts : List Token) (hts : ∀ t ∈ ts, t.kind ≠ .eof) :
    ((parseTokens ts).errors = [] → Derives (.statements (parseTokens ts).program) ts ∧
      Omits ts (parseTokens ts).program.tokens) ∧
    ∀ p, Derives (.statements p) ts → parseTokens ts = ⟨p, []⟩ := by
  refine ⟨fun h => ?_, fun p hp => parseTokens_of_derives hp⟩
  have hd := derives_of_parseTokens hts h
  exact ⟨hd, hd.omits⟩

theorem parse_faithful_last_comma :
    let ts : List Token := [⟨.leftBrace, "\x7b", 1⟩, ⟨.ident, "a", 1⟩, ⟨.colon, ":", 1⟩,
      ⟨.ident, "b", 1⟩, ⟨.comma, ",", 1⟩, ⟨.rightBrace, "\x7d", 1⟩]
    (∀ t ∈ ts, t.kind ≠ .eof) ∧ (parseTokens ts).errors = [] ∧
      Derives (.statements (parseTokens ts).program) ts ∧
      Omits ts (parseTokens ts).program.tokens := by
  intro ts
  have hts : ∀ t ∈ ts, t.kind ≠ .eof := by decide
  have hnone : (parseTokens ts).errors = [] := rfl
  exact ⟨hts, hnone, (parse_faithful ts hts).1 hnone⟩

end Treewalk
